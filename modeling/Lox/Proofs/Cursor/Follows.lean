import Lox.Proofs.Lookahead.Basic
import Lox.Proofs.Cursor.Walk

/-!
# Walks that follow a parser

A walk stands where a parser of statements stands if the tokens from the cursor up to the first end of
the input are those that the parser has left, if both have reported the same, and if nothing that the
walk has done is out of place: it has read and put the cursor nowhere behind that end, and each turn
of a loop has moved the cursor on. A walker follows a parser if from there both come out alike
(`Follows`), so that it never finds an index out of range and never runs out of turns.

One rule for each thing that a walker can do; the rule for loops asks that a turn that goes on leaves
fewer tokens (`followsAt_repeated`).
-/

namespace Lox.Cursor

open Lox.Computation
open Lox.Parser (Progress StmtParser Fault beginsWith quietly)

/-! ## Standing at the same place -/

/-- Tokens with a first one that ends the input. -/
structure Input where
  body : List Token
  last : Token
  behind : List Token
  kind_ne_eof : ∀ t ∈ body, t.kind ≠ .eof
  kind_last : last.kind = .eof

def Input.tokens (input : Input) : List Token :=
  input.body ++ input.last :: input.behind

/-- A deed that is in place, given the index of the end: nothing behind the end is read and the cursor
is not put there, and a turn moves the cursor on. A turn that leaves its loop moves it on as well, or
it has found that the recovery is over where the cursor stands. -/
def Deed.InPlace (final : Nat) : Deed → Prop
  | read position | put position => position ≤ final
  | turn _ start stop => start < stop
  | leave loop start stop => start < stop ∨ loop = .recovery ∧ start = stop

/-- A walk stands where a parser does. -/
structure Input.Stands (input : Input) (s : Progress) (walk : Walk) : Prop where
  position : walk.position ≤ input.body.length
  rest : s.rest = input.body.drop walk.position
  reports : walk.reports = s.reports.map (·.toError input.last)
  deeds : ∀ deed ∈ walk.deeds, deed.InPlace input.body.length

section Stands

variable {input : Input} {s s' : Progress} {walk walk' : Walk}

theorem Input.Stands.length (h : input.Stands s walk) :
    walk.position + s.rest.length = input.body.length := by
  have hposition := h.position
  rw [h.rest, List.length_drop]
  omega

theorem Input.Stands.subset (h : input.Stands s walk) : s.rest ⊆ input.body := by
  rw [h.rest]
  exact List.drop_subset _ _

/-- The cursor is on the next token that is left, or on the end. -/
theorem Input.Stands.getElem? (h : input.Stands s walk) :
    input.tokens[walk.position]? = some (s.rest.headD input.last) := by
  have hlength := h.length
  have hrest := h.rest
  rw [Input.tokens]
  cases hcase : s.rest with
  | nil =>
    rw [hcase, List.length_nil] at hlength
    rw [List.getElem?_append_right (by omega), (by omega : walk.position - input.body.length = 0)]
    rfl
  | cons t rest =>
    rw [hcase, List.length_cons] at hlength
    rw [hcase] at hrest
    rw [List.getElem?_append_left (by omega), ← List.head?_drop, ← hrest]
    rfl

theorem Input.Stands.note (h : input.Stands s walk) {deed : Deed}
    (hdeed : deed.InPlace input.body.length) : input.Stands s (walk.note deed) where
  position := h.position
  rest := h.rest
  reports := h.reports
  deeds := List.forall_mem_cons.2 ⟨hdeed, h.deeds⟩

theorem Input.Stands.lt_of_shorter (h : input.Stands s walk) (h' : input.Stands s' walk')
    (hshorter : s'.rest.length < s.rest.length) : walk.position < walk'.position := by
  have hlength := h.length
  have hlength' := h'.length
  omega

end Stands

/-! ## Following -/

def stopOf (last : Token) : Parser.Halt → Stop
  | .fault fault => .fault (fault.toError last)
  | .tooDeep => .tooDeep

/-- A parser and a walker come out alike: with the same value, or stopped for the same reason. -/
def Input.Agree (input : Input) {α : Type} :
    EStateM.Result Parser.Halt Progress α → EStateM.Result Stop Walk α → Prop
  | .ok a s, .ok b walk => b = a ∧ input.Stands s walk
  | .error halt s, .error stop walk => stop = stopOf input.last halt ∧ input.Stands s walk
  | _, _ => False

/-- From wherever a walk stands as a parser does, the walker comes out as is said. -/
def Input.FollowsAt (input : Input) {α : Type} (walker : Walker α) (s : Progress)
    (result : EStateM.Result Parser.Halt Progress α) : Prop :=
  ∀ walk, input.Stands s walk → input.Agree result (walker walk)

/-- A walker comes out everywhere as a parser does. -/
def Input.Follows (input : Input) {α : Type} (walker : Walker α) (parser : StmtParser α) : Prop :=
  ∀ s, input.FollowsAt walker s (parser s)

section Rules

variable {α β : Type} {input : Input} {s s' : Progress} {walker : Walker α}

theorem Input.FollowsAt.ok {walk : Walk} {a : α} (h : input.FollowsAt walker s (.ok a s'))
    (hstands : input.Stands s walk) :
    ∃ after, walker walk = .ok a after ∧ input.Stands s' after := by
  have hagree := h walk hstands
  cases hrun : walker walk with
  | ok b after =>
    rw [hrun] at hagree
    obtain ⟨rfl, hafter⟩ := hagree
    exact ⟨after, rfl, hafter⟩
  | error stop after =>
    rw [hrun] at hagree
    exact hagree.elim

theorem Input.FollowsAt.error {walk : Walk} {halt : Parser.Halt}
    (h : input.FollowsAt walker s (.error halt s')) (hstands : input.Stands s walk) :
    ∃ after, walker walk = .error (stopOf input.last halt) after ∧ input.Stands s' after := by
  have hagree := h walk hstands
  cases hrun : walker walk with
  | ok b after =>
    rw [hrun] at hagree
    exact hagree.elim
  | error stop after =>
    rw [hrun] at hagree
    obtain ⟨rfl, hafter⟩ := hagree
    exact ⟨after, rfl, hafter⟩

theorem followsAt_pure (a : α) (s : Progress) : input.FollowsAt (pure a) s (.ok a s) :=
  fun _ hstands => ⟨rfl, hstands⟩

theorem follows_pure (a : α) : input.Follows (pure a) (pure a) :=
  followsAt_pure a

theorem Input.FollowsAt.bind {next : α → Walker β}
    {result : EStateM.Result Parser.Halt Progress α} {final : EStateM.Result Parser.Halt Progress β}
    (h : input.FollowsAt walker s result)
    (hok : ∀ a s', result = .ok a s' → input.FollowsAt (next a) s' final)
    (herror : ∀ halt s', result = .error halt s' → final = .error halt s') :
    input.FollowsAt (walker >>= next) s final := by
  intro walk hstands
  cases result with
  | ok a s' =>
    obtain ⟨after, hrun, hafter⟩ := h.ok hstands
    rw [bind_of_ok hrun]
    exact hok a s' rfl after hafter
  | error halt s' =>
    obtain ⟨after, hrun, hafter⟩ := h.error hstands
    rw [bind_of_error hrun, herror halt s' rfl]
    exact ⟨rfl, hafter⟩

/-- A walker that is known to return, and what comes after it. -/
theorem Input.FollowsAt.before {next : α → Walker β} {a : α}
    {final : EStateM.Result Parser.Halt Progress β} (h : input.FollowsAt walker s (.ok a s'))
    (hnext : input.FollowsAt (next a) s' final) : input.FollowsAt (walker >>= next) s final := by
  refine h.bind (fun b after heq => ?_) fun _ _ => nofun
  cases heq
  exact hnext

theorem Input.Follows.bind {parser : StmtParser α} {next : α → Walker β} {next' : α → StmtParser β}
    (h : input.Follows walker parser) (hnext : ∀ a, input.Follows (next a) (next' a)) :
    input.Follows (walker >>= next) (parser >>= next') := by
  refine fun s => (h s).bind (fun a s' hrun => ?_) fun halt s' hrun => bind_of_error hrun next'
  rw [bind_of_ok hrun]
  exact hnext a s'

/-! ## The cursor -/

theorem followsAt_peek (s : Progress) :
    input.FollowsAt (peek input.tokens) s (.ok (s.rest.headD input.last) s) := by
  intro walk hstands
  rw [peek, get_bind, readAt, hstands.getElem?]
  exact ⟨rfl, hstands.note hstands.position⟩

/-- A test that fails at the end of the input only looks at the next token that is left. -/
theorem followsAt_check {accepts : Kind → Bool} (haccepts : accepts .eof = false) (s : Progress) :
    input.FollowsAt (check input.tokens accepts) s (.ok (beginsWith accepts s.rest) s) := by
  have hnext : accepts (s.rest.headD input.last).kind = beginsWith accepts s.rest := by
    cases s.rest with
    | nil => exact (congrArg accepts input.kind_last).trans haccepts
    | cons t rest => rfl
  refine (followsAt_peek s).before ?_
  rw [hnext]
  exact followsAt_pure _ s

/-- A walker that goes one way or the other, as the next token tells. -/
theorem followsAt_ifCheck {accepts : Kind → Bool} (haccepts : accepts .eof = false)
    {yes no : Walker α} {final : EStateM.Result Parser.Halt Progress α}
    (hyes : ∀ t rest, s.rest = t :: rest → accepts t.kind = true → input.FollowsAt yes s final)
    (hno : beginsWith accepts s.rest = false → input.FollowsAt no s final) :
    input.FollowsAt (do if ← check input.tokens accepts then yes else no) s final := by
  refine (followsAt_check haccepts s).before ?_
  cases hbegins : beginsWith accepts s.rest with
  | false =>
    rw [if_neg Bool.false_ne_true]
    exact hno hbegins
  | true =>
    rw [if_pos rfl]
    cases hrest : s.rest with
    | nil =>
      rw [hrest] at hbegins
      cases hbegins
    | cons t rest =>
      rw [hrest] at hbegins
      exact hyes t rest hrest hbegins

theorem followsAt_isAtEnd (s : Progress) :
    input.FollowsAt (isAtEnd input.tokens) s (.ok s.rest.isEmpty s) := by
  intro walk hstands
  have hnext : decide ((s.rest.headD input.last).kind = .eof) = s.rest.isEmpty := by
    cases hrest : s.rest with
    | nil => exact decide_eq_true input.kind_last
    | cons t rest =>
      exact decide_eq_false (input.kind_ne_eof t (hstands.subset (by simp [hrest])))
  have hpure : input.FollowsAt (pure (decide ((s.rest.headD input.last).kind = .eof))) s
      (.ok s.rest.isEmpty s) := by
    rw [hnext]
    exact followsAt_pure _ s
  exact Input.FollowsAt.before (followsAt_peek s) hpure walk hstands

/-- A walker that goes one way at the end of the input and the other in front of it. -/
theorem followsAt_ifAtEnd {yes no : Walker α} {final : EStateM.Result Parser.Halt Progress α}
    (hyes : s.rest = [] → input.FollowsAt yes s final)
    (hno : ∀ t rest, s.rest = t :: rest → input.FollowsAt no s final) :
    input.FollowsAt (do if ← isAtEnd input.tokens then yes else no) s final := by
  refine (followsAt_isAtEnd s).before ?_
  cases hrest : s.rest with
  | nil => exact hyes hrest
  | cons t rest => exact hno t rest hrest

theorem followsAt_put {position : Nat} (hposition : position ≤ input.body.length) (s : Progress) :
    input.FollowsAt (put position) s (.ok () { s with rest := input.body.drop position }) :=
  fun _ hstands => ⟨rfl, hposition, rfl, hstands.reports,
    List.forall_mem_cons.2 ⟨hposition, hstands.deeds⟩⟩

theorem followsAt_report (fault : Fault) (s : Progress) :
    input.FollowsAt (report (fault.toError input.last)) s
      (.ok () { s with reports := fault :: s.reports }) :=
  fun _ hstands => ⟨rfl, hstands.position, hstands.rest, congrArg _ hstands.reports, hstands.deeds⟩

/-- At the end of the input the cursor stays where it is. -/
theorem followsAt_advance_nil (reports : List Fault) :
    input.FollowsAt (advance input.tokens) ⟨[], reports⟩ (.ok input.last ⟨[], reports⟩) := by
  refine (followsAt_peek _).before (followsAt_ifAtEnd (fun _ => ?_) nofun)
  exact followsAt_pure _ _

/-- In front of the end the cursor is moved on by one token. -/
theorem followsAt_advance (t : Token) (rest : List Token) (reports : List Fault) :
    input.FollowsAt (advance input.tokens) ⟨t :: rest, reports⟩ (.ok t ⟨rest, reports⟩) := by
  refine (followsAt_peek _).before (followsAt_ifAtEnd nofun fun _ _ _ walk hstands => ?_)
  have hlength := hstands.length
  have hdrop := hstands.rest
  dsimp only [List.length_cons] at hlength hdrop
  have htail : input.body.drop (walk.position + 1) = rest := by
    rw [← List.tail_drop, ← hdrop, List.tail_cons]
  have hput := @followsAt_put input _ (by omega : walk.position + 1 ≤ input.body.length)
    ⟨t :: rest, reports⟩
  rw [htail] at hput
  rw [get_bind]
  exact hput.before (followsAt_pure t _) walk hstands

/-- What a turn of a loop has to come to for the loop to end as is said: if it goes on, fewer tokens
are left and the loop ends so from there. -/
def Leads (loop : Loop) (ends : α → Progress → EStateM.Result Parser.Halt Progress β → Prop)
    (s : Progress) (final : EStateM.Result Parser.Halt Progress β) :
    EStateM.Result Parser.Halt Progress (Turn α β) → Prop
  | .ok (.goOn next) s' => s'.rest.length < s.rest.length ∧ ends next s' final
  | .ok (.leave b) s' => final = .ok b s' ∧
      (s'.rest.length < s.rest.length ∨ loop = .recovery ∧ s' = s)
  | .ok (.done b) s' => final = .ok b s'
  | .error halt s' => final = .error halt s'

theorem followsAt_repeated_of_length {loop : Loop} {turn : α → Walker (Turn α β)}
    {ends : α → Progress → EStateM.Result Parser.Halt Progress β → Prop}
    (hturn : ∀ current s final, ends current s final →
      ∃ result, input.FollowsAt (turn current) s result ∧ Leads loop ends s final result)
    {turns : Nat} {current : α} {final : EStateM.Result Parser.Halt Progress β}
    (hends : ends current s final) (hturns : s.rest.length < turns) :
    input.FollowsAt (repeated loop turn turns current) s final := by
  induction turns generalizing current s with
  | zero => exact absurd hturns (Nat.not_lt_zero _)
  | succ turns ih =>
    intro walk hstands
    obtain ⟨result, hfollows, hleads⟩ := hturn current s final hends
    rw [repeated, get_bind]
    cases result with
    | error halt s' =>
      obtain ⟨after, hrun, hafter⟩ := hfollows.error hstands
      rw [bind_of_error hrun]
      cases hleads
      exact ⟨rfl, hafter⟩
    | ok way s' =>
      obtain ⟨after, hrun, hafter⟩ := hfollows.ok hstands
      rw [bind_of_ok hrun]
      cases way with
      | goOn next =>
        obtain ⟨hshorter, hnext⟩ := hleads
        have hdeed : (Deed.turn loop walk.position after.position).InPlace input.body.length :=
          hstands.lt_of_shorter hafter hshorter
        exact ih hnext (by omega) _ (hafter.note hdeed)
      | leave b =>
        obtain ⟨rfl, hleft⟩ := hleads
        refine ⟨rfl, hafter.note (hleft.imp (hstands.lt_of_shorter hafter) ?_)⟩
        rintro ⟨hloop, rfl⟩
        have hlength := hstands.length
        have hlength' := hafter.length
        exact ⟨hloop, by omega⟩
      | done b =>
        cases hleads
        exact ⟨rfl, hafter⟩

/-- A loop ends as each of its turns leads to, if it may take more turns than there are tokens. -/
theorem followsAt_repeated {loop : Loop} {turn : α → Walker (Turn α β)}
    {ends : α → Progress → EStateM.Result Parser.Halt Progress β → Prop}
    (hturn : ∀ current s final, ends current s final →
      ∃ result, input.FollowsAt (turn current) s result ∧ Leads loop ends s final result)
    {turns : Nat} (hturns : input.body.length < turns) {current : α}
    {final : EStateM.Result Parser.Halt Progress β} (hends : ends current s final) :
    input.FollowsAt (repeated loop turn turns current) s final := by
  intro walk hstands
  have hlength := hstands.length
  exact followsAt_repeated_of_length hturn hends (by omega) walk hstands

end Rules

end Lox.Cursor
