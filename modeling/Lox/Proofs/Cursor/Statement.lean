import Lox.Proofs.Cursor.Expression
import Lox.Proofs.Lookahead.Statement

/-!
# Statements with a cursor

The walker of statements follows the parser of statements, within every limit of nesting. After a fault
the walk drops tokens, looking back at the one that was dropped last; going back to the start of a
statement it drops that statement. Both loops only take tokens. The loop over a block goes on only
behind a declaration, and one that is faulty took a token as well: where the fault is at its first
token, taking up again drops that one.
-/

namespace Lox.Cursor

open Lox.Computation
open Lox.Parser (StmtParser Progress Fault beginsWith quietly)

section

variable {input : Input} {turns limit : Nat}

/-! ## Taking up again -/

/-- The token in front of the next one is read in place, if there is one. -/
theorem followsAt_previous {front : List Token} {t : Token} {s : Progress}
    (hbody : input.body = front ++ t :: s.rest) :
    input.FollowsAt (previous input.tokens) s (.ok t s) := by
  intro walk hstands
  have hlength := hstands.length
  rw [hbody, List.length_append, List.length_cons] at hlength
  have hposition : walk.position = front.length + 1 := by omega
  have hget : input.tokens[front.length]? = some t := by
    rw [Input.tokens, hbody, List.append_assoc, List.getElem?_append_right (Nat.le_refl _),
      Nat.sub_self]
    rfl
  rw [previous, get_bind, hposition]
  dsimp only
  rw [readAt, hget]
  refine ⟨rfl, hstands.note ?_⟩
  rw [hbody, List.length_append]
  exact Nat.le_add_right _ _

theorem followsAt_recoveryTurn_nil (reports : List Fault) :
    input.FollowsAt (recoveryTurn input.tokens ()) ⟨[], reports⟩ (.ok (.done ()) ⟨[], reports⟩) :=
  followsAt_ifAtEnd (fun _ => followsAt_pure _ _) nofun

/-- Behind a token that was dropped: whether another one is dropped. -/
theorem followsAt_recoveryTurn {front : List Token} {t u : Token} {rest : List Token}
    {reports : List Fault} (hbody : input.body = front ++ t :: u :: rest) :
    input.FollowsAt (recoveryTurn input.tokens ()) ⟨u :: rest, reports⟩
      (if t.kind = .semicolon ∨ u.kind.startsStatement = true then .ok (.leave ()) ⟨u :: rest, reports⟩
      else .ok (.goOn ()) ⟨rest, reports⟩) := by
  refine followsAt_ifAtEnd nofun fun _ _ _ => (followsAt_previous hbody).before ?_
  by_cases hsemicolon : t.kind = .semicolon
  · rw [if_pos hsemicolon, if_pos (.inl hsemicolon)]
    exact followsAt_pure _ _
  · rw [if_neg hsemicolon]
    refine followsAt_ifCheck rfl (fun v _ hrest hstart => ?_) fun hstop => ?_
    · cases hrest
      rw [if_pos (.inr hstart)]
      exact followsAt_pure _ _
    · have hgoesOn : ¬(t.kind = .semicolon ∨ u.kind.startsStatement = true) :=
        not_or.2 ⟨hsemicolon, Bool.eq_false_iff.1 hstop⟩
      rw [if_neg hgoesOn]
      exact (followsAt_advance u rest reports).before (followsAt_pure _ _)

/-- A recovery loop ends as the parser takes up again from the token that was dropped last, or where it
stands if there was no token to drop. -/
def RecoveryEnds (input : Input) (_ : Unit) (s : Progress)
    (final : EStateM.Result Parser.Halt Progress Unit) : Prop :=
  s.rest = [] ∧ final = .ok () s ∨ ∃ front t, input.body = front ++ t :: s.rest ∧
    final = .ok () { s with rest := Parser.synchronize (t :: s.rest) }

theorem leads_recoveryTurn {front : List Token} {t u : Token} {rest : List Token}
    {reports : List Fault} (hbody : input.body = front ++ t :: u :: rest) :
    Leads .recovery (RecoveryEnds input) ⟨u :: rest, reports⟩
      (.ok () ⟨Parser.synchronize (t :: u :: rest), reports⟩)
      (if t.kind = .semicolon ∨ u.kind.startsStatement = true then .ok (.leave ()) ⟨u :: rest, reports⟩
      else .ok (.goOn ()) ⟨rest, reports⟩) := by
  have htest : (t.kind = .semicolon || Parser.atStatement (u :: rest)) = true ↔
      t.kind = .semicolon ∨ u.kind.startsStatement = true := by
    rw [Bool.or_eq_true, decide_eq_true_eq]
    rfl
  rw [Parser.synchronize]
  by_cases hstops : t.kind = .semicolon ∨ u.kind.startsStatement = true
  · rw [if_pos hstops, if_pos (htest.2 hstops)]
    exact ⟨rfl, .inr ⟨rfl, rfl⟩⟩
  · rw [if_neg hstops, if_neg fun htrue => hstops (htest.1 htrue)]
    exact ⟨Nat.lt_succ_self _, .inr ⟨front ++ [t], u, by simpa using hbody, rfl⟩⟩

theorem followsAt_recovery (hturns : input.body.length < turns) {s : Progress}
    {final : EStateM.Result Parser.Halt Progress Unit} (hends : RecoveryEnds input () s final) :
    input.FollowsAt (repeated .recovery (recoveryTurn input.tokens) turns ()) s final := by
  refine followsAt_repeated ?_ hturns hends
  rintro ⟨⟩ ⟨tokens, reports⟩ final hends
  cases tokens with
  | nil =>
    refine ⟨_, followsAt_recoveryTurn_nil reports, ?_⟩
    rcases hends with ⟨-, rfl⟩ | ⟨front, t, -, rfl⟩
    · exact rfl
    · simp [Leads, Parser.synchronize]
  | cons u rest =>
    obtain ⟨front, t, hbody, rfl⟩ := hends.resolve_left fun hnil => List.cons_ne_nil u rest hnil.1
    exact ⟨_, followsAt_recoveryTurn hbody, leads_recoveryTurn hbody⟩

theorem follows_synchronize (hturns : input.body.length < turns) :
    input.Follows (synchronize input.tokens turns)
      (fun s => .ok () { s with rest := Parser.synchronize s.rest }) := by
  rintro ⟨tokens, reports⟩
  cases tokens with
  | nil =>
    refine (followsAt_advance_nil reports).before ?_
    exact followsAt_recovery hturns (.inl ⟨rfl, rfl⟩)
  | cons t rest =>
    intro walk hstands
    have hrest : t :: rest = input.body.drop walk.position := hstands.rest
    have hbody : input.body = input.body.take walk.position ++ t :: rest := by
      rw [hrest, List.take_append_drop]
    refine (followsAt_advance t rest reports).before ?_ walk hstands
    exact followsAt_recovery hturns (.inr ⟨_, t, hbody, rfl⟩)

theorem Input.Follows.recovering (hturns : input.body.length < turns) {walker : Walker Node}
    {parser : StmtParser Node} (h : input.Follows walker parser) :
    input.Follows (recovering input.tokens turns walker) (Parser.recovering parser) := by
  intro s walk hstands
  have hfollows := h s
  rw [Cursor.recovering, Parser.recovering]
  cases hparser : parser s with
  | ok node s' =>
    rw [hparser] at hfollows
    obtain ⟨after, hrun, hafter⟩ := hfollows.ok hstands
    rw [hrun]
    exact ⟨rfl, hafter⟩
  | error halt s' =>
    rw [hparser] at hfollows
    obtain ⟨after, hrun, hafter⟩ := hfollows.error hstands
    rw [hrun]
    cases halt with
    | tooDeep => exact ⟨rfl, hafter⟩
    | fault fault =>
      refine (followsAt_report fault s').before ?_ after hafter
      exact (follows_synchronize hturns _).before (followsAt_pure none _)

/-! ## Skipping -/

theorem declarationLoop_of_stop {s : Progress}
    (hstop : s.rest = [] ∨ beginsWith (· = .rightBrace) s.rest = true) :
    Parser.declarationLoop limit s = .ok [] s := by
  obtain ⟨tokens, reports⟩ := s
  cases tokens with
  | nil => rfl
  | cons t rest =>
    have hkind : t.kind = .rightBrace := of_decide_eq_true (hstop.resolve_left nofun)
    rw [Parser.declarationLoop, List.length_cons, Parser.declarations_succ]
    simp only [List.head?_cons, Option.map_some, hkind]

end

end Lox.Cursor
