import Lox.Proofs.Run.Commuting
import Lox.Run.Transcript

/-!
# Tracing does not interfere

A message of the trace is written for the reader of a run and never read back by the run. So two
runs of the same program at different levels of the trace do the same to the scopes, print the same
and report the same errors, and the trace of the lower level is the trace of the higher one without
the messages above it.

A run at the lower level is compared with one at the higher level step by step: what the first one
does to a log without the messages above its level is what the second one does to the whole log,
with those messages taken out (`Sifts`). The kind of a message is told by its first words.
-/

namespace Lox

open Lox.Computation Lox.Action

/-! ## Kinds of messages -/

/-- The words that the messages of the trace begin with, and the level from which on each of them is
written. -/
def traceKinds : List (String × Nat) :=
  [("execute ", 1), ("runtime error ", 1), ("declare ", 2), ("assign ", 2), ("if condition ", 3),
    ("while condition ", 3), ("enter block at depth ", 3), ("leave block at depth ", 3),
    ("evaluate ", 4)]

/-- The level of a message, by the words that it begins with. -/
def messageLevel? (message : String) : Option Nat :=
  (traceKinds.find? fun kind => kind.1.toList.isPrefixOf message.toList).map Prod.snd

/-- Whether a message is of a kind that is written at a level of the trace. -/
def isWrittenAt (level : Nat) (message : String) : Bool :=
  (messageLevel? message).any (· ≤ level)

/-- No kind of message begins as another one does. -/
theorem messageLevel?_append {words : String} {level : Nat} (hkind : (words, level) ∈ traceKinds)
    (rest : String) : messageLevel? (words ++ rest) = some level := by
  simp only [traceKinds, List.mem_cons, List.not_mem_nil, or_false, Prod.mk.injEq] at hkind
  rw [messageLevel?, String.toList_append]
  rcases hkind with ⟨rfl, rfl⟩ | ⟨rfl, rfl⟩ | ⟨rfl, rfl⟩ | ⟨rfl, rfl⟩ | ⟨rfl, rfl⟩ | ⟨rfl, rfl⟩ |
    ⟨rfl, rfl⟩ | ⟨rfl, rfl⟩ | ⟨rfl, rfl⟩ <;> rfl

/-- Nothing is written at the lowest level. -/
theorem isWrittenAt_zero (message : String) : isWrittenAt 0 message = false := by
  have hpositive : ∀ kind ∈ traceKinds, kind.2 ≠ 0 := by simp [traceKinds]
  rw [isWrittenAt, messageLevel?, Option.any_map]
  cases hfind : traceKinds.find? _ with
  | none => rfl
  | some kind => simpa using hpositive kind (List.mem_of_find?_eq_some hfind)

theorem messageLevel?_execute (type : String) : messageLevel? ("execute " ++ type) = some 1 :=
  messageLevel?_append (by simp [traceKinds]) type

theorem messageLevel?_failed (description : String) :
    messageLevel? ("runtime error " ++ description) = some 1 :=
  messageLevel?_append (by simp [traceKinds]) description

theorem messageLevel?_declare (name type value : String) :
    messageLevel? ("declare " ++ name ++ ": " ++ type ++ " = " ++ value) = some 2 := by
  simp only [String.append_assoc]
  exact messageLevel?_append (by simp [traceKinds]) _

theorem messageLevel?_assign (name value : String) :
    messageLevel? ("assign " ++ name ++ " = " ++ value) = some 2 := by
  simp only [String.append_assoc]
  exact messageLevel?_append (by simp [traceKinds]) _

theorem messageLevel?_if (value truth : String) :
    messageLevel? ("if condition " ++ value ++ " -> " ++ truth) = some 3 := by
  simp only [String.append_assoc]
  exact messageLevel?_append (by simp [traceKinds]) _

theorem messageLevel?_while (value : String) :
    messageLevel? ("while condition " ++ value) = some 3 :=
  messageLevel?_append (by simp [traceKinds]) value

theorem messageLevel?_enter (depth : String) :
    messageLevel? ("enter block at depth " ++ depth) = some 3 :=
  messageLevel?_append (by simp [traceKinds]) depth

theorem messageLevel?_leave (depth : String) :
    messageLevel? ("leave block at depth " ++ depth) = some 3 :=
  messageLevel?_append (by simp [traceKinds]) depth

theorem messageLevel?_evaluate (type value : String) :
    messageLevel? ("evaluate " ++ type ++ " -> " ++ value) = some 4 := by
  simp only [String.append_assoc]
  exact messageLevel?_append (by simp [traceKinds]) _

/-! ## Logs without the messages above a level -/

/-- Whether an event is no message above a level. -/
def Event.isWithin (level : Nat) : Event → Bool
  | traced _ message => isWrittenAt level message
  | _ => true

/-- A machine with the messages above a level taken out of its log. -/
def Machine.upTo (level : Nat) (machine : Machine) : Machine :=
  { machine with log := machine.log.filter (Event.isWithin level) }

section Machine

variable {low high turns : Nat} (machine : Machine)

@[simp] theorem Machine.upTo_scopes : (machine.upTo low).scopes = machine.scopes := rfl

theorem Machine.upTo_note {event : Event} (hevent : event.isWithin low = true) :
    (machine.note event).upTo low = (machine.upTo low).note event := by
  simp [upTo, note, hevent]

theorem Machine.upTo_trace (hlevels : low ≤ high) {level : Nat} {message : String}
    (hmessage : messageLevel? message = some level) :
    (machine.trace ⟨high, turns⟩ level fun _ => message).upTo low =
      (machine.upTo low).trace ⟨low, turns⟩ level fun _ => message := by
  by_cases hlow : level ≤ low
  · have hevent : (Event.traced level message).isWithin low = true := by
      simpa [Event.isWithin, isWrittenAt, hmessage] using hlow
    rw [trace, trace, if_pos (Nat.le_trans hlow hlevels), if_pos hlow, upTo_note machine hevent]
  · -- a message above the lower level is taken out again if the higher one writes it
    have hevent : (Event.traced level message).isWithin low = false := by
      simpa [Event.isWithin, isWrittenAt, hmessage] using hlow
    rw [trace, trace, if_neg hlow]
    split
    · simp [upTo, note, hevent]
    · rfl

theorem Machine.upTo_fail (hlevels : low ≤ high) (error : RuntimeError) :
    (machine.fail ⟨high, turns⟩ error).upTo low = (machine.upTo low).fail ⟨low, turns⟩ error := by
  rw [fail, fail, upTo_note _ rfl, upTo_trace machine hlevels (messageLevel?_failed _)]

end Machine

/-! ## Actions at two levels -/

/-- What the first action does to a log without the messages above a level is what the second one
does to the whole log, with those messages taken out. -/
abbrev Sifts {α : Type} (level : Nat) (action action' : Action α) : Prop :=
  Commutes (Machine.upTo level) action action'

section Rules

variable {α : Type} {low high turns : Nat} {action action' : Action α}

theorem sifts_trace (hlevels : low ≤ high) {level : Nat} {message : String}
    (hmessage : messageLevel? message = some level) :
    Sifts low (trace ⟨low, turns⟩ level fun _ => message)
      (trace ⟨high, turns⟩ level fun _ => message) := by
  intro machine
  change EStateM.Result.ok () ((machine.upTo low).trace ⟨low, turns⟩ level fun _ => message) =
    .ok () ((machine.trace ⟨high, turns⟩ level fun _ => message).upTo low)
  rw [Machine.upTo_trace machine hlevels hmessage]

theorem sifts_printed (text : String) :
    Sifts low (modify (·.note (.printed text)) : Action Unit)
      (modify (·.note (.printed text))) := by
  intro machine
  change EStateM.Result.ok () ((machine.upTo low).note (.printed text)) =
    .ok () ((machine.note (.printed text)).upTo low)
  rw [Machine.upTo_note machine rfl]

theorem Sifts.traced (hlevels : low ≤ high) {node : Node} {evaluation evaluation' : Action Value}
    (hevaluation : Sifts low evaluation evaluation') :
    Sifts low (traced ⟨low, turns⟩ node evaluation) (traced ⟨high, turns⟩ node evaluation') := by
  refine hevaluation.bind fun value => ?_
  exact (sifts_trace hlevels (messageLevel?_evaluate _ _)).bind fun _ => commutes_pure value

theorem Sifts.inScope (haction : Sifts low action action') :
    Sifts low (inScope action) (inScope action') :=
  Commutes.inScope haction (fun _ => rfl) fun _ => rfl

/-! ## Names, operators and trees -/

theorem sifts_lookUp (node : Node) : Sifts low (lookUp node) (lookUp node) := by
  refine (commutes_nameIn node).bind fun (t, name) machine => ?_
  change ((get : Action Machine) >>= _) (machine.upTo low) =
    mapped (Machine.upTo low) (((get : Action Machine) >>= _) machine)
  rw [get_bind, get_bind, Machine.upTo_scopes]
  cases machine.scopes.get? name <;> rfl

theorem sifts_assign (hlevels : low ≤ high) (node : Node) (value : Value) :
    Sifts low (assign ⟨low, turns⟩ node value) (assign ⟨high, turns⟩ node value) := by
  refine (commutes_nameIn node).bind fun (t, name) machine => ?_
  change ((get : Action Machine) >>= _) (machine.upTo low) =
    mapped (Machine.upTo low) (((get : Action Machine) >>= _) machine)
  rw [get_bind, get_bind, Machine.upTo_scopes]
  cases machine.scopes.assign? name value with
  | none => rfl
  | some scopes =>
    exact sifts_trace hlevels (messageLevel?_assign _ _) { machine with scopes }

theorem sifts_declare (hlevels : low ≤ high) (node : Node) (value : Value) :
    Sifts low (declare ⟨low, turns⟩ node value) (declare ⟨high, turns⟩ node value) := by
  refine (commutes_nameIn node).bind fun (t, name) machine => ?_
  exact sifts_trace hlevels (messageLevel?_declare _ _ _)
    { machine with scopes := machine.scopes.define name value }

end Rules

section Trees

variable {low high turns : Nat} (hlevels : low ≤ high)
include hlevels

theorem sifts_evaluate (limit : Nat) (node : Node) :
    Sifts low (evaluate ⟨low, turns⟩ limit node) (evaluate ⟨high, turns⟩ limit node) := by
  induction limit generalizing node with
  | zero => exact commutes_throw .tooDeep
  | succ limit ih =>
    cases node with
    | literal value => exact Sifts.traced hlevels (commutes_pure value)
    | grouping inner => exact (ih inner).traced hlevels
    | varRef name => exact (sifts_lookUp name).traced hlevels
    | assign name value =>
      refine Sifts.traced hlevels ((ih value).bind fun value => ?_)
      exact (sifts_assign hlevels name value).bind fun _ => commutes_pure value
    | unary operator right =>
      refine Sifts.traced hlevels ((ih right).bind fun operand => ?_)
      exact (commutes_tokenIn "kind" operator).bind fun operator => commutes_ofExcept _
    | binary left operator right =>
      refine Sifts.traced hlevels ((ih left).bind fun left => (ih right).bind fun right => ?_)
      exact (commutes_tokenIn "kind" operator).bind fun operator => commutes_ofExcept _
    | _ => exact Sifts.traced hlevels (commutes_throw _)

theorem sifts_evaluateInitializer (limit : Nat) (node : Node) :
    Sifts low (evaluateInitializer ⟨low, turns⟩ limit node)
      (evaluateInitializer ⟨high, turns⟩ limit node) := by
  by_cases hnode : node = .absent
  · subst hnode
    exact commutes_pure Value.nil
  · rw [evaluateInitializer_of_ne_absent _ limit hnode,
      evaluateInitializer_of_ne_absent _ limit hnode]
    exact sifts_evaluate hlevels limit node

theorem sifts_execute (limit : Nat) (node : Node) :
    Sifts low (execute ⟨low, turns⟩ limit node) (execute ⟨high, turns⟩ limit node) := by
  induction limit generalizing node with
  | zero => exact commutes_throw .tooDeep
  | succ limit ih =>
    cases node with
    | exprStmt expression =>
      exact (sifts_evaluate hlevels limit expression).bind fun _ => commutes_pure ()
    | printStmt expression =>
      exact (sifts_evaluate hlevels limit expression).bind fun value => sifts_printed value.display
    | varDecl name initializer =>
      refine (sifts_evaluateInitializer hlevels limit initializer).bind fun value => ?_
      exact sifts_declare hlevels name value
    | block statements =>
      rw [execute_block, execute_block]
      refine Sifts.inScope fun machine => ?_
      rw [blockBody, blockBody, get_bind, get_bind]
      refine ((sifts_trace hlevels (messageLevel?_enter _)).bind fun _ => ?_) machine
      exact (commutes_forM fun node _ => ih node).bind fun _ => sifts_trace hlevels (messageLevel?_leave _)
    | ifStmt condition thenBranch elseBranch =>
      refine (sifts_evaluate hlevels limit condition).bind fun value => ?_
      refine (sifts_trace hlevels (messageLevel?_if _ _)).bind fun _ => ?_
      split
      · exact ih thenBranch
      · cases elseBranch with
        | absent => exact commutes_pure ()
        | _ => exact ih _
    | whileStmt condition body =>
      refine commutes_repeatWhile ?_ (ih body) turns
      refine (sifts_evaluate hlevels limit condition).bind fun value => ?_
      exact (sifts_trace hlevels (messageLevel?_while _)).bind fun _ => commutes_pure value.isTruthy
    | _ => exact commutes_throw _

/-- A whole run at the lower level is the run at the higher one with the messages above the lower
level taken out. -/
theorem interpret_upTo (limit : Nat) (statements : List Node) (machine : Machine) :
    interpret ⟨low, turns⟩ limit statements (machine.upTo low) =
      ((interpret ⟨high, turns⟩ limit statements machine).1,
        (interpret ⟨high, turns⟩ limit statements machine).2.upTo low) := by
  refine interpret_mapped (fun node _ => sifts_execute hlevels limit node) ?_ ?_ machine
  · exact fun node machine => (machine.upTo_trace hlevels (messageLevel?_execute node.typeName)).symm
  · exact fun error machine => (machine.upTo_fail hlevels error).symm

end Trees

/-! ## Two runs -/

/-- What happens while statements are run from some scopes on, in order. -/
def eventsAt (level turns limit : Nat) (statements : List Node) (scopes : Scopes) : List Event :=
  (interpret ⟨level, turns⟩ limit statements ⟨scopes, []⟩).2.log.reverse

def messagesOf (events : List Event) : List String :=
  events.filterMap Event.traced?

section Events

variable (level : Nat) (events : List Event)

theorem outputOf_within : outputOf (events.filter (Event.isWithin level)) = outputOf events := by
  rw [outputOf, outputOf, List.filterMap_filter]
  refine congrArg (fun pick => linesOf (List.filterMap pick events)) (funext fun event => ?_)
  cases event with
  | traced own message => exact ite_self none
  | _ => rfl

theorem reportsOf_within : reportsOf (events.filter (Event.isWithin level)) = reportsOf events := by
  rw [reportsOf, reportsOf, List.filterMap_filter]
  refine congrArg (List.filterMap · events) (funext fun event => ?_)
  cases event with
  | traced own message => exact ite_self none
  | _ => rfl

theorem messagesOf_within :
    messagesOf (events.filter (Event.isWithin level)) =
      (messagesOf events).filter (isWrittenAt level) := by
  rw [messagesOf, messagesOf, List.filterMap_filter, List.filter_filterMap]
  refine congrArg (List.filterMap · events) (funext fun event => ?_)
  cases event with
  | traced own message =>
    rw [Event.traced?, Option.filter_some]
    rfl
  | _ => rfl

end Events

section Runs

variable {low high : Nat} (hlevels : low ≤ high) (turns limit : Nat) (statements : List Node)
  (scopes : Scopes)
include hlevels

theorem interpret_level :
    interpret ⟨low, turns⟩ limit statements ⟨scopes, []⟩ =
      ((interpret ⟨high, turns⟩ limit statements ⟨scopes, []⟩).1,
        (interpret ⟨high, turns⟩ limit statements ⟨scopes, []⟩).2.upTo low) :=
  interpret_upTo hlevels limit statements ⟨scopes, []⟩

theorem eventsAt_level :
    eventsAt low turns limit statements scopes =
      (eventsAt high turns limit statements scopes).filter (Event.isWithin low) := by
  rw [eventsAt, interpret_level hlevels, eventsAt, List.filter_reverse]
  rfl

end Runs

/-- Take any statements, also trees that no parser built, any scopes to start from and any
bounds on the nesting and on the turns of loops. At two levels of the trace the runs end alike, also
where a loop is given up after the same number of turns, with the same scopes, the same output and
the same errors. The messages of the lower level are those of the higher one that are of a kind
written at the lower level, in their order, and at the lowest level there are none. -/
theorem tracing_does_not_interfere (statements : List Node) (scopes : Scopes)
    (limit turns low high : Nat) (hlevels : low ≤ high) :
    (interpret ⟨low, turns⟩ limit statements ⟨scopes, []⟩).1 =
      (interpret ⟨high, turns⟩ limit statements ⟨scopes, []⟩).1 ∧
    (interpret ⟨low, turns⟩ limit statements ⟨scopes, []⟩).2.scopes =
      (interpret ⟨high, turns⟩ limit statements ⟨scopes, []⟩).2.scopes ∧
    outputOf (eventsAt low turns limit statements scopes) =
      outputOf (eventsAt high turns limit statements scopes) ∧
    reportsOf (eventsAt low turns limit statements scopes) =
      reportsOf (eventsAt high turns limit statements scopes) ∧
    messagesOf (eventsAt low turns limit statements scopes) =
      (messagesOf (eventsAt high turns limit statements scopes)).filter (isWrittenAt low) ∧
    messagesOf (eventsAt 0 turns limit statements scopes) = [] := by
  have hrun := interpret_level hlevels turns limit statements scopes
  have hevents := eventsAt_level hlevels turns limit statements scopes
  refine ⟨?_, ?_, ?_, ?_, ?_, ?_⟩
  · rw [hrun]
  · rw [hrun, Machine.upTo_scopes]
  · rw [hevents, outputOf_within]
  · rw [hevents, reportsOf_within]
  · rw [hevents, messagesOf_within]
  · rw [eventsAt_level (Nat.zero_le high), messagesOf_within, List.filter_eq_nil_iff]
    intro message _
    simp [isWrittenAt_zero]

/-- The trees of `while (go) { go = !go; print -go; } print go;`. -/
def failingLoop : List Node :=
  let go : Node := .token ⟨.identifier, .str "go", .null, 1⟩
  let bang : Node := .token ⟨.bang, .str "!", .null, 1⟩
  let minus : Node := .token ⟨.minus, .str "-", .null, 1⟩
  [.whileStmt (.varRef go) (.block [.exprStmt (.assign go (.unary bang (.varRef go))),
    .printStmt (.unary minus (.varRef go))]), .printStmt (.varRef go)]

theorem tracing_does_not_interfere_failingLoop :
    2 ≤ 4 ∧
    messagesOf (eventsAt 2 9 9 failingLoop [[("go", .boolean true)]]) =
      (messagesOf (eventsAt 4 9 9 failingLoop [[("go", .boolean true)]])).filter (isWrittenAt 2) ∧
    messagesOf (eventsAt 2 9 9 failingLoop [[("go", .boolean true)]]) =
      ["execute WhileStmt", "assign go = false", "runtime error [line 1] TypeMismatch: Operand " ++
        "must be a number, got Boolean. (operator '-')", "execute PrintStmt"] := by
  have hmessages := (tracing_does_not_interfere failingLoop [[("go", .boolean true)]] 9 9 2 4
    (by decide)).2.2.2.2.1
  exact ⟨by decide, hmessages, by decide +kernel⟩

end Lox
