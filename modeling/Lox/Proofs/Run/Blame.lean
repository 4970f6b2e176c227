import Mathlib.Data.List.Flatten
import Lox.Proofs.Parser.Retained
import Lox.Proofs.Relocation.Run
import Lox.Proofs.Run.Runnable
import Lox.Proofs.Scan.Front

/-!
# What an error of a run is blamed on

An error can arise at four kinds of nodes, and it carries the token of the node where it arose: the
name of a variable that is read or assigned, or an operator. However deep in blocks and in whichever
turn of a loop this happens, nothing is reported before the error has left the statement of the
program that it arose in, and no other error arises in that statement. The next statement is then run
from where this one has left the machine.

The tokens that a tree stores are tokens of its source text, each in its own place there, and their
lines are those of these places. So each error tells the line of a place inside the statement that
it ended (`runtime_errors_blame_their_statement`).
-/

namespace Lox

open Lox.Computation Lox.Action

/-! ## Parts of a statement -/

/-- What is part of a child of a node is part of the node. -/
theorem Occurs.of_child {node child part : Node} {site : Site} (hchild : child ∈ node.children)
    (hpart : Occurs [child] site part) : ∃ site, Occurs [node] site part := by
  induction hpart with
  | @top part hmem =>
    obtain rfl := List.mem_singleton.1 hmem
    have htop : Occurs [node] [] node := .top List.mem_cons_self
    cases node with
    | block statements =>
      obtain ⟨before, after, hsplit⟩ := List.append_of_mem hchild
      change statements = _ at hsplit
      subst hsplit
      exact ⟨_, .inBlock htop⟩
    | _ => exact ⟨_, htop.under rfl hchild⟩
  | under _ hblock hmem ih =>
    obtain ⟨site, hsite⟩ := ih
    exact ⟨site, hsite.under hblock hmem⟩
  | inBlock _ ih =>
    obtain ⟨site, hsite⟩ := ih
    exact ⟨_, hsite.inBlock⟩

namespace Node

theorem storedAll_eq_flatMap (nodes : List Node) : storedAll nodes = nodes.flatMap storedTokens := by
  induction nodes with
  | nil => rfl
  | cons node rest ih => rw [storedAll, ih, List.flatMap_cons]

/-- A node that is no token stores the tokens of its children. -/
theorem storedAll_children {node : Node} (hnode : ∀ t, node ≠ token t) :
    storedAll node.children = node.storedTokens := by
  cases node with
  | token t => exact absurd rfl (hnode t)
  | _ => simp [children, storedAll, storedTokens]

theorem storedTokens_sublist_storedAll {node : Node} {nodes : List Node} (hmem : node ∈ nodes) :
    node.storedTokens.Sublist (storedAll nodes) := by
  rw [storedAll_eq_flatMap, List.flatMap_def]
  exact List.sublist_flatten_of_mem (List.mem_map_of_mem hmem)

theorem storedTokens_sublist_of_child {node child : Node} (hchild : child ∈ node.children) :
    child.storedTokens.Sublist node.storedTokens := by
  have hnode : ∀ t, node ≠ token t := by
    rintro t rfl
    cases hchild
  rw [← storedAll_children hnode]
  exact storedTokens_sublist_storedAll hchild

/-- A part of a program stores some of the tokens that the program stores, in their order. -/
theorem storedTokens_sublist_of_occurs {program : List Node} {part : Node} {site : Site}
    (hpart : Occurs program site part) : part.storedTokens.Sublist (storedAll program) := by
  induction hpart with
  | top hmem => exact storedTokens_sublist_storedAll hmem
  | under _ _ hchild ih => exact (storedTokens_sublist_of_child hchild).trans ih
  | inBlock _ ih =>
    apply List.Sublist.trans (storedTokens_sublist_of_child _) ih
    exact List.mem_append_right _ List.mem_cons_self

end Node

/-! ## Where errors arise -/

/-- An error arises in a node: at a name that is read or assigned there, or at an operator. -/
inductive ArisesIn (node : Node) : RuntimeError → Prop where
  | read {t : Token} {site : Site} (hpart : Occurs [node] site (.varRef (.token t))) :
    ArisesIn node (.undefinedVariable t)
  | assigned {t : Token} {value : Node} {site : Site}
    (hpart : Occurs [node] site (.assign (.token t) value)) :
    ArisesIn node (.undefinedVariable t)
  | unary {operator : Token} {right : Node} {site : Site} (mismatch : Mismatch)
    (hpart : Occurs [node] site (.unary (.token operator) right)) :
    ArisesIn node (.typeMismatch operator mismatch)
  | binary {left right : Node} {operator : Token} {site : Site} (mismatch : Mismatch)
    (hpart : Occurs [node] site (.binary left (.token operator) right)) :
    ArisesIn node (.typeMismatch operator mismatch)
  | division {left right : Node} {operator : Token} {site : Site}
    (hpart : Occurs [node] site (.binary left (.token operator) right))
    (hslash : operator.kind = .slash) :
    ArisesIn node (.divisionByZero operator)

/-- An error is blamed on a statement: it arises in there, or the statement nests too deeply. -/
inductive RuntimeError.BlamedOn (statement : Node) : RuntimeError → Prop where
  | arises {error : RuntimeError} (harises : ArisesIn statement error) : BlamedOn statement error
  | nesting : BlamedOn statement (.nestingTooDeep statement.line)

def RuntimeError.token? : RuntimeError → Option Token
  | undefinedVariable t | typeMismatch t _ | divisionByZero t => some t
  | nestingTooDeep _ => none

section Arises

variable {node child : Node} {error : RuntimeError}

theorem ArisesIn.of_child (hchild : child ∈ node.children) (h : ArisesIn child error) :
    ArisesIn node error := by
  cases h with
  | read hpart => exact (Occurs.of_child hchild hpart).elim fun _ => .read
  | assigned hpart => exact (Occurs.of_child hchild hpart).elim fun _ => .assigned
  | unary mismatch hpart => exact (Occurs.of_child hchild hpart).elim fun _ => .unary mismatch
  | binary mismatch hpart => exact (Occurs.of_child hchild hpart).elim fun _ => .binary mismatch
  | division hpart hslash =>
    exact (Occurs.of_child hchild hpart).elim fun _ hpart => .division hpart hslash

/-- The token of an error that arises in a node is stored there. -/
theorem ArisesIn.mem_storedTokens (h : ArisesIn node error) {t : Token}
    (ht : error.token? = some t) : t ∈ node.storedTokens := by
  cases h with
  | read hpart | assigned hpart | unary _ hpart | binary _ hpart | division hpart _ =>
    cases ht
    have hsublist := Node.storedTokens_sublist_of_occurs hpart
    rw [Node.storedAll, Node.storedAll, List.append_nil] at hsublist
    apply hsublist.subset
    simp [Node.storedTokens]

theorem RuntimeError.line_of_token? {t : Token} (ht : error.token? = some t) :
    error.line = t.line := by
  cases error with
  | nestingTooDeep line => cases ht
  | _ =>
    cases ht
    rfl

theorem RuntimeError.BlamedOn.mem_storedTokens (h : error.BlamedOn node) {t : Token}
    (ht : error.token? = some t) : t ∈ node.storedTokens := by
  cases h with
  | arises harises => exact harises.mem_storedTokens ht
  | nesting => cases ht

end Arises

/-! ## Reports -/

def Machine.reports (machine : Machine) : List Diagnostic :=
  reportsOf machine.log.reverse

section Reports

variable {m m' : Machine}

theorem Machine.reports_eq (hshown : shown m'.log = shown m.log) : m'.reports = m.reports := by
  rw [reports, reports, ← reportsOf_shown, shown_reverse, hshown, ← shown_reverse, reportsOf_shown]

@[simp] theorem Machine.reports_trace (setting : Setting) (level : Nat) (message : Unit → String)
    (m : Machine) : (m.trace setting level message).reports = m.reports :=
  reports_eq (shown_trace setting level message m)

theorem Machine.reports_printed (text : String) (m : Machine) :
    (m.note (.printed text)).reports = m.reports := by
  rw [reports, note, List.reverse_cons, reportsOf_append]
  exact List.append_nil _

theorem Machine.reports_fail (setting : Setting) (error : RuntimeError) (m : Machine) :
    (m.fail setting error).reports = m.reports ++ [.runtime error] := by
  rw [reports, ← reportsOf_shown, shown_reverse, shown_fail, List.reverse_cons, reportsOf_append,
    ← shown_reverse, reportsOf_shown]
  rfl

end Reports

/-! ## Actions that report nothing -/

/-- An action reports nothing, and the errors that it stops with are of a certain kind. -/
def Raises (errors : RuntimeError → Prop) {α : Type} (action : Action α) : Prop :=
  ∀ reports, Triple (·.reports = reports) action (fun _ m => m.reports = reports) fun halt m =>
    m.reports = reports ∧ ∀ error, halt = .error error → errors error

section Raises

variable {α β : Type} {errors : RuntimeError → Prop} {setting : Setting}

theorem Raises.bind {action : Action α} {next : α → Action β} (haction : Raises errors action)
    (hnext : ∀ a, Raises errors (next a)) : Raises errors (action >>= next) :=
  fun reports => Triple.bind (haction reports) fun a => hnext a reports

theorem Raises.mono {action : Action α} {kept : RuntimeError → Prop}
    (haction : Raises errors action) (himp : ∀ error, errors error → kept error) :
    Raises kept action :=
  fun reports => (haction reports).mono (fun _ h => h) (fun _ _ h => h)
    fun _ _ h => ⟨h.1, fun error hhalt => himp error (h.2 error hhalt)⟩

theorem raises_pure (a : α) : Raises errors (pure a : Action α) :=
  fun _ _ hm => hm

theorem raises_throw {halt : Halt} (hhalt : ∀ error, halt = .error error → errors error) :
    Raises errors (throw halt : Action α) :=
  fun _ _ hm => ⟨hm, hhalt⟩

theorem raises_trace (level : Nat) (message : Unit → String) :
    Raises errors (trace setting level message) :=
  fun _ m hm => (m.reports_trace setting level message).trans hm

theorem raises_printed (text : String) :
    Raises errors (modify (·.note (.printed text)) : Action Unit) :=
  fun _ m hm => (m.reports_printed text).trans hm

theorem Raises.traced {node : Node} {evaluation : Action Value}
    (hevaluation : Raises errors evaluation) : Raises errors (traced setting node evaluation) :=
  hevaluation.bind fun value => (raises_trace _ _).bind fun _ => raises_pure value

theorem raises_ofExcept {answer : Except RuntimeError α}
    (hanswer : ∀ error, answer = .error error → errors error) : Raises errors (ofExcept answer) := by
  cases answer with
  | ok value => exact raises_pure value
  | error error =>
    refine raises_throw ?_
    rintro _ ⟨⟩
    exact hanswer error rfl

theorem raises_fault (fault : TreeFault) : Raises errors (throw (.fault fault) : Action α) :=
  raises_throw fun _ h => nomatch h

theorem raises_fault_bind (fault : TreeFault) (next : α → Action β) :
    Raises errors ((throw (.fault fault) : Action α) >>= next) := by
  intro reports m hm
  have hthrow : (throw (.fault fault) : Action α) m = .error (.fault fault) m := rfl
  rw [bind_of_error hthrow]
  exact ⟨hm, fun _ h => nomatch h⟩

theorem tokenIn_eq_throw {node : Node} {part : String} (hnode : node.isToken = false) :
    tokenIn part node = throw (.fault (.noAttribute node.typeName part)) := by
  cases node with
  | token t => cases hnode
  | _ => rfl

/-- Where a token is needed, only a token goes on. -/
theorem raises_tokenIn_bind {node : Node} {part : String} {next : Token → Action β}
    (hnext : ∀ t, node = .token t → Raises errors (next t)) :
    Raises errors (tokenIn part node >>= next) := by
  cases hnode : node.isToken with
  | true =>
    obtain ⟨t, rfl⟩ := Node.exists_of_isToken hnode
    exact hnext t rfl
  | false =>
    rw [tokenIn_eq_throw hnode]
    exact raises_fault_bind _ _

theorem raises_nameIn_bind {node : Node} {next : Token × Name → Action β}
    (hnext : ∀ t name, node = .token t → Raises errors (next (t, name))) :
    Raises errors (nameIn node >>= next) := by
  rw [nameIn, bind_assoc]
  refine raises_tokenIn_bind fun t ht => ?_
  cases Name.ofJson? t.lexeme with
  | some name => exact hnext t name ht
  | none => exact raises_fault_bind _ _

/-- A name that is not bound is blamed. -/
theorem raises_lookUp {node : Node}
    (hblamed : ∀ t, node = .token t → errors (.undefinedVariable t)) :
    Raises errors (lookUp node) := by
  refine raises_nameIn_bind fun t name ht reports m hm => ?_
  change Ends _ _ (((get : Action Machine) >>= _) m)
  rw [get_bind]
  cases m.scopes.get? name with
  | some value => exact hm
  | none =>
    refine ⟨hm, ?_⟩
    rintro _ ⟨⟩
    exact hblamed t ht

theorem raises_assign {node : Node}
    (hblamed : ∀ t, node = .token t → errors (.undefinedVariable t)) (value : Value) :
    Raises errors (assign setting node value) := by
  refine raises_nameIn_bind fun t name ht reports m hm => ?_
  change Ends _ _ (((get : Action Machine) >>= _) m)
  rw [get_bind]
  cases m.scopes.assign? name value with
  | some scopes => exact (Machine.reports_trace ..).trans hm
  | none =>
    refine ⟨hm, ?_⟩
    rintro _ ⟨⟩
    exact hblamed t ht

theorem raises_declare (node : Node) (value : Value) :
    Raises errors (declare setting node value) :=
  raises_nameIn_bind fun _ _ _ _ _ hm => (Machine.reports_trace ..).trans hm

theorem Raises.inScope {action : Action α} (haction : Raises errors action) :
    Raises errors (inScope action) := by
  intro reports m hm
  have hend := haction reports { m with scopes := [] :: m.scopes } hm
  rw [Action.inScope]
  cases hrun : action { m with scopes := [] :: m.scopes } with
  | ok a after =>
    rw [hrun] at hend
    exact hend
  | error halt after =>
    rw [hrun] at hend
    exact hend

theorem raises_forM {run : Node → Action Unit} {statements : List Node}
    (hrun : ∀ node ∈ statements, Raises errors (run node)) :
    Raises errors (statements.forM run) := by
  induction statements with
  | nil => exact raises_pure ()
  | cons node rest ih =>
    obtain ⟨hnode, hrest⟩ := List.forall_mem_cons.1 hrun
    rw [List.forM_eq_forM, List.forM_cons]
    exact hnode.bind fun _ => ih hrest

theorem raises_repeatWhile {condition : Action Bool} {body : Action Unit}
    (hcondition : Raises errors condition) (hbody : Raises errors body) (turns : Nat) :
    Raises errors (repeatWhile condition body turns) := by
  induction turns with
  | zero => exact raises_throw fun _ h => nomatch h
  | succ turns ih =>
    refine hcondition.bind fun holds => ?_
    cases holds with
    | true => exact hbody.bind fun _ => ih
    | false => exact raises_pure ()

end Raises

/-! ## Operators -/

section Operators

/-- A mismatch as operators find it: what it tells of operands are the names of their kinds. -/
inductive Mismatch.Found : Mismatch → Prop where
  | notAddable : Found .notAddable
  | operand (value : Value) : Found (.operand value.typeName)
  | operands (left right : Value) : Found (.operands left.typeName right.typeName)
  | unknownUnary : Found .unknownUnary
  | unknownBinary : Found .unknownBinary

variable {operator : Token} {error : RuntimeError}

theorem applyUnary_blames {operand : Value} (h : applyUnary operator operand = .error error) :
    ∃ mismatch : Mismatch, mismatch.Found ∧ error = .typeMismatch operator mismatch := by
  unfold applyUnary at h
  split at h
  · split at h <;> cases h
    exact ⟨_, .operand operand, rfl⟩
  · cases h
  · cases h
    exact ⟨_, .unknownUnary, rfl⟩

theorem applyPlus_blames {left right : Value} (h : applyPlus operator left right = .error error) :
    error = .typeMismatch operator .notAddable := by
  unfold applyPlus at h
  split at h <;> cases h
  rfl

theorem applyArithmetic_blames {x y : Float}
    (h : applyArithmetic operator x y = .error error) :
    error = .typeMismatch operator .unknownBinary ∨
      error = .divisionByZero operator ∧ operator.kind = .slash := by
  unfold applyArithmetic at h
  split at h
  case h_3 hkind =>
    split at h <;> cases h
    exact .inr ⟨rfl, hkind⟩
  case h_8 =>
    cases h
    exact .inl rfl
  all_goals cases h

/-- A binary operator complains about its operands, or it is a division by zero. -/
theorem applyBinary_blames {left right : Value}
    (h : applyBinary operator left right = .error error) :
    (∃ mismatch : Mismatch, mismatch.Found ∧ error = .typeMismatch operator mismatch) ∨
      error = .divisionByZero operator ∧ operator.kind = .slash := by
  unfold applyBinary at h
  split at h
  · exact .inl ⟨_, .notAddable, applyPlus_blames h⟩
  · cases h
  · cases h
  · split at h
    · exact (applyArithmetic_blames h).imp_left fun herror => ⟨_, .unknownBinary, herror⟩
    · cases h
      exact .inl ⟨_, .operands left right, rfl⟩

end Operators

/-! ## Statements -/

/-- Errors told for each node: those of its children are among its own, and so is each error that can
arise in the node itself. -/
structure Attributes (errors : Node → RuntimeError → Prop) : Prop where
  child : ∀ {node child : Node} {error : RuntimeError}, child ∈ node.children →
    errors child error → errors node error
  read : ∀ t, errors (.varRef (.token t)) (.undefinedVariable t)
  assigned : ∀ t value, errors (.assign (.token t) value) (.undefinedVariable t)
  unary : ∀ {operator : Token} {operand : Value} {error : RuntimeError} (right : Node),
    applyUnary operator operand = .error error → errors (.unary (.token operator) right) error
  binary : ∀ {operator : Token} {leftValue rightValue : Value} {error : RuntimeError}
    (left right : Node), applyBinary operator leftValue rightValue = .error error →
      errors (.binary left (.token operator) right) error

namespace Attributes

variable {errors : Node → RuntimeError → Prop} (h : Attributes errors) (setting : Setting)
  (limit : Nat)

include h

/-- The errors that stop an expression are told for it. -/
theorem raises_evaluate (node : Node) : Raises (errors node) (evaluate setting limit node) := by
  induction limit generalizing node with
  | zero => exact raises_throw fun _ h => nomatch h
  | succ limit ih =>
    have hchild {child : Node} (hchild : child ∈ node.children) :
        Raises (errors node) (evaluate setting limit child) :=
      (ih child).mono fun _ => h.child hchild
    cases node with
    | literal value => exact (raises_pure value).traced
    | grouping inner =>
      rw [evaluate_grouping]
      exact (hchild (by simp [Node.children])).traced
    | varRef name =>
      rw [evaluate_varRef]
      refine (raises_lookUp ?_).traced
      rintro t rfl
      exact h.read t
    | assign name value =>
      rw [evaluate_assign]
      refine ((hchild (by simp [Node.children])).bind fun result => ?_).traced
      refine (raises_assign ?_ result).bind fun _ => raises_pure result
      rintro t rfl
      exact h.assigned t value
    | unary operator right =>
      rw [evaluate_unary]
      refine ((hchild (by simp [Node.children])).bind fun operand => ?_).traced
      refine raises_tokenIn_bind ?_
      rintro t rfl
      exact raises_ofExcept fun error herror => h.unary right herror
    | binary left operator right =>
      rw [evaluate_binary]
      refine ((hchild (by simp [Node.children])).bind fun leftValue => ?_).traced
      refine (hchild (by simp [Node.children])).bind fun rightValue => raises_tokenIn_bind ?_
      rintro t rfl
      exact raises_ofExcept fun error herror => h.binary left right herror
    | _ => exact (raises_fault _).traced

theorem raises_evaluateInitializer (node : Node) :
    Raises (errors node) (evaluateInitializer setting limit node) := by
  by_cases hnode : node = .absent
  · subst hnode
    exact raises_pure Value.nil
  · rw [evaluateInitializer_of_ne_absent setting limit hnode]
    exact h.raises_evaluate setting limit node

/-- The errors that stop a statement are told for it, and it reports none of them itself. -/
theorem raises_execute (node : Node) : Raises (errors node) (execute setting limit node) := by
  induction limit generalizing node with
  | zero => exact raises_throw fun _ h => nomatch h
  | succ limit ih =>
    have hvalue {child : Node} (hchild : child ∈ node.children) :
        Raises (errors node) (evaluate setting limit child) :=
      (h.raises_evaluate setting limit child).mono fun _ => h.child hchild
    have hclause {child : Node} (hchild : child ∈ node.children) :
        Raises (errors node) (execute setting limit child) :=
      (ih child).mono fun _ => h.child hchild
    cases node with
    | exprStmt expression =>
      rw [execute_exprStmt]
      exact (hvalue (by simp [Node.children])).bind fun _ => raises_pure ()
    | printStmt expression =>
      rw [execute_printStmt]
      exact (hvalue (by simp [Node.children])).bind fun value => raises_printed value.display
    | varDecl name initializer =>
      rw [execute_varDecl]
      refine Raises.bind ?_ fun value => raises_declare name value
      exact (h.raises_evaluateInitializer setting limit initializer).mono fun _ =>
        h.child (by simp [Node.children])
    | block statements =>
      rw [execute_block, blockBody]
      refine Raises.inScope fun reports m hm => ?_
      rw [get_bind]
      refine ((raises_trace _ _).bind fun _ => ?_) reports m hm
      exact (raises_forM fun node hmem => hclause hmem).bind fun _ => raises_trace _ _
    | ifStmt condition thenBranch elseBranch =>
      refine (hvalue (by simp [Node.children])).bind fun value => ?_
      refine (raises_trace _ _).bind fun _ => ?_
      split
      · exact hclause (by simp [Node.children])
      · split
        · exact raises_pure ()
        · exact hclause (by simp [Node.children])
    | whileStmt condition body =>
      rw [execute_whileStmt]
      refine raises_repeatWhile ?_ (hclause (by simp [Node.children])) setting.turns
      refine (hvalue (by simp [Node.children])).bind fun value => ?_
      exact (raises_trace _ _).bind fun _ => raises_pure value.isTruthy
    | _ => exact raises_fault _

/-- A statement of a program reports at most one error: one that is told for it, or that it nests too
deeply. If it keeps the run from going on it reports none. -/
theorem reports_topStatement (node : Node) (machine : Machine) :
    ∃ cause : Option RuntimeError,
      (topStatement setting limit node machine).1.reports =
        machine.reports ++ cause.toList.map .runtime ∧
      ((topStatement setting limit node machine).2 ≠ none → cause = none) ∧
      ∀ error, cause = some error → errors node error ∨ error = .nestingTooDeep node.line := by
  have hstarted : (machine.trace setting 1 fun _ => "execute " ++ node.typeName).reports =
      machine.reports := Machine.reports_trace ..
  have hraises := h.raises_execute setting limit node machine.reports _ hstarted
  rw [topStatement]
  cases hrun : execute setting limit node _ with
  | ok _ after =>
    rw [hrun] at hraises
    have hreports : after.reports = machine.reports := hraises
    refine ⟨none, hreports.trans (List.append_nil _).symm, fun _ => rfl, fun _ heq => ?_⟩
    cases heq
  | error halt after =>
    rw [hrun] at hraises
    obtain ⟨hreports, herrors⟩ := hraises
    cases halt with
    | error error =>
      refine ⟨some error, ?_, fun hends => absurd rfl hends, ?_⟩
      · rw [Machine.reports_fail, hreports]
        rfl
      · rintro _ ⟨⟩
        exact .inl (herrors error rfl)
    | tooDeep =>
      refine ⟨some (.nestingTooDeep node.line), ?_, fun hends => absurd rfl hends, ?_⟩
      · rw [Machine.reports_fail, hreports]
        rfl
      · rintro _ ⟨⟩
        exact .inr rfl
    | fault fault =>
      refine ⟨none, hreports.trans (List.append_nil _).symm, fun _ => rfl, fun _ heq => ?_⟩
      cases heq
    | outOfTurns =>
      refine ⟨none, hreports.trans (List.append_nil _).symm, fun _ => rfl, fun _ heq => ?_⟩
      cases heq

/-- A run reports errors that are told for its statements, or that one of them nests too deeply. -/
theorem reports_interpret (statements : List Node) (machine : Machine) :
    ∃ causes : List RuntimeError,
      (interpret setting limit statements machine).2.reports =
        machine.reports ++ causes.map .runtime ∧
      ∀ error ∈ causes, ∃ node ∈ statements, errors node error ∨ error = .nestingTooDeep node.line := by
  induction statements generalizing machine with
  | nil => exact ⟨[], (List.append_nil _).symm, List.forall_mem_nil _⟩
  | cons node rest ih =>
    obtain ⟨cause, hreports, -, hcause⟩ := h.reports_topStatement setting limit node machine
    have hown : ∀ error ∈ cause.toList, ∃ told ∈ node :: rest,
        errors told error ∨ error = .nestingTooDeep told.line := fun error herror =>
      ⟨node, List.mem_cons_self, hcause error (Option.mem_toList.1 herror)⟩
    rw [interpret]
    generalize topStatement setting limit node machine = step at hreports
    obtain ⟨after, ending⟩ := step
    cases ending with
    | some ending => exact ⟨cause.toList, hreports, hown⟩
    | none =>
      obtain ⟨causes, hafter, hothers⟩ := ih after
      refine ⟨cause.toList ++ causes, ?_, List.forall_mem_append.2 ⟨hown, fun error herror => ?_⟩⟩
      · rw [List.map_append, ← List.append_assoc, ← hreports]
        exact hafter
      · obtain ⟨told, hmem, htold⟩ := hothers error herror
        exact ⟨told, List.mem_cons_of_mem node hmem, htold⟩

end Attributes

theorem attributes_arisesIn : Attributes ArisesIn where
  child := ArisesIn.of_child
  read _ := .read (.top List.mem_cons_self)
  assigned _ _ := .assigned (.top List.mem_cons_self)
  unary _ herror := by
    obtain ⟨mismatch, -, rfl⟩ := applyUnary_blames herror
    exact .unary mismatch (.top List.mem_cons_self)
  binary _ _ herror := by
    rcases applyBinary_blames herror with ⟨mismatch, -, rfl⟩ | ⟨rfl, hslash⟩
    · exact .binary mismatch (.top List.mem_cons_self)
    · exact .division (.top List.mem_cons_self) hslash

/-! ## Runs -/

/-- What a statement of a program contributes to a run: the error that ended it, if one did. The
tokens that the statement stores are told with their places in the source text. -/
structure Contribution where
  node : Node
  places : List (Nat × Token)
  cause : Option RuntimeError

def Contribution.spot (contribution : Contribution) : Node × List (Nat × Token) :=
  (contribution.node, contribution.places)

/-- An account of a run. Each statement is run from where the one before it left the machine, whether
that one failed or not, and adds to the reports the error that ended it and nothing else. Only a loop
that takes too many turns keeps a run from the statements after it. -/
inductive Account (setting : Setting) (limit : Nat) :
    Machine → List Node → List Contribution → Ending → Machine → Prop where
  | done (machine : Machine) : Account setting limit machine [] [] .finished machine
  | step {machine after last : Machine} {node : Node} {rest : List Node}
    {places : List (Nat × Token)} {cause : Option RuntimeError}
    {contributions : List Contribution} {ending : Ending}
    (hstep : topStatement setting limit node machine = (after, none))
    (hreports : after.reports = machine.reports ++ cause.toList.map .runtime)
    (hrest : Account setting limit after rest contributions ending last) :
    Account setting limit machine (node :: rest) (⟨node, places, cause⟩ :: contributions) ending last
  | stuck {machine after : Machine} {node : Node} {rest : List Node}
    (hstep : topStatement setting limit node machine = (after, some .unfinished))
    (hreports : after.reports = machine.reports) :
    Account setting limit machine (node :: rest) [] .unfinished after

section Runs

variable {setting : Setting} {limit : Nat} {machine last : Machine} {statements : List Node}
  {contributions : List Contribution} {ending : Ending}

/-- A run reports what its statements contribute, in their order. -/
theorem Account.reports (h : Account setting limit machine statements contributions ending last) :
    last.reports =
      machine.reports ++ (contributions.filterMap Contribution.cause).map .runtime := by
  induction h with
  | done machine => exact (List.append_nil _).symm
  | stuck _ hreports => exact hreports.trans (List.append_nil _).symm
  | @step _ _ _ _ _ _ cause _ _ _ hreports _ ih =>
    rw [ih, hreports, List.append_assoc]
    cases cause <;> rfl

/-- A run that comes to its end tells of each statement. -/
theorem Account.nodes (h : Account setting limit machine statements contributions ending last)
    (hending : ending = .finished) : contributions.map Contribution.node = statements := by
  induction h with
  | done machine => rfl
  | stuck => cases hending
  | step _ _ _ ih => rw [List.map_cons, ih hending]

/-- Only a loop that takes too many turns keeps a run from going on behind a statement. -/
theorem topStatement_faultless {node : Node} (hnode : node.isExecutable = true) (machine : Machine) :
    (topStatement setting limit node machine).2 = none ∨
      (topStatement setting limit node machine).2 = some .unfinished := by
  have hfaultless := faultless_execute setting limit hnode
    (machine.trace setting 1 fun _ => "execute " ++ node.typeName) trivial
  rw [topStatement]
  cases hrun : execute setting limit node _ with
  | ok _ after => exact .inl rfl
  | error halt after =>
    rw [hrun] at hfaultless
    cases halt with
    | error error => exact .inl rfl
    | tooDeep => exact .inl rfl
    | fault fault => exact absurd rfl (hfaultless fault)
    | outOfTurns => exact .inr rfl

/-- A statement reports at most the one error that ended it, which is blamed on it. -/
theorem topStatement_contributes {node : Node} (hnode : node.isExecutable = true)
    (machine : Machine) :
    (∃ after cause, topStatement setting limit node machine = (after, none) ∧
      after.reports = machine.reports ++ cause.toList.map .runtime ∧
      ∀ error, cause = some error → error.BlamedOn node) ∨
    ∃ after, topStatement setting limit node machine = (after, some .unfinished) ∧
      after.reports = machine.reports := by
  obtain ⟨cause, hreports, hends, hcause⟩ :=
    attributes_arisesIn.reports_topStatement setting limit node machine
  have hfaultless := @topStatement_faultless setting limit _ hnode machine
  generalize topStatement setting limit node machine = step at hreports hends hfaultless
  obtain ⟨after, ending⟩ := step
  rcases hfaultless with rfl | rfl
  · refine .inl ⟨after, cause, rfl, hreports, fun error herror => ?_⟩
    rcases hcause error herror with harises | rfl
    · exact .arises harises
    · exact .nesting
  · obtain rfl := hends nofun
    exact .inr ⟨after, rfl, hreports.trans (List.append_nil _)⟩

/-- There is an account of every run of statements that can be executed. -/
theorem exists_account (spots : List (Node × List (Nat × Token)))
    (hspots : ∀ spot ∈ spots, spot.1.isExecutable = true) (machine : Machine) :
    ∃ contributions : List Contribution,
      Account setting limit machine (spots.map Prod.fst) contributions
        (interpret setting limit (spots.map Prod.fst) machine).1
        (interpret setting limit (spots.map Prod.fst) machine).2 ∧
      contributions.map Contribution.spot <+: spots ∧
      ∀ contribution ∈ contributions, ∀ error, contribution.cause = some error →
        error.BlamedOn contribution.node := by
  induction spots generalizing machine with
  | nil => exact ⟨[], .done machine, List.nil_prefix, List.forall_mem_nil _⟩
  | cons spot rest ih =>
    obtain ⟨hnode, hrest⟩ := List.forall_mem_cons.1 hspots
    rw [List.map_cons, interpret]
    rcases @topStatement_contributes setting limit _ hnode machine with
      ⟨after, cause, hstep, hreports, hblamed⟩ | ⟨after, hstep, hreports⟩
    · rw [hstep]
      obtain ⟨contributions, haccount, hfront, hothers⟩ := ih hrest after
      refine ⟨⟨spot.1, spot.2, cause⟩ :: contributions, .step hstep hreports haccount, ?_, ?_⟩
      · exact List.cons_prefix_cons.2 ⟨rfl, hfront⟩
      · exact List.forall_mem_cons.2 ⟨hblamed, hothers⟩
    · rw [hstep]
      exact ⟨[], .stuck hstep hreports, List.nil_prefix, List.forall_mem_nil _⟩

end Runs

/-! ## Places in a source text -/

def Token.StandsAt (t : Token) (cs : List Char) (offset : Nat) : Prop :=
  ∃ text, t.lexeme = .str (String.ofList text) ∧ text <+: cs.drop offset

/-- A token in its place stands there, on the line of this place. -/
theorem Piece.of_mem_located {cs : List Char} {offset : Nat} {t : Token}
    (hmem : (offset, t) ∈ located [] (pieces cs)) :
    t.StandsAt cs offset ∧ t.line = 1 + (cs.take offset).count '\n' := by
  obtain ⟨⟨before, piece⟩, hentry, hpick⟩ := List.mem_filterMap.1 hmem
  obtain ⟨after, hafter⟩ := text_of_mem_placed hentry
  rw [List.nil_append, text_pieces] at hafter
  cases piece with
  | lexeme kind text =>
    cases hpick
    subst hafter
    refine ⟨⟨text, rfl, ?_⟩, ?_⟩
    · rw [List.drop_left]
      exact List.prefix_append text after
    · rw [List.take_left]
      rfl
  | _ => cases hpick

/-- The tokens that signs store are some of those that they stand for, in their order. -/
theorem filterMap_token?_sublist {signs : List Sign} {tokens : List Token}
    (hsigns : List.SublistForall₂ Sign.Marks signs tokens) :
    (signs.filterMap Sign.token?).Sublist tokens := by
  obtain ⟨kept, hkept, hsublist⟩ := List.sublistForall₂_iff.1 hsigns
  refine List.Sublist.trans ?_ hsublist
  clear hsigns hsublist
  induction hkept with
  | nil => exact .slnil
  | cons hmark _ ih =>
    cases hmark with
    | token => exact ih.cons_cons _
    | kind | literal | truth | falsity | nil => exact ih.cons _

/-- The statements of a source text store some of its tokens, in their order. -/
theorem storedAll_sublist_sourceTokens (source : String) (limit : Nat) :
    (Node.storedAll (parse limit (scan source).tokens).statements).Sublist (sourceTokens source) := by
  have hsigns : List.SublistForall₂ Sign.Marks
      (Node.signsAll (parse limit (scan source).tokens).statements) (sourceTokens source) := by
    rw [parse, beforeEnd_fst, takeWhile_scan_tokens]
    exact Parser.topLevel_retains limit _ ⟨sourceTokens source, []⟩
  rw [← Node.filterMap_signsAll]
  exact filterMap_token?_sublist hsigns

/-- The tokens of the statements of a source text have places there, from the left to the right. -/
theorem exists_places (source : String) (limit : Nat) :
    ∃ places : List (Nat × Token),
      places.Sublist (Piece.located [] (Piece.pieces source.toList)) ∧
      places.map Prod.snd = Node.storedAll (parse limit (scan source).tokens).statements := by
  have hsublist := storedAll_sublist_sourceTokens source limit
  rw [sourceTokens, ← Piece.located_map_snd, List.sublist_map_iff] at hsublist
  obtain ⟨places, hplaces, htokens⟩ := hsublist
  exact ⟨places, hplaces, htokens.symm⟩

/-- The places of the tokens of some trees, tree by tree. -/
theorem exists_spots (nodes : List Node) {places : List (Nat × Token)}
    (hplaces : places.map Prod.snd = Node.storedAll nodes) :
    ∃ spots : List (Node × List (Nat × Token)), spots.map Prod.fst = nodes ∧
      spots.flatMap Prod.snd = places ∧
      ∀ spot ∈ spots, spot.2.map Prod.snd = spot.1.storedTokens := by
  induction nodes generalizing places with
  | nil =>
    obtain rfl := List.map_eq_nil_iff.1 hplaces
    exact ⟨[], rfl, rfl, List.forall_mem_nil _⟩
  | cons node rest ih =>
    obtain ⟨own, others, rfl, hown, hothers⟩ := List.map_eq_append_iff.1 hplaces
    obtain ⟨spots, rfl, rfl, hspots⟩ := ih hothers
    exact ⟨(node, own) :: spots, rfl, rfl, List.forall_mem_cons.2 ⟨hown, hspots⟩⟩

/-! ## Blame -/

/-- Runtime errors are attributed to the statement that caused them. Every run of a source text has
an account: the statements are run one after the other, each contributes at most one error, and these
are what the run reports behind the errors of the source. The statements store tokens of the source
at places that go from the left to the right. Each error is blamed on the statement that it ended:
unless this nests too deeply, it carries a token that the statement stores, and it tells one more than
the number of newlines before the place of this token. -/
theorem runtime_errors_blame_their_statement (session : Session) (inner : Scopes)
    (source : String) :
    let program := Program.ofSource source
    let start : Machine := ⟨inner ++ [session.globals], []⟩
    let run := (session.runWithin inner program).1
    ∃ contributions : List Contribution,
      Account session.setting nestingLimit start program.statements contributions run.ending
        (interpret session.setting nestingLimit program.statements start).2 ∧
      reportsOf run.events =
        program.errors ++ (contributions.filterMap Contribution.cause).map .runtime ∧
      (run.ending = .finished → contributions.map Contribution.node = program.statements) ∧
      (contributions.flatMap Contribution.places).Sublist
        (Piece.located [] (Piece.pieces source.toList)) ∧
      ∀ contribution ∈ contributions,
        contribution.places.map Prod.snd = contribution.node.storedTokens ∧
        ∀ error, contribution.cause = some error → error.BlamedOn contribution.node ∧
          ∀ t, error.token? = some t → ∃ offset, (offset, t) ∈ contribution.places ∧
            t.StandsAt source.toList offset ∧
            error.line = 1 + (source.toList.take offset).count '\n' := by
  intro program start run
  obtain ⟨places, hplaces, htokens⟩ := exists_places source nestingLimit
  obtain ⟨spots, hnodes, hflat, hstored⟩ := exists_spots _ htokens
  have hexecutable : ∀ spot ∈ spots, spot.1.isExecutable = true := by
    intro spot hmem
    have hnode : spot.1 ∈ program.statements := by
      change spot.1 ∈ (parse nestingLimit (scan source).tokens).statements
      rw [← hnodes]
      exact List.mem_map_of_mem hmem
    exact (fromSource_of_mem_parse hnode).isExecutable
  obtain ⟨contributions, haccount, hfront, hblamed⟩ :=
    @exists_account session.setting nestingLimit spots hexecutable start
  rw [hnodes] at haccount
  have hsublist : (contributions.flatMap Contribution.places).Sublist
      (Piece.located [] (Piece.pieces source.toList)) := by
    have hsome := (hfront.sublist.flatMap Prod.snd).trans (hflat ▸ hplaces)
    rwa [List.flatMap_map] at hsome
  refine ⟨contributions, haccount, ?_, haccount.nodes, hsublist, fun contribution hmem => ?_⟩
  · have hreports := haccount.reports
    change reportsOf (program.errors.map .reported ++ (interpret session.setting nestingLimit
      program.statements start).2.log.reverse) = _
    rw [reportsOf_append, reportsOf_map_reported]
    exact congrArg (program.errors ++ ·) hreports
  · have hown : contribution.places.map Prod.snd = contribution.node.storedTokens :=
      hstored _ (hfront.subset (List.mem_map_of_mem hmem))
    refine ⟨hown, fun error hcause => ?_⟩
    have hblame := hblamed contribution hmem error hcause
    refine ⟨hblame, fun t ht => ?_⟩
    have hplace := hblame.mem_storedTokens ht
    rw [← hown] at hplace
    obtain ⟨⟨offset, _⟩, hoffset, rfl⟩ := List.mem_map.1 hplace
    have hlocated := hsublist.subset (List.mem_flatMap.2 ⟨contribution, hmem, hoffset⟩)
    obtain ⟨hstands, hline⟩ := Piece.of_mem_located hlocated
    exact ⟨offset, hoffset, hstands, (RuntimeError.line_of_token? ht).trans hline⟩

/-- Two statements fail, the second one inside a block, and what follows them is still run. -/
example : (reportsOf ((Session.fresh 0).run
    "print a + \n(b = 1);\n\x7b print 1;\nprint 2 /\n0; print 3; \x7d print -nil;").events).map
      Diagnostic.line = [1, 4, 5] := by
  decide +kernel

end Lox
