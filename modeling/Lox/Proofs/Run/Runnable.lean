import Lox.Proofs.Run.Safety

/-!
# Trees that can be run

A tree file may put any node in any place, and a node that a run cannot use is a fault. There is none
if every place holds what belongs there: an expression where a value is needed, a statement where one
is run, a token where an operator is, and a token whose lexeme can be a name where a variable is.
Which operator a token is does not matter, nor do the values of literals: what the language cannot do
with them is an error of the run, not a fault.

The trees of source texts are such trees, and so are many others that no source text has.
-/

namespace Lox

open Lox.Computation Lox.Action

/-! ## What belongs where -/

namespace Node

def isAbsent : Node → Bool
  | absent => true
  | _ => false

def isToken : Node → Bool
  | token _ => true
  | _ => false

def isName : Node → Bool
  | token t => (Name.ofJson? t.lexeme).isSome
  | _ => false

def isEvaluable : Node → Bool
  | literal _ => true
  | grouping expression => expression.isEvaluable
  | varRef name => name.isName
  | assign name value => name.isName && value.isEvaluable
  | unary operator right => operator.isToken && right.isEvaluable
  | binary left operator right => left.isEvaluable && operator.isToken && right.isEvaluable
  | _ => false

mutual
def isExecutable : Node → Bool
  | exprStmt expression | printStmt expression => expression.isEvaluable
  | varDecl name initializer => name.isName && (initializer.isAbsent || initializer.isEvaluable)
  | block statements => areExecutable statements
  | ifStmt condition thenBranch elseBranch =>
    condition.isEvaluable && thenBranch.isExecutable &&
      (elseBranch.isAbsent || elseBranch.isExecutable)
  | whileStmt condition body => condition.isEvaluable && body.isExecutable
  | _ => false
def areExecutable : List Node → Bool
  | [] => true
  | node :: rest => node.isExecutable && areExecutable rest
end

def isRunnable : Node → Bool
  | program statements | block statements => areExecutable statements
  | _ => false

theorem areExecutable_iff {statements : List Node} :
    areExecutable statements = true ↔ ∀ node ∈ statements, node.isExecutable = true := by
  induction statements with
  | nil => simp [areExecutable]
  | cons node rest ih => simp [areExecutable, ih]

theorem eq_absent_of_isAbsent {node : Node} (hnode : node.isAbsent = true) : node = .absent := by
  cases node with
  | absent => rfl
  | _ => cases hnode

theorem exists_of_isToken {node : Node} (hnode : node.isToken = true) : ∃ t, node = .token t := by
  cases node with
  | token t => exact ⟨t, rfl⟩
  | _ => cases hnode

theorem exists_of_isName {node : Node} (hnode : node.isName = true) :
    ∃ t name, node = .token t ∧ Name.ofJson? t.lexeme = some name := by
  cases node with
  | token t =>
    obtain ⟨name, hname⟩ := Option.isSome_iff_exists.1 hnode
    exact ⟨t, name, rfl, hname⟩
  | _ => cases hnode

/-! ## Trees of source texts -/

theorem isName_of_spelled {t : Token} (ht : t.Spelled) : (token t).isName = true := by
  obtain ⟨name, hname⟩ := ht.name
  rw [isName, hname]
  rfl

theorem IsExpr.isEvaluable {holds : Value → Prop} {node : Node}
    (hnode : node.IsExpr Token.Spelled holds) : node.isEvaluable = true := by
  induction hnode with
  | literal => rfl
  | grouping _ ih => exact ih
  | varRef _ ht => exact isName_of_spelled ht
  | assign _ ht _ ih => simp [Node.isEvaluable, isName_of_spelled ht, ih]
  | unary _ _ _ ih => simp [Node.isEvaluable, isToken, ih]
  | binary _ _ _ _ ihleft ihright => simp [Node.isEvaluable, isToken, ihleft, ihright]

theorem IsStmt.isExecutable {holds : Value → Prop} {clause : Grammar.Clause} {node : Node}
    (hnode : node.IsStmt Token.Spelled holds clause) : node.isExecutable = true := by
  induction hnode with
  | exprStmt hvalue => exact hvalue.isEvaluable
  | printStmt hvalue => exact hvalue.isEvaluable
  | block _ ih => exact areExecutable_iff.2 ih
  | ifThen hcondition _ ih => simp [Node.isExecutable, hcondition.isEvaluable, ih, isAbsent]
  | ifElse hcondition _ _ ihthen ihelse =>
    simp [Node.isExecutable, hcondition.isEvaluable, ihthen, ihelse]
  | whileStmt hcondition _ ih => simp [Node.isExecutable, hcondition.isEvaluable, ih]
  | declare _ ht => simp [Node.isExecutable, isName_of_spelled ht, isAbsent]
  | declareAs _ ht hvalue => simp [Node.isExecutable, isName_of_spelled ht, hvalue.isEvaluable]
  | statement _ ih => exact ih

/-- The tree of every source text can be run. -/
theorem isRunnable_ofSource (source : String) :
    (program (Program.ofSource source).statements).isRunnable = true :=
  areExecutable_iff.2 fun _ hmem => (fromSource_of_mem_parse hmem).isExecutable

end Node

/-! ## Actions without faults -/

/-- An action stops with no fault. -/
def Faultless {α : Type} (action : Action α) : Prop :=
  Triple (fun _ => True) action (fun _ _ => True) fun halt _ => ∀ fault, halt ≠ .fault fault

section Faultless

variable {α β : Type} {setting : Setting}

theorem Faultless.bind {action : Action α} {next : α → Action β} (haction : Faultless action)
    (hnext : ∀ a, Faultless (next a)) : Faultless (action >>= next) :=
  Triple.bind haction hnext

theorem faultless_pure (a : α) : Faultless (pure a : Action α) :=
  fun _ _ => trivial

theorem faultless_throw {halt : Halt} (hhalt : ∀ fault, halt ≠ .fault fault) :
    Faultless (throw halt : Action α) :=
  fun _ _ => hhalt

theorem faultless_modify (change : Machine → Machine) : Faultless (modify change : Action Unit) :=
  fun _ _ => trivial

theorem Faultless.traced {node : Node} {evaluation : Action Value}
    (hevaluation : Faultless evaluation) : Faultless (traced setting node evaluation) :=
  hevaluation.bind fun value => (faultless_modify _).bind fun _ => faultless_pure value

theorem faultless_ofExcept (answer : Except RuntimeError α) : Faultless (ofExcept answer) := by
  cases answer with
  | ok value => exact faultless_pure value
  | error error => exact faultless_throw nofun

theorem faultless_lookUp {node : Node} (hnode : node.isName = true) : Faultless (lookUp node) := by
  obtain ⟨t, name, rfl, hname⟩ := Node.exists_of_isName hnode
  intro machine _
  rw [lookUp_of_name hname]
  cases machine.scopes.get? name with
  | some value => exact trivial
  | none => exact nofun

theorem faultless_assign {node : Node} (hnode : node.isName = true) (value : Value) :
    Faultless (assign setting node value) := by
  obtain ⟨t, name, rfl, hname⟩ := Node.exists_of_isName hnode
  intro machine _
  rw [assign_of_name setting hname]
  cases machine.scopes.assign? name value with
  | some scopes => exact trivial
  | none => exact nofun

theorem faultless_declare {node : Node} (hnode : node.isName = true) (value : Value) :
    Faultless (declare setting node value) := by
  obtain ⟨t, name, rfl, hname⟩ := Node.exists_of_isName hnode
  intro machine _
  rw [declare_of_name setting hname]
  exact trivial

theorem Faultless.inScope {action : Action α} (haction : Faultless action) :
    Faultless (inScope action) := by
  intro machine _
  have hend := haction { machine with scopes := [] :: machine.scopes } trivial
  rw [Action.inScope]
  cases hrun : action { machine with scopes := [] :: machine.scopes } with
  | ok a after => exact trivial
  | error halt after =>
    rw [hrun] at hend
    exact hend

theorem faultless_forM {run : Node → Action Unit} {statements : List Node}
    (hrun : ∀ node ∈ statements, Faultless (run node)) : Faultless (statements.forM run) := by
  induction statements with
  | nil => exact faultless_pure ()
  | cons node rest ih =>
    obtain ⟨hnode, hrest⟩ := List.forall_mem_cons.1 hrun
    rw [List.forM_eq_forM, List.forM_cons]
    exact hnode.bind fun _ => ih hrest

theorem faultless_repeatWhile {condition : Action Bool} {body : Action Unit}
    (hcondition : Faultless condition) (hbody : Faultless body) (turns : Nat) :
    Faultless (repeatWhile condition body turns) := by
  induction turns with
  | zero => exact faultless_throw nofun
  | succ turns ih =>
    refine hcondition.bind fun holds => ?_
    cases holds with
    | true => exact hbody.bind fun _ => ih
    | false => exact faultless_pure ()

end Faultless

/-! ## Runs without faults -/

section Runs

variable (setting : Setting) (limit : Nat)

theorem faultless_evaluate {node : Node} (hnode : node.isEvaluable = true) :
    Faultless (evaluate setting limit node) := by
  induction limit generalizing node with
  | zero => exact faultless_throw nofun
  | succ limit ih =>
    cases node with
    | literal value => exact (faultless_pure value).traced
    | grouping expression =>
      have hinner : expression.isEvaluable = true := hnode
      rw [evaluate_grouping]
      exact (ih hinner).traced
    | varRef name =>
      rw [evaluate_varRef]
      exact (faultless_lookUp hnode).traced
    | assign name value =>
      obtain ⟨hname, hvalue⟩ := Bool.and_eq_true_iff.1 hnode
      rw [evaluate_assign]
      refine ((ih hvalue).bind fun value => ?_).traced
      exact (faultless_assign hname value).bind fun _ => faultless_pure value
    | unary operator right =>
      obtain ⟨hoperator, hright⟩ := Bool.and_eq_true_iff.1 hnode
      obtain ⟨t, rfl⟩ := Node.exists_of_isToken hoperator
      rw [evaluate_unary]
      exact ((ih hright).bind fun operand => faultless_ofExcept (applyUnary t operand)).traced
    | binary left operator right =>
      obtain ⟨hfirst, hright⟩ := Bool.and_eq_true_iff.1 hnode
      obtain ⟨hleft, hoperator⟩ := Bool.and_eq_true_iff.1 hfirst
      obtain ⟨t, rfl⟩ := Node.exists_of_isToken hoperator
      rw [evaluate_binary]
      refine ((ih hleft).bind fun left => (ih hright).bind fun right => ?_).traced
      exact faultless_ofExcept (applyBinary t left right)
    | _ => cases hnode

theorem faultless_evaluateInitializer {node : Node}
    (hnode : (node.isAbsent || node.isEvaluable) = true) :
    Faultless (evaluateInitializer setting limit node) := by
  rcases Bool.or_eq_true_iff.1 hnode with habsent | hevaluable
  · rw [Node.eq_absent_of_isAbsent habsent, evaluateInitializer_absent]
    exact faultless_pure Value.nil
  · rw [evaluateInitializer_of_ne_absent]
    · exact faultless_evaluate setting limit hevaluable
    · rintro rfl
      cases hevaluable

theorem faultless_execute {node : Node} (hnode : node.isExecutable = true) :
    Faultless (execute setting limit node) := by
  induction limit generalizing node with
  | zero => exact faultless_throw nofun
  | succ limit ih =>
    cases node with
    | exprStmt expression =>
      rw [execute_exprStmt]
      exact (faultless_evaluate setting limit hnode).bind fun _ => faultless_pure ()
    | printStmt expression =>
      rw [execute_printStmt]
      exact (faultless_evaluate setting limit hnode).bind fun _ => faultless_modify _
    | varDecl name initializer =>
      obtain ⟨hname, hinitializer⟩ := Bool.and_eq_true_iff.1 hnode
      rw [execute_varDecl]
      exact (faultless_evaluateInitializer setting limit hinitializer).bind (faultless_declare hname)
    | block statements =>
      rw [execute_block, blockBody]
      refine Faultless.inScope fun machine _ => ?_
      rw [get_bind]
      refine ((faultless_modify _).bind fun _ => ?_) machine trivial
      refine (faultless_forM fun node hmem => ?_).bind fun _ => faultless_modify _
      exact ih (Node.areExecutable_iff.1 hnode node hmem)
    | ifStmt condition thenBranch elseBranch =>
      obtain ⟨hfirst, helse⟩ := Bool.and_eq_true_iff.1 hnode
      obtain ⟨hcondition, hthen⟩ := Bool.and_eq_true_iff.1 hfirst
      refine (faultless_evaluate setting limit hcondition).bind fun value => ?_
      refine (faultless_modify _).bind fun _ => ?_
      split
      · exact ih hthen
      · split
        · exact faultless_pure ()
        · next hother =>
          refine ih ((Bool.or_eq_true_iff.1 helse).resolve_left fun habsent => ?_)
          exact hother (Node.eq_absent_of_isAbsent habsent)
    | whileStmt condition body =>
      obtain ⟨hcondition, hbody⟩ := Bool.and_eq_true_iff.1 hnode
      rw [execute_whileStmt]
      refine faultless_repeatWhile ?_ (ih hbody) setting.turns
      refine (faultless_evaluate setting limit hcondition).bind fun value => ?_
      exact (faultless_modify _).bind fun _ => faultless_pure _
    | _ => simp [Node.isExecutable] at hnode

/-- Statements that can be run meet no fault. -/
theorem interpret_ne_faulted {statements : List Node}
    (hstatements : ∀ node ∈ statements, node.isExecutable = true) (machine : Machine)
    (fault : TreeFault) : (interpret setting limit statements machine).1 ≠ .faulted fault := by
  induction statements generalizing machine with
  | nil =>
    intro heq
    cases heq
  | cons node rest ih =>
    obtain ⟨hnode, hrest⟩ := List.forall_mem_cons.1 hstatements
    have hend := faultless_execute setting limit hnode
      (machine.trace setting 1 fun _ => "execute " ++ node.typeName) trivial
    rw [interpret, topStatement]
    cases hrun : execute setting limit node _ with
    | ok _ after => exact ih hrest after
    | error halt after =>
      rw [hrun] at hend
      cases halt with
      | error error => exact ih hrest _
      | tooDeep => exact ih hrest _
      | fault fault => exact absurd rfl (hend fault)
      | outOfTurns =>
        intro heq
        cases heq

end Runs

/-- A tree that can be run as a program is run without a fault, in every session. -/
theorem runTree_ne_faulted {tree : Node} (htree : tree.isRunnable = true) (session : Session)
    (fault : TreeFault) : (session.runTree tree).ending ≠ .faulted fault := by
  cases tree with
  | program statements =>
    exact interpret_ne_faulted _ _ (Node.areExecutable_iff.1 htree) _ fault
  | block statements =>
    exact interpret_ne_faulted _ _ (Node.areExecutable_iff.1 htree) _ fault
  | _ => cases htree

end Lox
