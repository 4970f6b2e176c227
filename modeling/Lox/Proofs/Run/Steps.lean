import Lox.Run.Machine
import Lox.Proofs.Computation

/-!
# Steps of a run

What a run does at each kind of node, one equation a kind, and the rules by which a property of the
scopes is carried through a run. Messages of the trace and printed lines leave the scopes alone, so
a property of the scopes only has to be looked at where a variable is declared or assigned and where
a block is entered or left.
-/

namespace Lox

open Lox.Computation Lox.Action

/-! ## One equation a node -/

/-- An evaluation, followed by the message that tells the value. -/
def traced (setting : Setting) (node : Node) (evaluation : Action Value) : Action Value := do
  let value ← evaluation
  trace setting 4 fun _ => "evaluate " ++ node.typeName ++ " -> " ++ value.display
  return value

/-- Whether the condition of a loop holds, with the message that tells it. -/
def loopCondition (setting : Setting) (limit : Nat) (condition : Node) : Action Bool := do
  let value ← evaluate setting limit condition
  trace setting 3 fun _ => "while condition " ++ value.display
  return value.isTruthy

/-- What runs inside the scope of a block. -/
def blockBody (setting : Setting) (limit : Nat) (statements : List Node) : Action Unit := do
  let depth := (← get).scopes.depth
  trace setting 3 fun _ => "enter block at depth " ++ toString depth
  statements.forM (execute setting limit)
  trace setting 3 fun _ => "leave block at depth " ++ toString depth

section Equations

variable (setting : Setting) (limit : Nat)

theorem evaluate_literal (value : Value) :
    evaluate setting (limit + 1) (.literal value) =
      traced setting (.literal value) (pure value) := rfl

theorem evaluate_grouping (inner : Node) :
    evaluate setting (limit + 1) (.grouping inner) =
      traced setting (.grouping inner) (evaluate setting limit inner) := rfl

theorem evaluate_varRef (name : Node) :
    evaluate setting (limit + 1) (.varRef name) = traced setting (.varRef name) (lookUp name) := rfl

theorem evaluate_assign (name value : Node) :
    evaluate setting (limit + 1) (.assign name value) = traced setting (.assign name value) (do
      let value ← evaluate setting limit value
      assign setting name value
      return value) := rfl

theorem evaluate_unary (operator right : Node) :
    evaluate setting (limit + 1) (.unary operator right) = traced setting (.unary operator right) (do
      let operand ← evaluate setting limit right
      let operator ← tokenIn "kind" operator
      ofExcept (applyUnary operator operand)) := rfl

theorem evaluate_binary (left operator right : Node) :
    evaluate setting (limit + 1) (.binary left operator right) =
      traced setting (.binary left operator right) (do
        let left ← evaluate setting limit left
        let right ← evaluate setting limit right
        let operator ← tokenIn "kind" operator
        ofExcept (applyBinary operator left right)) := rfl

theorem evaluateInitializer_absent : evaluateInitializer setting limit .absent = pure .nil := rfl

theorem evaluateInitializer_of_ne_absent {initializer : Node} (h : initializer ≠ .absent) :
    evaluateInitializer setting limit initializer = evaluate setting limit initializer := by
  cases initializer with
  | absent => exact absurd rfl h
  | _ => rfl

theorem execute_exprStmt (expression : Node) :
    execute setting (limit + 1) (.exprStmt expression) = (do
      let _ ← evaluate setting limit expression) := rfl

theorem execute_printStmt (expression : Node) :
    execute setting (limit + 1) (.printStmt expression) = (do
      let value ← evaluate setting limit expression
      modify (·.note (.printed value.display))) := rfl

theorem execute_varDecl (name initializer : Node) :
    execute setting (limit + 1) (.varDecl name initializer) = (do
      let value ← evaluateInitializer setting limit initializer
      declare setting name value) := rfl

theorem execute_block (statements : List Node) :
    execute setting (limit + 1) (.block statements) =
      inScope (blockBody setting limit statements) := rfl

theorem execute_ifThen (condition thenBranch : Node) :
    execute setting (limit + 1) (.ifStmt condition thenBranch .absent) = (do
      let value ← evaluate setting limit condition
      trace setting 3 fun _ =>
        "if condition " ++ value.display ++ " -> " ++ (Value.boolean value.isTruthy).display
      if value.isTruthy then execute setting limit thenBranch else pure ()) := rfl

theorem execute_ifElse (condition thenBranch : Node) {elseBranch : Node}
    (helse : elseBranch ≠ .absent) :
    execute setting (limit + 1) (.ifStmt condition thenBranch elseBranch) = (do
      let value ← evaluate setting limit condition
      trace setting 3 fun _ =>
        "if condition " ++ value.display ++ " -> " ++ (Value.boolean value.isTruthy).display
      if value.isTruthy then execute setting limit thenBranch
      else execute setting limit elseBranch) := by
  cases elseBranch with
  | absent => exact absurd rfl helse
  | _ => rfl

theorem execute_whileStmt (condition body : Node) :
    execute setting (limit + 1) (.whileStmt condition body) =
      repeatWhile (loopCondition setting limit condition) (execute setting limit body)
        setting.turns := rfl

end Equations

/-! ## Variables -/

section Variables

variable {t : Token} {name : Name}

theorem nameIn_of_name (hname : Name.ofJson? t.lexeme = some name) :
    nameIn (.token t) = pure (t, name) := by
  simp [nameIn, tokenIn, hname]

theorem nameIn_of_noName (hname : Name.ofJson? t.lexeme = none) :
    nameIn (.token t) = throw (.fault (.notAName t.lexeme.typeName)) := by
  simp [nameIn, tokenIn, hname]

theorem lookUp_of_name (hname : Name.ofJson? t.lexeme = some name) (machine : Machine) :
    lookUp (.token t) machine =
      match machine.scopes.get? name with
      | some value => .ok value machine
      | none => .error (.error (.undefinedVariable t)) machine := by
  rw [lookUp, nameIn_of_name hname, pure_bind]
  change ((get : Action Machine) >>= _) machine = _
  rw [get_bind]
  cases machine.scopes.get? name <;> rfl

theorem assign_of_name (setting : Setting) (hname : Name.ofJson? t.lexeme = some name)
    (value : Value) (machine : Machine) :
    assign setting (.token t) value machine =
      match machine.scopes.assign? name value with
      | some scopes => .ok () (Machine.trace setting 2
          (fun _ => "assign " ++ t.text ++ " = " ++ value.display) { machine with scopes })
      | none => .error (.error (.undefinedVariable t)) machine := by
  rw [assign, nameIn_of_name hname, pure_bind]
  change ((get : Action Machine) >>= _) machine = _
  rw [get_bind]
  cases machine.scopes.assign? name value <;> rfl

theorem assign_of_noName (setting : Setting) (hname : Name.ofJson? t.lexeme = none) (value : Value)
    (machine : Machine) : assign setting (.token t) value machine =
      .error (.fault (.notAName t.lexeme.typeName)) machine := by
  rw [assign, nameIn_of_noName hname]
  rfl

theorem declare_of_noName (setting : Setting) (hname : Name.ofJson? t.lexeme = none) (value : Value)
    (machine : Machine) : declare setting (.token t) value machine =
      .error (.fault (.notAName t.lexeme.typeName)) machine := by
  rw [declare, nameIn_of_noName hname]
  rfl

theorem declare_of_name (setting : Setting) (hname : Name.ofJson? t.lexeme = some name)
    (value : Value) (machine : Machine) :
    declare setting (.token t) value machine =
      .ok () (Machine.trace setting 2
        (fun _ => "declare " ++ t.text ++ ": " ++ value.typeName ++ " = " ++ value.display)
        { machine with scopes := machine.scopes.define name value }) := by
  rw [declare, nameIn_of_name hname, pure_bind]
  rfl

end Variables

/-! ## Properties of the scopes -/

@[simp] theorem Machine.note_scopes (machine : Machine) (event : Event) :
    (machine.note event).scopes = machine.scopes := rfl

@[simp] theorem Machine.trace_scopes (setting : Setting) (level : Nat) (message : Unit → String)
    (machine : Machine) : (machine.trace setting level message).scopes = machine.scopes := by
  rw [Machine.trace]
  split <;> rfl

@[simp] theorem Machine.fail_scopes (setting : Setting) (error : RuntimeError) (machine : Machine) :
    (machine.fail setting error).scopes = machine.scopes := by
  rw [fail, note_scopes, trace_scopes]

/-- A triple whose assertions are about the scopes alone. -/
def ScopeTriple {α : Type} (pre : Scopes → Prop) (action : Action α) (post : α → Scopes → Prop)
    (stop : Halt → Scopes → Prop) : Prop :=
  Triple (fun machine => pre machine.scopes) action (fun a machine => post a machine.scopes)
    fun halt machine => stop halt machine.scopes

section Rules

variable {α β : Type} {pre : Scopes → Prop} {post : α → Scopes → Prop} {final : β → Scopes → Prop}
  {stop : Halt → Scopes → Prop} {action : Action α}

theorem ScopeTriple.bind {next : α → Action β} (haction : ScopeTriple pre action post stop)
    (hnext : ∀ a, ScopeTriple (post a) (next a) final stop) :
    ScopeTriple pre (action >>= next) final stop :=
  Triple.bind haction hnext

theorem ScopeTriple.mono {pre' : Scopes → Prop} {post' : α → Scopes → Prop}
    (haction : ScopeTriple pre action post stop) (hpre : ∀ scopes, pre' scopes → pre scopes)
    (hpost : ∀ a scopes, post a scopes → post' a scopes) : ScopeTriple pre' action post' stop :=
  Triple.mono haction (fun machine => hpre machine.scopes) (fun a machine => hpost a machine.scopes)
    fun _ _ => id

theorem scopeTriple_pure {a : α} (h : ∀ scopes, pre scopes → post a scopes) :
    ScopeTriple pre (pure a) post stop :=
  fun machine => h machine.scopes

theorem scopeTriple_throw {halt : Halt} (h : ∀ scopes, pre scopes → stop halt scopes) :
    ScopeTriple pre (throw halt : Action α) post stop :=
  fun machine => h machine.scopes

theorem scopeTriple_trace {setting : Setting} {level : Nat} {message : Unit → String} :
    ScopeTriple pre (trace setting level message) (fun _ => pre) stop := by
  intro machine hpre
  change pre (machine.trace setting level message).scopes
  rwa [Machine.trace_scopes]

/-- A message after an action changes nothing about the scopes. -/
theorem ScopeTriple.andTrace {setting : Setting} {level : Nat} {message : α → Unit → String}
    {result : α → β} (haction : ScopeTriple pre action post stop)
    (hpost : ∀ a scopes, post a scopes → final (result a) scopes) :
    ScopeTriple pre (do
      let a ← action
      trace setting level (message a)
      return result a) final stop := by
  refine haction.bind fun a => scopeTriple_trace.bind fun _ => ?_
  exact scopeTriple_pure fun scopes => hpost a scopes

theorem ScopeTriple.traced {setting : Setting} {node : Node} {evaluation : Action Value}
    {post : Value → Scopes → Prop} (hevaluation : ScopeTriple pre evaluation post stop) :
    ScopeTriple pre (traced setting node evaluation) post stop :=
  hevaluation.andTrace fun _ _ => id

/-- What runs in a new scope begins with an empty one and loses its own in the end. -/
theorem ScopeTriple.inScope
    (haction : ScopeTriple (fun scopes => ∃ outer, scopes = [] :: outer ∧ pre outer) action
      (fun a scopes => post a scopes.tail) fun halt scopes => stop halt scopes.tail) :
    ScopeTriple pre (inScope action) post stop := by
  intro machine hpre
  have hend := haction { machine with scopes := [] :: machine.scopes } ⟨machine.scopes, rfl, hpre⟩
  rw [Action.inScope]
  cases hrun : action { machine with scopes := [] :: machine.scopes } with
  | ok a after =>
    rw [hrun] at hend
    exact hend
  | error halt after =>
    rw [hrun] at hend
    exact hend

end Rules

/-! ## Properties that are kept -/

/-- An action keeps a property of the scopes, whether it returns or stops. -/
def KeepsScopes {α : Type} (inv : Scopes → Prop) (action : Action α) : Prop :=
  ScopeTriple inv action (fun _ => inv) fun _ => inv

section KeepsScopes

variable {α β : Type} {inv : Scopes → Prop}

theorem KeepsScopes.bind {action : Action α} {next : α → Action β} (haction : KeepsScopes inv action)
    (hnext : ∀ a, KeepsScopes inv (next a)) : KeepsScopes inv (action >>= next) :=
  ScopeTriple.bind haction hnext

theorem keepsScopes_pure (a : α) : KeepsScopes inv (pure a) :=
  scopeTriple_pure fun _ => id

theorem keepsScopes_throw (halt : Halt) : KeepsScopes inv (throw halt : Action α) :=
  scopeTriple_throw fun _ => id

theorem keepsScopes_repeatWhile {condition : Action Bool} {body : Action Unit}
    (hcondition : KeepsScopes inv condition) (hbody : KeepsScopes inv body) (turns : Nat) :
    KeepsScopes inv (repeatWhile condition body turns) := by
  induction turns with
  | zero => exact keepsScopes_throw .outOfTurns
  | succ turns ih =>
    refine hcondition.bind fun holds => ?_
    cases holds with
    | true => exact hbody.bind fun _ => ih
    | false => exact keepsScopes_pure ()

theorem keepsScopes_forM {run : Node → Action Unit} {statements : List Node}
    (hrun : ∀ node ∈ statements, KeepsScopes inv (run node)) :
    KeepsScopes inv (statements.forM run) := by
  induction statements with
  | nil => exact keepsScopes_pure ()
  | cons node rest ih =>
    obtain ⟨hnode, hrest⟩ := List.forall_mem_cons.1 hrun
    rw [List.forM_eq_forM, List.forM_cons]
    exact hnode.bind fun _ => ih hrest

end KeepsScopes

/-! ## Actions that leave the scopes alone -/

/-- An action after which the scopes are what they were, whether it returns or stops. -/
def LeavesScopes {α : Type} (action : Action α) : Prop :=
  ∀ inv : Scopes → Prop, ScopeTriple inv action (fun _ => inv) fun _ => inv

section LeavesScopes

variable {α β : Type}

theorem LeavesScopes.bind {action : Action α} {next : α → Action β} (haction : LeavesScopes action)
    (hnext : ∀ a, LeavesScopes (next a)) : LeavesScopes (action >>= next) :=
  fun inv => (haction inv).bind fun a => hnext a inv

theorem leavesScopes_pure (a : α) : LeavesScopes (pure a) :=
  fun _ => scopeTriple_pure fun _ => id

theorem leavesScopes_throw (halt : Halt) : LeavesScopes (throw halt : Action α) :=
  fun _ => scopeTriple_throw fun _ => id

theorem leavesScopes_trace (setting : Setting) (level : Nat) (message : Unit → String) :
    LeavesScopes (trace setting level message) :=
  fun _ => scopeTriple_trace

theorem leavesScopes_note (event : Event) : LeavesScopes (modify (·.note event)) :=
  fun _ _ hinv => hinv

theorem leavesScopes_tokenIn (part : String) (node : Node) : LeavesScopes (tokenIn part node) := by
  cases node with
  | token t => exact leavesScopes_pure t
  | _ => exact leavesScopes_throw _

theorem leavesScopes_ofExcept (answer : Except RuntimeError α) : LeavesScopes (ofExcept answer) := by
  cases answer with
  | ok value => exact leavesScopes_pure value
  | error error => exact leavesScopes_throw _

theorem leavesScopes_nameIn (node : Node) : LeavesScopes (nameIn node) := by
  refine (leavesScopes_tokenIn _ _).bind fun t => ?_
  cases Name.ofJson? t.lexeme with
  | some name => exact leavesScopes_pure _
  | none => exact leavesScopes_throw _

theorem leavesScopes_lookUp (node : Node) : LeavesScopes (lookUp node) := by
  refine (leavesScopes_nameIn node).bind fun found inv machine hinv => ?_
  change Ends _ _ (((get : Action Machine) >>= _) machine)
  rw [get_bind]
  cases machine.scopes.get? found.2 <;> exact hinv

end LeavesScopes

/-! ## Evaluation -/

section Evaluation

variable {inv : Scopes → Prop}
  (hassign : ∀ {scopes after : Scopes} {name : Name} {value : Value}, inv scopes →
    scopes.assign? name value = some after → inv after)
include hassign

theorem keepsScopes_assign (setting : Setting) (node : Node) (value : Value) :
    KeepsScopes inv (assign setting node value) := by
  refine (leavesScopes_nameIn node inv).bind fun found machine hinv => ?_
  change Ends _ _ (((get : Action Machine) >>= _) machine)
  rw [get_bind]
  cases hafter : machine.scopes.assign? found.2 value with
  | none => exact hinv
  | some scopes => exact scopeTriple_trace ⟨scopes, machine.log⟩ (hassign hinv hafter)

/-- An evaluation changes the scopes by assignments only, so it keeps whatever they keep. -/
theorem keepsScopes_evaluate (setting : Setting) (limit : Nat) (node : Node) :
    KeepsScopes inv (evaluate setting limit node) := by
  induction limit generalizing node with
  | zero => exact keepsScopes_throw .tooDeep
  | succ limit ih =>
    cases node with
    | literal value => exact ScopeTriple.traced (keepsScopes_pure value)
    | grouping inner => exact ScopeTriple.traced (ih inner)
    | varRef name => exact ScopeTriple.traced (leavesScopes_lookUp name inv)
    | assign name value =>
      refine ScopeTriple.traced ((ih value).bind fun value => ?_)
      exact (keepsScopes_assign hassign setting name value).bind fun _ => keepsScopes_pure value
    | unary operator right =>
      refine ScopeTriple.traced ((ih right).bind fun operand => ?_)
      exact ((leavesScopes_tokenIn "kind" operator).bind fun _ => leavesScopes_ofExcept _) inv
    | binary left operator right =>
      refine ScopeTriple.traced ((ih left).bind fun left => (ih right).bind fun right => ?_)
      exact ((leavesScopes_tokenIn "kind" operator).bind fun _ => leavesScopes_ofExcept _) inv
    | _ => exact ScopeTriple.traced (keepsScopes_throw _)

end Evaluation

/-! ## Programs -/

/-- A run of statements keeps what each of them keeps. -/
theorem interpret_keeps {inv : Scopes → Prop} {setting : Setting} {limit : Nat}
    {statements : List Node}
    (hexecute : ∀ node ∈ statements, KeepsScopes inv (execute setting limit node))
    {machine : Machine} (hinv : inv machine.scopes) :
    inv (interpret setting limit statements machine).2.scopes := by
  induction statements generalizing machine with
  | nil => exact hinv
  | cons node rest ih =>
    obtain ⟨hnode, hrest⟩ := List.forall_mem_cons.1 hexecute
    have hstarted : inv (machine.trace setting 1 fun _ => "execute " ++ node.typeName).scopes := by
      rwa [Machine.trace_scopes]
    have hend := hnode _ hstarted
    rw [interpret, topStatement]
    cases hrun : execute setting limit node _ with
    | ok _ after =>
      rw [hrun] at hend
      exact ih hrest hend
    | error halt after =>
      rw [hrun] at hend
      cases halt with
      | error error => exact ih hrest (by rw [Machine.fail_scopes]; exact hend)
      | tooDeep => exact ih hrest (by rw [Machine.fail_scopes]; exact hend)
      | fault fault => exact hend
      | outOfTurns => exact hend

end Lox
