import Lox.Proofs.Expression.Program
import Lox.Proofs.Scope.Names

/-!
# Evaluation one instruction after the other

The tree of an expression is read as a list of instructions for a stack of operands: the
instructions of the operands from the left to the right, and after them the one of the node itself.
Parentheses leave no instruction behind. Running the list up to the first instruction that fails
comes to what evaluation comes to: the same value or the same reason to stop, and the same scopes.
So every operand is evaluated once, before its operator and after what stands to its left, and a
failing expression leaves behind the assignments in front of the failing instruction and nothing
else.

The simulation is said for an action that finds some operands on the stack (`Carries`), so that the
instructions of an operator are carried out like any others.
-/

namespace Lox

open Lox.Computation Lox.Action

/-- What a stack of operands and a chain of scopes can be told to do. -/
inductive Instruction where
  | push (value : Value)
  | load (name : Token)
  | store (name : Token)
  | unary (operator : Token)
  | binary (operator : Token)

/-- The instructions of an expression: those of its operands, then its own. -/
def Node.instructions : Node → List Instruction
  | literal value => [.push value]
  | grouping inner => inner.instructions
  | varRef (token t) => [.load t]
  | assign (token t) value => value.instructions ++ [.store t]
  | unary (token t) right => right.instructions ++ [.unary t]
  | binary left (token t) right => left.instructions ++ (right.instructions ++ [.binary t])
  | _ => []

/-- The operands, the last one first, and the scopes that instructions work on. -/
structure Calculator where
  stack : List Value
  scopes : Scopes

/-- Why an instruction fails: for the reason that would stop an evaluation, or for want of
operands. -/
inductive Trap where
  | halt (halt : Halt)
  | noOperand

namespace Instruction

/-- What is found under a name, unless the name is not defined. -/
def defined {α : Type} (t : Token) (find : Name → Option α) : Except Trap α :=
  match Name.ofJson? t.lexeme with
  | none => .error (.halt (.fault (.notAName t.lexeme.typeName)))
  | some name =>
    match find name with
    | some found => .ok found
    | none => .error (.halt (.error (.undefinedVariable t)))

def answered : Except RuntimeError Value → Except Trap Value
  | .ok value => .ok value
  | .error error => .error (.halt (.error error))

/-- What an instruction makes of a calculator, unless it fails. -/
def step : Instruction → Calculator → Except Trap Calculator
  | push value, ⟨stack, scopes⟩ => .ok ⟨value :: stack, scopes⟩
  | load t, ⟨stack, scopes⟩ => (defined t scopes.get?).map fun value => ⟨value :: stack, scopes⟩
  | store t, ⟨value :: stack, scopes⟩ =>
    (defined t fun name => scopes.assign? name value).map fun after => ⟨value :: stack, after⟩
  | unary t, ⟨operand :: stack, scopes⟩ =>
    (answered (applyUnary t operand)).map fun value => ⟨value :: stack, scopes⟩
  | binary t, ⟨right :: left :: stack, scopes⟩ =>
    (answered (applyBinary t left right)).map fun value => ⟨value :: stack, scopes⟩
  | _, _ => .error .noOperand

def target? : Instruction → Option Token
  | store t => some t
  | _ => none

end Instruction

namespace Calculator

/-- How a run of instructions ends, and the calculator then: all of them were carried out, or one of
them failed. -/
inductive Outcome where
  | finished (calculator : Calculator)
  | failed (trap : Trap) (calculator : Calculator)

/-- Runs instructions from the left to the right, up to the first one that fails. -/
def run : List Instruction → Calculator → Outcome
  | [], calculator => .finished calculator
  | instruction :: rest, calculator =>
    match instruction.step calculator with
    | .ok next => run rest next
    | .error trap => .failed trap calculator

section Run

variable {instruction : Instruction} {code rest : List Instruction}
  {calculator next after : Calculator} {trap : Trap}

theorem run_of_ok (hstep : instruction.step calculator = .ok next) :
    run (instruction :: rest) calculator = run rest next := by
  rw [run, hstep]

theorem run_of_error (hstep : instruction.step calculator = .error trap) :
    run (instruction :: rest) calculator = .failed trap calculator := by
  rw [run, hstep]

/-- A run that fails has carried out all instructions in front of the one that fails. -/
theorem exists_of_run_failed (hrun : run code calculator = .failed trap after) :
    ∃ done instruction rest, code = done ++ instruction :: rest ∧
      run done calculator = .finished after ∧ instruction.step after = .error trap := by
  induction code generalizing calculator with
  | nil => cases hrun
  | cons instruction code ih =>
    cases hstep : instruction.step calculator with
    | error reason =>
      rw [run_of_error hstep] at hrun
      cases hrun
      exact ⟨[], instruction, code, rfl, rfl, hstep⟩
    | ok next =>
      rw [run_of_ok hstep] at hrun
      obtain ⟨done, failing, rest, rfl, hdone, hfailing⟩ := ih hrun
      exact ⟨instruction :: done, failing, rest, rfl, by rw [run_of_ok hstep, hdone], hfailing⟩

end Run

end Calculator

/-! ## What instructions do to the scopes -/

def Scopes.assignAll? : List (Token × Value) → Scopes → Option Scopes
  | [], scopes => some scopes
  | (t, value) :: rest, scopes => do
    let name ← Name.ofJson? t.lexeme
    let after ← scopes.assign? name value
    assignAll? rest after

namespace Instruction

theorem defined_eq_ok {α : Type} {t : Token} {find : Name → Option α} {found : α}
    (h : defined t find = .ok found) :
    ∃ name, Name.ofJson? t.lexeme = some name ∧ find name = some found := by
  unfold defined at h
  split at h
  · cases h
  · next name hname =>
    split at h
    · next hfind =>
      cases h
      exact ⟨name, hname, hfind⟩
    · cases h

theorem map_eq_ok {α : Type} {answer : Except Trap α} {f : α → Calculator} {after : Calculator}
    (h : answer.map f = .ok after) : ∃ a, answer = .ok a ∧ after = f a := by
  cases answer with
  | error trap => cases h
  | ok a =>
    cases h
    exact ⟨a, rfl, rfl⟩

/-- Only an assignment changes the scopes. -/
theorem step_scopes {instruction : Instruction} {calculator after : Calculator}
    (hstep : instruction.step calculator = .ok after) :
    (∃ t value name, instruction = store t ∧ Name.ofJson? t.lexeme = some name ∧
      calculator.scopes.assign? name value = some after.scopes) ∨
    (instruction.target? = none ∧ after.scopes = calculator.scopes) := by
  obtain ⟨stack, scopes⟩ := calculator
  cases instruction with
  | push value =>
    cases hstep
    exact .inr ⟨rfl, rfl⟩
  | load t =>
    obtain ⟨value, -, rfl⟩ := map_eq_ok hstep
    exact .inr ⟨rfl, rfl⟩
  | store t =>
    cases stack with
    | nil => cases hstep
    | cons value stack =>
      obtain ⟨after, hdefined, rfl⟩ := map_eq_ok hstep
      obtain ⟨name, hname, hassign⟩ := defined_eq_ok hdefined
      exact .inl ⟨t, value, name, rfl, hname, hassign⟩
  | unary t =>
    cases stack with
    | nil => cases hstep
    | cons operand stack =>
      obtain ⟨value, -, rfl⟩ := map_eq_ok hstep
      exact .inr ⟨rfl, rfl⟩
  | binary t =>
    match stack, hstep with
    | [], hstep | [_], hstep => cases hstep
    | right :: left :: stack, hstep =>
      obtain ⟨value, -, rfl⟩ := map_eq_ok hstep
      exact .inr ⟨rfl, rfl⟩

end Instruction

open Calculator Instruction

/-- Instructions that are carried out leave behind their assignments. -/
theorem exists_assignments {code : List Instruction} {calculator after : Calculator}
    (hrun : run code calculator = .finished after) :
    ∃ assignments : List (Token × Value), assignments.map Prod.fst = code.filterMap target? ∧
      calculator.scopes.assignAll? assignments = some after.scopes := by
  induction code generalizing calculator with
  | nil =>
    cases hrun
    exact ⟨[], rfl, rfl⟩
  | cons instruction code ih =>
    cases hstep : instruction.step calculator with
    | error trap =>
      rw [run_of_error hstep] at hrun
      cases hrun
    | ok next =>
      rw [run_of_ok hstep] at hrun
      obtain ⟨assignments, hnames, hscopes⟩ := ih hrun
      rcases step_scopes hstep with ⟨t, value, name, rfl, hname, hassign⟩ | ⟨hnone, hsame⟩
      · refine ⟨(t, value) :: assignments, ?_, ?_⟩
        · rw [List.map_cons, hnames]
          rfl
        · simp [Scopes.assignAll?, hname, hassign, hscopes]
      · refine ⟨assignments, ?_, ?_⟩
        · rw [hnames, List.filterMap_cons, hnone]
        · rw [← hsame, hscopes]

/-! ## Carrying out an evaluation -/

/-- Instructions that find some operands on the stack do what an action does: they leave its value
in place of the operands, and its scopes, or they fail for the reason and with the scopes with which
it stops. What else is on the stack and what comes later makes no difference. -/
def Carries (operands : List Value) (code : List Instruction) (action : Action Value) : Prop :=
  ∀ machine, Ends
    (fun value after => ∀ stack rest, run (code ++ rest) ⟨operands ++ stack, machine.scopes⟩ =
      run rest ⟨value :: stack, after.scopes⟩)
    (fun halt after => halt = .tooDeep ∨ ∀ stack rest, ∃ left,
      run (code ++ rest) ⟨operands ++ stack, machine.scopes⟩ =
        .failed (.halt halt) ⟨left, after.scopes⟩)
    (action machine)

section Rules

variable {operands : List Value} {code code' : List Instruction}

theorem carries_tooDeep : Carries operands code (throw .tooDeep) :=
  fun _ => .inl rfl

theorem Carries.bind {action : Action Value} {next : Value → Action Value}
    (haction : Carries [] code action)
    (hnext : ∀ value, Carries (value :: operands) code' (next value)) :
    Carries operands (code ++ code') (action >>= next) := by
  intro machine
  have hfirst := haction machine
  cases hrun : action machine with
  | error halt after =>
    rw [hrun] at hfirst
    rw [bind_of_error hrun]
    refine hfirst.imp_right fun hfails stack rest => ?_
    rw [List.append_assoc]
    exact hfails (operands ++ stack) (code' ++ rest)
  | ok value middle =>
    rw [hrun] at hfirst
    rw [bind_of_ok hrun]
    have hsecond := hnext value middle
    -- While the first action runs, the operands of the second lie below as any other values.
    have hjoin (stack : List Value) (rest : List Instruction) :
        run (code ++ code' ++ rest) ⟨operands ++ stack, machine.scopes⟩ =
          run (code' ++ rest) ⟨value :: operands ++ stack, middle.scopes⟩ := by
      rw [List.append_assoc]
      exact hfirst (operands ++ stack) (code' ++ rest)
    cases hend : next value middle with
    | ok value' after =>
      rw [hend] at hsecond
      exact fun stack rest => (hjoin stack rest).trans (hsecond stack rest)
    | error halt after =>
      rw [hend] at hsecond
      refine hsecond.imp_right fun hfails stack rest => ?_
      rw [hjoin]
      exact hfails stack rest

theorem Carries.traced {setting : Setting} {node : Node} {evaluation : Action Value}
    (hevaluation : Carries operands code evaluation) :
    Carries operands code (traced setting node evaluation) := by
  intro machine
  have hend := hevaluation machine
  cases hrun : evaluation machine with
  | ok value after =>
    rw [hrun] at hend
    rw [Lox.traced, bind_of_ok hrun]
    intro stack rest
    rw [hend stack rest]
    congr 2
    exact (Machine.trace_scopes ..).symm
  | error halt after =>
    rw [hrun] at hend
    rw [Lox.traced, bind_of_error hrun]
    exact hend

/-- One instruction that does what an action does. -/
theorem carries_one {instruction : Instruction} {action : Action Value}
    (hstep : ∀ machine stack, Ends
      (fun value after => instruction.step ⟨operands ++ stack, machine.scopes⟩ =
        .ok ⟨value :: stack, after.scopes⟩)
      (fun halt after => after.scopes = machine.scopes ∧
        instruction.step ⟨operands ++ stack, machine.scopes⟩ = .error (.halt halt))
      (action machine)) : Carries operands [instruction] action := by
  intro machine
  have hstep := hstep machine
  cases hrun : action machine with
  | ok value after =>
    rw [hrun] at hstep
    exact fun stack rest => run_of_ok (hstep stack)
  | error halt after =>
    rw [hrun] at hstep
    refine .inr fun stack rest => ⟨operands ++ stack, ?_⟩
    obtain ⟨hscopes, hfails⟩ := hstep stack
    rw [hscopes]
    exact run_of_error hfails

theorem carries_push (value : Value) : Carries [] [.push value] (pure value) :=
  carries_one fun _ _ => rfl

theorem carries_load (t : Token) : Carries [] [.load t] (lookUp (.token t)) := by
  refine carries_one fun machine stack => ?_
  cases hname : Name.ofJson? t.lexeme with
  | none =>
    rw [lookUp, nameIn_of_noName hname]
    exact ⟨rfl, by simp [step, defined, hname, Except.map]⟩
  | some name =>
    rw [lookUp_of_name hname]
    cases hget : machine.scopes.get? name with
    | some value => simp [Ends, step, defined, hname, hget, Except.map]
    | none => simp [Ends, step, defined, hname, hget, Except.map]

theorem carries_store (setting : Setting) (t : Token) (value : Value) :
    Carries [value] [.store t] (do
      assign setting (.token t) value
      return value) := by
  refine carries_one fun machine stack => ?_
  cases hname : Name.ofJson? t.lexeme with
  | none =>
    rw [bind_of_error (assign_of_noName setting hname value machine)]
    exact ⟨rfl, by simp [step, defined, hname, Except.map]⟩
  | some name =>
    have hassign := assign_of_name setting hname value machine
    cases hafter : machine.scopes.assign? name value with
    | some scopes =>
      rw [hafter] at hassign
      rw [bind_of_ok hassign]
      simp [Ends, step, defined, hname, hafter, Except.map]
    | none =>
      rw [hafter] at hassign
      rw [bind_of_error hassign]
      exact ⟨rfl, by simp [step, defined, hname, hafter, Except.map]⟩

/-- An instruction whose answer an operator gives. -/
theorem carries_answer {instruction : Instruction} (answer : Except RuntimeError Value)
    (hstep : ∀ stack scopes, instruction.step ⟨operands ++ stack, scopes⟩ =
      (answered answer).map fun value => ⟨value :: stack, scopes⟩) :
    Carries operands [instruction] (Action.ofExcept answer) := by
  refine carries_one fun machine stack => ?_
  rw [hstep]
  cases answer with
  | ok value => rfl
  | error error => exact ⟨rfl, rfl⟩

end Rules

/-- The instructions of an expression carry out its evaluation. -/
theorem carries_evaluate {admits : Token → Prop} {holds : Value → Prop} {node : Node}
    (hnode : node.IsExpr admits holds) (setting : Setting) (limit : Nat) :
    Carries [] node.instructions (evaluate setting limit node) := by
  induction limit generalizing node with
  | zero => exact carries_tooDeep
  | succ limit ih =>
    cases hnode with
    | @literal value => exact (carries_push value).traced
    | grouping hinner => exact (ih hinner).traced
    | @varRef t => exact (carries_load t).traced
    | @assign t _ _ _ hvalue => exact ((ih hvalue).bind (carries_store setting t)).traced
    | @unary t _ _ _ hright =>
      refine ((ih hright).bind fun operand => ?_).traced
      exact carries_answer (applyUnary t operand) fun _ _ => rfl
    | @binary t _ _ _ _ hleft hright =>
      refine ((ih hleft).bind fun left => (ih hright).bind fun right => ?_).traced
      exact carries_answer (applyBinary t left right) fun _ _ => rfl

/-! ## Expressions of the parser -/

def Node.isExpression : Node → Bool
  | literal _ | grouping _ | varRef _ | assign _ _ | unary _ _ | binary _ _ _ => true
  | _ => false

/-- An expression that the parser made, by itself or at some place of a program. -/
inductive Node.Parsed : Node → Prop where
  | alone {limit : Nat} {tokens : List Token} {node : Node}
    (hparse : parseExpression limit tokens = .ok node) : Parsed node
  | within {limit : Nat} {tokens : List Token} {site : Site} {node : Node}
    (hoccurs : Occurs (parse limit tokens).statements site node)
    (hexpression : node.isExpression = true) : Parsed node

theorem Node.Parsed.isExpr {node : Node} (hnode : node.Parsed) :
    node.IsExpr (fun _ => True) (fun _ => True) := by
  cases hnode with
  | alone hparse =>
    exact (expr_of_parseExpression hparse).isExpr ⟨fun _ _ _ => trivial, fun _ => trivial, trivial⟩
      fun _ _ => trivial
  | within hoccurs hexpression =>
    cases isPart_of_occurs (parse_isStmt _ _) hoccurs with
    | expr hnode => exact hnode
    | token t => cases hexpression
    | absent => cases hexpression
    | stmt hnode =>
      cases hnode with
      | declare => cases hexpression
      | declareAs => cases hexpression
      | statement hnode => cases hnode <;> cases hexpression

/-- Evaluating an expression is running its instructions from the left to the right, up to the first
one that fails. If the evaluation has a value, all of them are carried out and leave that value on
the stack, and the scopes are the same. If it stops, it stops for the reason for which the first
failing instruction fails, and the scopes are those after the assignments in front of that
instruction. -/
theorem evaluation_runs_instructions {node : Node} (hnode : node.Parsed) (setting : Setting)
    (limit : Nat) (machine : Machine)
    (hdeep : ∀ after, evaluate setting limit node machine ≠ .error .tooDeep after) :
    Ends
      (fun value after => run node.instructions ⟨[], machine.scopes⟩ =
        .finished ⟨[value], after.scopes⟩)
      (fun halt after => ∃ done failing rest stack,
        node.instructions = done ++ failing :: rest ∧
        run node.instructions ⟨[], machine.scopes⟩ = .failed (.halt halt) ⟨stack, after.scopes⟩ ∧
        run done ⟨[], machine.scopes⟩ = .finished ⟨stack, after.scopes⟩ ∧
        failing.step ⟨stack, after.scopes⟩ = .error (.halt halt) ∧
        ∃ assignments : List (Token × Value),
          assignments.map Prod.fst = done.filterMap target? ∧
          machine.scopes.assignAll? assignments = some after.scopes)
      (evaluate setting limit node machine) := by
  have hend := carries_evaluate hnode.isExpr setting limit machine
  cases heval : evaluate setting limit node machine with
  | ok value after =>
    rw [heval] at hend
    have hrun := hend [] []
    rwa [List.append_nil] at hrun
  | error halt after =>
    rw [heval] at hend
    rcases hend with rfl | hfails
    · exact absurd heval (hdeep after)
    · obtain ⟨stack, hrun⟩ := hfails [] []
      rw [List.append_nil] at hrun
      obtain ⟨done, failing, rest, hcode, hdone, hfailing⟩ := exists_of_run_failed hrun
      exact ⟨done, failing, rest, stack, hcode, hrun, hdone, hfailing, exists_assignments hdone⟩

/-- The tokens of `(x = y) + (y = -z)`. -/
def assigningOperands : List Token :=
  [(.leftParen, "("), (.identifier, "x"), (.equal, "="), (.identifier, "y"), (.rightParen, ")"),
    (.plus, "+"), (.leftParen, "("), (.identifier, "y"), (.equal, "="), (.minus, "-"),
    (.identifier, "z"), (.rightParen, ")"), (.eof, "")].map
    fun part => ⟨part.1, .str part.2, .null, 1⟩

/-- Scopes in which `z` cannot be negated. -/
def scopesOfSum (x : Value) : Scopes :=
  [[("x", x), ("y", .boolean true)], [("z", .string "a")]]

/-- The sum fails at its negation: by then `x` has been assigned and `y` has not. -/
theorem evaluation_runs_instructions_assigningOperands :
    ∃ node halt after, node.Parsed ∧
      evaluate ⟨0, 9⟩ 9 node ⟨scopesOfSum .nil, []⟩ = .error halt after ∧
      after.scopes = scopesOfSum (.boolean true) ∧
      ∃ done failing rest stack, node.instructions = done ++ failing :: rest ∧
        run done ⟨[], scopesOfSum .nil⟩ = .finished ⟨stack, after.scopes⟩ ∧
        failing.step ⟨stack, after.scopes⟩ = .error (.halt halt) := by
  have hparse : parseExpression 9 assigningOperands = .ok _ := rfl
  have hrun := evaluation_runs_instructions (.alone hparse) ⟨0, 9⟩ 9 ⟨scopesOfSum .nil, []⟩
    (fun _ => nofun)
  obtain ⟨done, failing, rest, stack, hcode, -, hdone, hfailing, -⟩ := hrun
  exact ⟨_, _, _, .alone hparse, rfl, rfl, done, failing, rest, stack, hcode, hdone, hfailing⟩

end Lox
