import Lox.Proofs.Run.Commuting
import Lox.Proofs.Scope.Site

/-!
# Variables that a program does not mention

A variable that is named nowhere in a program plays no part in its runs. Two runs from scopes that
differ in the bindings of such a variable alone do the same step by step, and neither of them touches
a binding of it.

Both halves are carried through a run at once (`Blind`): an action does not see the bindings of the
variable, which is said by taking them out of the scopes, and it keeps them as they are.
-/

namespace Lox

open Lox.Computation Lox.Action

/-! ## Bindings of one name -/

namespace Bindings

variable {bindings : Bindings} {name other : Name} {value : Value}

def without (name : Name) (bindings : Bindings) : Bindings :=
  bindings.filter fun entry => entry.1.normal ≠ name.normal

def only (name : Name) (bindings : Bindings) : Bindings :=
  bindings.filter fun entry => entry.1.normal = name.normal

theorem get?_without (hother : other.normal ≠ name.normal) :
    (bindings.without name).get? other = bindings.get? other := by
  rw [get?, get?, without, List.find?_filter]
  refine congrArg (fun found => (bindings.find? found).map (·.2)) (funext fun entry => ?_)
  by_cases hentry : entry.1.normal = other.normal
  · simp [hentry, hother]
  · simp [hentry]

theorem put_without (hother : other.normal ≠ name.normal) :
    (bindings.without name).put other value = (bindings.put other value).without name := by
  induction bindings with
  | nil => simp [without, put, hother]
  | cons entry rest ih =>
    by_cases hentry : entry.1.normal = other.normal
    · simp [without, put, hentry, hother]
    · rw [put, if_neg hentry, without, without, List.filter_cons, List.filter_cons]
      split
      · rw [put, if_neg hentry]
        exact congrArg (entry :: ·) ih
      · exact ih

theorem only_put (hother : other.normal ≠ name.normal) :
    (bindings.put other value).only name = bindings.only name := by
  induction bindings with
  | nil => simp [only, put, hother]
  | cons entry rest ih =>
    rw [put]
    split
    · next hentry => simp [only, hentry, hother]
    · rw [only, only, List.filter_cons, List.filter_cons]
      split
      · exact congrArg (entry :: ·) ih
      · exact ih

end Bindings

namespace Scopes

variable {scopes : Scopes} {name other : Name} {value : Value}

def without (name : Name) (scopes : Scopes) : Scopes :=
  scopes.map (Bindings.without name)

def only (name : Name) (scopes : Scopes) : Scopes :=
  scopes.map (Bindings.only name)

theorem without_tail : without name scopes.tail = (scopes.without name).tail :=
  List.map_tail

theorem only_tail : only name scopes.tail = (scopes.only name).tail :=
  List.map_tail

theorem get?_without (hother : other.normal ≠ name.normal) :
    (scopes.without name).get? other = scopes.get? other := by
  rw [get?, get?, without, List.findSome?_map]
  refine congrArg (List.findSome? · scopes) (funext fun bindings => ?_)
  exact Bindings.get?_without hother

theorem assign?_without (hother : other.normal ≠ name.normal) :
    (scopes.without name).assign? other value =
      (scopes.assign? other value).map (without name) := by
  induction scopes with
  | nil => rfl
  | cons innermost outer ih =>
    have hbinds : (innermost.without name).binds other = innermost.binds other := by
      rw [Bindings.binds, Bindings.binds, Bindings.get?_without hother]
    change assign? other value (innermost.without name :: without name outer) = _
    rw [assign?_cons, assign?_cons, hbinds]
    split
    · rw [Bindings.put_without hother]
      rfl
    · rw [ih, Option.map_map, Option.map_map]
      rfl

theorem only_assign? (hother : other.normal ≠ name.normal) {after : Scopes}
    (hassign : scopes.assign? other value = some after) : after.only name = scopes.only name :=
  map_assign? (fun _ _ => Bindings.only_put hother) hassign

theorem define_without (hother : other.normal ≠ name.normal) :
    (scopes.without name).define other value = (scopes.define other value).without name := by
  cases scopes with
  | nil =>
    have hempty : Bindings.put other value (Bindings.without name []) = _ :=
      Bindings.put_without hother
    exact congrArg (fun innermost => [innermost]) hempty
  | cons innermost outer =>
    exact congrArg (· :: without name outer) (Bindings.put_without hother)

theorem only_define (hother : other.normal ≠ name.normal) {first : Bindings} {rest : Scopes}
    (honly : scopes.only name = first :: rest) :
    (scopes.define other value).only name = first :: rest := by
  obtain ⟨innermost, outer, rfl, rfl, rfl⟩ := List.map_eq_cons_iff.1 honly
  exact congrArg (· :: only name outer) (Bindings.only_put hother)

end Scopes

/-! ## Machines without a variable -/

namespace Machine

def without (name : Name) (machine : Machine) : Machine :=
  { machine with scopes := machine.scopes.without name }

variable (name : Name) (machine : Machine)

theorem without_trace (setting : Setting) (level : Nat) (message : Unit → String) :
    (machine.without name).trace setting level message =
      (machine.trace setting level message).without name := by
  rw [trace, trace]
  split <;> rfl

theorem without_fail (setting : Setting) (error : RuntimeError) :
    (machine.without name).fail setting error = (machine.fail setting error).without name := by
  rw [fail, fail, without_trace]
  rfl

end Machine

/-! ## Actions that do not see a variable -/

/-- An action does the same whether or not a name is bound, and leaves all of its bindings alone. -/
structure Blind {α : Type} (name : Name) (action : Action α) : Prop where
  hides : Commutes (Machine.without name) action action
  keeps : ∀ first rest, KeepsScopes (fun scopes => scopes.only name = first :: rest) action

section Rules

variable {α β : Type} {name : Name} {action : Action α}

theorem Blind.bind {next : α → Action β} (haction : Blind name action)
    (hnext : ∀ a, Blind name (next a)) : Blind name (action >>= next) where
  hides := haction.hides.bind fun a => (hnext a).hides
  keeps first rest := (haction.keeps first rest).bind fun a => (hnext a).keeps first rest

theorem blind_pure (a : α) : Blind name (pure a) where
  hides := commutes_pure a
  keeps _ _ := keepsScopes_pure a

theorem blind_throw (halt : Halt) : Blind name (throw halt : Action α) where
  hides := commutes_throw halt
  keeps _ _ := keepsScopes_throw halt

theorem blind_trace (setting : Setting) (level : Nat) (message : Unit → String) :
    Blind name (trace setting level message) where
  hides machine := congrArg (EStateM.Result.ok ()) (machine.without_trace name setting level message)
  keeps _ _ := leavesScopes_trace setting level message _

theorem blind_note (event : Event) : Blind name (modify (·.note event) : Action Unit) where
  hides _ := rfl
  keeps _ _ := leavesScopes_note event _

theorem blind_tokenIn (part : String) (node : Node) : Blind name (tokenIn part node) where
  hides := commutes_tokenIn part node
  keeps _ _ := leavesScopes_tokenIn part node _

theorem blind_ofExcept (answer : Except RuntimeError α) : Blind name (ofExcept answer) where
  hides := commutes_ofExcept answer
  keeps _ _ := leavesScopes_ofExcept answer _

theorem Blind.traced {evaluation : Action Value} (hevaluation : Blind name evaluation)
    (setting : Setting) (node : Node) : Blind name (traced setting node evaluation) :=
  hevaluation.bind fun value => (blind_trace _ _ _).bind fun _ => blind_pure value

theorem Blind.inScope {action : Action Unit} (haction : Blind name action) :
    Blind name (inScope action) where
  hides := haction.hides.inScope (fun _ => rfl) fun machine =>
    congrArg (Machine.mk · machine.log) Scopes.without_tail
  keeps first rest := by
    have hleave : ∀ scopes : Scopes, scopes.only name = [] :: first :: rest →
        Scopes.only name scopes.tail = first :: rest := by
      intro scopes honly
      rw [Scopes.only_tail, honly, List.tail_cons]
    refine ScopeTriple.inScope (Triple.mono (haction.keeps [] (first :: rest)) ?_
      (fun _ machine => hleave machine.scopes) fun _ machine => hleave machine.scopes)
    rintro machine ⟨outer, hscopes, honly⟩
    exact hscopes ▸ congrArg ([] :: ·) honly

theorem blind_repeatWhile {condition : Action Bool} {body : Action Unit}
    (hcondition : Blind name condition) (hbody : Blind name body) (turns : Nat) :
    Blind name (repeatWhile condition body turns) where
  hides := commutes_repeatWhile hcondition.hides hbody.hides turns
  keeps first rest :=
    keepsScopes_repeatWhile (hcondition.keeps first rest) (hbody.keeps first rest) turns

theorem blind_forM {run : Node → Action Unit} {statements : List Node}
    (hrun : ∀ node ∈ statements, Blind name (run node)) : Blind name (statements.forM run) where
  hides := commutes_forM fun node hmem => (hrun node hmem).hides
  keeps first rest := keepsScopes_forM fun node hmem => (hrun node hmem).keeps first rest

end Rules

/-! ## Trees that do not mention a variable -/

namespace Node

def isNamed (name : Name) : Node → Bool
  | token t => (Name.ofJson? t.lexeme).any (·.normal = name.normal)
  | _ => false

mutual
/-- Whether a variable is read, assigned or declared anywhere in a tree. -/
def mentions (name : Name) : Node → Bool
  | varRef target => target.isNamed name
  | assign target value => target.isNamed name || value.mentions name
  | varDecl target initializer => target.isNamed name || initializer.mentions name
  | grouping expression | exprStmt expression | printStmt expression => expression.mentions name
  | unary _ right => right.mentions name
  | binary left _ right => left.mentions name || right.mentions name
  | ifStmt condition thenBranch elseBranch =>
    condition.mentions name || thenBranch.mentions name || elseBranch.mentions name
  | whileStmt condition body => condition.mentions name || body.mentions name
  | program statements | block statements => mentionsAny name statements
  | absent | token _ | literal _ => false
def mentionsAny (name : Name) : List Node → Bool
  | [] => false
  | node :: rest => node.mentions name || mentionsAny name rest
end

theorem mentionsAny_eq_false_iff {name : Name} {statements : List Node} :
    mentionsAny name statements = false ↔ ∀ node ∈ statements, node.mentions name = false := by
  induction statements with
  | nil => simp [mentionsAny]
  | cons node rest ih => simp [mentionsAny, ih]

end Node

section Trees

variable {α : Type} {name : Name}

/-- What is done with a name that is not the hidden one. -/
theorem blind_nameIn_bind {node : Node} (hnode : node.isNamed name = false)
    {next : Token × Name → Action α}
    (hnext : ∀ t other, other.normal ≠ name.normal → Blind name (next (t, other))) :
    Blind name (nameIn node >>= next) := by
  cases node with
  | token t =>
    cases hname : Name.ofJson? t.lexeme with
    | none =>
      rw [nameIn_of_noName hname]
      exact blind_throw _
    | some other =>
      rw [nameIn_of_name hname, pure_bind]
      exact hnext t other (by simpa [Node.isNamed, hname] using hnode)
  | _ => exact blind_throw _

theorem blind_lookUp {node : Node} (hnode : node.isNamed name = false) :
    Blind name (lookUp node) := by
  refine blind_nameIn_bind hnode fun t other hother =>
    ⟨fun machine => ?_, fun _ _ machine honly => ?_⟩
  · change ((get : Action Machine) >>= _) (machine.without name) =
      mapped _ (((get : Action Machine) >>= _) machine)
    rw [get_bind, get_bind, Machine.without, Scopes.get?_without hother]
    cases machine.scopes.get? other <;> rfl
  · change Ends _ _ (((get : Action Machine) >>= _) machine)
    rw [get_bind]
    cases machine.scopes.get? other <;> exact honly

theorem blind_assign (setting : Setting) {node : Node} (hnode : node.isNamed name = false)
    (value : Value) : Blind name (assign setting node value) := by
  refine blind_nameIn_bind hnode fun t other hother =>
    ⟨fun machine => ?_, fun first rest machine honly => ?_⟩
  · change ((get : Action Machine) >>= _) (machine.without name) =
      mapped _ (((get : Action Machine) >>= _) machine)
    rw [get_bind, get_bind, Machine.without, Scopes.assign?_without hother]
    cases machine.scopes.assign? other value with
    | none => rfl
    | some scopes => exact (blind_trace setting 2 _).hides ⟨scopes, machine.log⟩
  · change Ends _ _ (((get : Action Machine) >>= _) machine)
    rw [get_bind]
    cases hassign : machine.scopes.assign? other value with
    | none => exact honly
    | some scopes =>
      have hkept : scopes.only name = first :: rest :=
        (Scopes.only_assign? hother hassign).trans honly
      exact (blind_trace setting 2 _).keeps first rest ⟨scopes, machine.log⟩ hkept

theorem blind_declare (setting : Setting) {node : Node} (hnode : node.isNamed name = false)
    (value : Value) : Blind name (declare setting node value) := by
  refine blind_nameIn_bind hnode fun t other hother =>
    Blind.bind ⟨fun machine => ?_, fun _ _ machine honly => ?_⟩ fun _ => blind_trace setting 2 _
  · change EStateM.Result.ok () (Machine.mk _ machine.log) = .ok () (Machine.mk _ machine.log)
    rw [← Scopes.define_without hother]
    rfl
  · exact Scopes.only_define hother honly

theorem blind_evaluate (setting : Setting) (limit : Nat) (node : Node)
    (hnode : node.mentions name = false) : Blind name (evaluate setting limit node) := by
  induction limit generalizing node with
  | zero => exact blind_throw .tooDeep
  | succ limit ih =>
    cases node with
    | literal value => exact (blind_pure value).traced setting _
    | grouping inner => exact (ih inner hnode).traced setting _
    | varRef target => exact (blind_lookUp hnode).traced setting _
    | assign target value =>
      obtain ⟨htarget, hvalue⟩ := Bool.or_eq_false_iff.1 hnode
      refine Blind.traced ((ih value hvalue).bind fun value => ?_) setting _
      exact (blind_assign setting htarget value).bind fun _ => blind_pure value
    | unary operator right =>
      refine Blind.traced ((ih right hnode).bind fun operand => ?_) setting _
      exact (blind_tokenIn "kind" operator).bind fun _ => blind_ofExcept _
    | binary left operator right =>
      obtain ⟨hleft, hright⟩ := Bool.or_eq_false_iff.1 hnode
      refine Blind.traced ((ih left hleft).bind fun _ => ?_) setting _
      refine (ih right hright).bind fun _ => ?_
      exact (blind_tokenIn "kind" operator).bind fun _ => blind_ofExcept _
    | _ => exact (blind_throw _).traced setting _

theorem blind_evaluateInitializer (setting : Setting) (limit : Nat) {node : Node}
    (hnode : node.mentions name = false) : Blind name (evaluateInitializer setting limit node) := by
  by_cases habsent : node = .absent
  · subst habsent
    exact blind_pure Value.nil
  · rw [evaluateInitializer_of_ne_absent setting limit habsent]
    exact blind_evaluate setting limit node hnode

theorem blind_blockBody {setting : Setting} {limit : Nat} {statements : List Node}
    (hstatements : ∀ node ∈ statements, Blind name (execute setting limit node)) :
    Blind name (blockBody setting limit statements) := by
  have hbody : ∀ depth : Nat, Blind name (do
      trace setting 3 fun _ => "enter block at depth " ++ toString depth
      statements.forM (execute setting limit)
      trace setting 3 fun _ => "leave block at depth " ++ toString depth) := fun depth =>
    (blind_trace _ _ _).bind fun _ => (blind_forM hstatements).bind fun _ => blind_trace _ _ _
  refine ⟨fun machine => ?_, fun first rest machine => ?_⟩
  · -- the depth is the number of scopes, whatever they bind
    have hdepth : (machine.without name).scopes.depth = machine.scopes.depth :=
      congrArg (· - 1) (List.length_map _)
    rw [blockBody, get_bind, get_bind, hdepth]
    exact (hbody machine.scopes.depth).hides machine
  · rw [blockBody, get_bind]
    exact (hbody machine.scopes.depth).keeps first rest machine

theorem blind_execute (setting : Setting) (limit : Nat) (node : Node)
    (hnode : node.mentions name = false) : Blind name (execute setting limit node) := by
  induction limit generalizing node with
  | zero => exact blind_throw .tooDeep
  | succ limit ih =>
    cases node with
    | exprStmt expression =>
      exact (blind_evaluate setting limit expression hnode).bind fun _ => blind_pure ()
    | printStmt expression =>
      exact (blind_evaluate setting limit expression hnode).bind fun _ => blind_note _
    | varDecl target initializer =>
      obtain ⟨htarget, hinitializer⟩ := Bool.or_eq_false_iff.1 hnode
      refine (blind_evaluateInitializer setting limit hinitializer).bind fun value => ?_
      exact blind_declare setting htarget value
    | block statements =>
      rw [execute_block]
      refine (blind_blockBody fun node hmem => ?_).inScope
      exact ih node (Node.mentionsAny_eq_false_iff.1 hnode node hmem)
    | ifStmt condition thenBranch elseBranch =>
      obtain ⟨hbefore, helse⟩ := Bool.or_eq_false_iff.1 hnode
      obtain ⟨hcondition, hthen⟩ := Bool.or_eq_false_iff.1 hbefore
      refine (blind_evaluate setting limit condition hcondition).bind fun value => ?_
      refine (blind_trace _ _ _).bind fun _ => ?_
      split
      · exact ih thenBranch hthen
      · split
        · exact blind_pure ()
        · exact ih elseBranch helse
    | whileStmt condition body =>
      obtain ⟨hcondition, hbody⟩ := Bool.or_eq_false_iff.1 hnode
      refine blind_repeatWhile ?_ (ih body hbody) setting.turns
      refine (blind_evaluate setting limit condition hcondition).bind fun value => ?_
      exact (blind_trace _ _ _).bind fun _ => blind_pure _
    | _ => exact blind_throw _

end Trees

/-! ## Programs -/

section Programs

variable {name : Name} {statements : List Node} (setting : Setting) (limit : Nat)
  (hname : Node.mentionsAny name statements = false)
include hname

theorem interpret_without (machine : Machine) :
    interpret setting limit statements (machine.without name) =
      ((interpret setting limit statements machine).1,
        (interpret setting limit statements machine).2.without name) := by
  refine interpret_mapped (fun node hmem => ?_) ?_ ?_ machine
  · exact (blind_execute setting limit node (Node.mentionsAny_eq_false_iff.1 hname node hmem)).hides
  · exact fun node machine => machine.without_trace name setting 1 _
  · exact fun error machine => machine.without_fail name setting error

theorem interpret_only (innermost : Bindings) (outer : Scopes) (log : List Event) :
    (interpret setting limit statements ⟨innermost :: outer, log⟩).2.scopes.only name =
      Scopes.only name (innermost :: outer) := by
  have hkeeps : ∀ node ∈ statements, KeepsScopes
      (fun scopes => scopes.only name = Scopes.only name (innermost :: outer))
      (execute setting limit node) := fun node hmem =>
    (blind_execute setting limit node (Node.mentionsAny_eq_false_iff.1 hname node hmem)).keeps _ _
  exact interpret_keeps hkeeps rfl

end Programs

/-- Take any statements, also trees that no parser built, a name that is not among their variables,
and two chains of scopes that differ in the bindings of that name alone: in its values or in the
scopes that bind it. Run from either of them, under any bounds on the nesting and on the turns of
loops, the statements end alike, also where a loop is given up after the same number of turns; the
same things happen in the same order; all other bindings end equal; and in each run every binding of
the name is what it was before. -/
theorem unmentioned_variable_plays_no_part (name : Name) (statements : List Node)
    (hname : Node.mentionsAny name statements = false) (setting : Setting) (limit : Nat)
    (innermost innermost' : Bindings) (outer outer' : Scopes) (log : List Event)
    (hscopes : Scopes.without name (innermost :: outer) =
      Scopes.without name (innermost' :: outer')) :
    (interpret setting limit statements ⟨innermost :: outer, log⟩).1 =
      (interpret setting limit statements ⟨innermost' :: outer', log⟩).1 ∧
    (interpret setting limit statements ⟨innermost :: outer, log⟩).2.log =
      (interpret setting limit statements ⟨innermost' :: outer', log⟩).2.log ∧
    (interpret setting limit statements ⟨innermost :: outer, log⟩).2.scopes.without name =
      (interpret setting limit statements ⟨innermost' :: outer', log⟩).2.scopes.without name ∧
    (interpret setting limit statements ⟨innermost :: outer, log⟩).2.scopes.only name =
      Scopes.only name (innermost :: outer) ∧
    (interpret setting limit statements ⟨innermost' :: outer', log⟩).2.scopes.only name =
      Scopes.only name (innermost' :: outer') := by
  have hsame : Machine.without name ⟨innermost :: outer, log⟩ =
      Machine.without name ⟨innermost' :: outer', log⟩ := congrArg (Machine.mk · log) hscopes
  have hruns := interpret_without setting limit hname ⟨innermost :: outer, log⟩
  rw [hsame, interpret_without setting limit hname, Prod.mk.injEq] at hruns
  obtain ⟨hending, hafter⟩ := hruns
  refine ⟨hending.symm, ?_, ?_, ?_, ?_⟩
  · exact (congrArg Machine.log hafter).symm
  · exact (congrArg Machine.scopes hafter).symm
  · exact interpret_only setting limit hname innermost outer log
  · exact interpret_only setting limit hname innermost' outer' log

/-- The trees of `var y = go; { while (y) { y = !y; print b; } print -y; }`. -/
def loopWithoutX : List Node :=
  let go : Node := .token ⟨.identifier, .str "go", .null, 1⟩
  let y : Node := .token ⟨.identifier, .str "y", .null, 1⟩
  let b : Node := .token ⟨.identifier, .str "b", .null, 1⟩
  let bang : Node := .token ⟨.bang, .str "!", .null, 1⟩
  let minus : Node := .token ⟨.minus, .str "-", .null, 1⟩
  [.varDecl y (.varRef go), .block [.whileStmt (.varRef y) (.block
      [.exprStmt (.assign y (.unary bang (.varRef y))), .printStmt (.varRef b)]),
    .printStmt (.unary minus (.varRef y))]]

/-- One of the chains binds `x` around the scope of the program, the other one in it. -/
theorem unmentioned_variable_plays_no_part_loopWithoutX :
    Node.mentionsAny (.text "x") loopWithoutX = false ∧
    (interpret ⟨0, 9⟩ 9 loopWithoutX
        ⟨[[(.text "go", .boolean true)], [(.text "x", .nil), (.text "b", .string "s")]], []⟩).2.log =
      (interpret ⟨0, 9⟩ 9 loopWithoutX ⟨[[(.text "x", .boolean false), (.text "go", .boolean true)],
        [(.text "b", .string "s")]], []⟩).2.log ∧
    (interpret ⟨0, 9⟩ 9 loopWithoutX ⟨[[(.text "x", .boolean false), (.text "go", .boolean true)],
        [(.text "b", .string "s")]], []⟩).2.scopes.only (.text "x") =
      [[(.text "x", .boolean false)], []] := by
  have hname : Node.mentionsAny (.text "x") loopWithoutX = false := by decide +kernel
  obtain ⟨-, hlog, -, -, honly⟩ := unmentioned_variable_plays_no_part (.text "x") loopWithoutX hname
    ⟨0, 9⟩ 9 [(.text "go", .boolean true)]
    [(.text "x", .boolean false), (.text "go", .boolean true)]
    [[(.text "x", .nil), (.text "b", .string "s")]] [[(.text "b", .string "s")]] [] rfl
  exact ⟨hname, hlog, honly⟩

end Lox
