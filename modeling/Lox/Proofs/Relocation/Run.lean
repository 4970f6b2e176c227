import Lox.Proofs.Relocation.Basic
import Lox.Proofs.Run.Steps
import Lox.Proofs.Scope.Site
import Lox.Run.Transcript

/-!
# Running further down

A run looks at lines only to tell where an error arose. So the trees of a program that stands some
lines further down do what the trees of the program itself do, whatever was logged before: the same
happens to the scopes, the same is printed, and the same errors are reported on later lines. Only
messages of the trace may differ, since they quote the errors, and are left out here.

The one error that does not simply move is that of a tree which nests too deeply, as it is reported
for the tree as a whole.
-/

namespace Lox

open Lox.Computation Lox.Action

/-! ## What a log shows -/

def Event.moved (lines : Int) : Event → Event
  | .reported error => .reported (error.moved lines)
  | other => other

/-- The events other than messages of the trace. -/
def shown (events : List Event) : List Event :=
  events.filter fun event => event.traced?.isNone

section Shown

variable {lines : Int} {events : List Event}

theorem shown_cons (event : Event) (events : List Event) :
    shown (event :: events) = shown [event] ++ shown events :=
  List.filter_append [event] events

theorem shown_reverse (events : List Event) : shown events.reverse = (shown events).reverse :=
  List.filter_reverse

theorem reportsOf_shown (events : List Event) : reportsOf (shown events) = reportsOf events := by
  rw [reportsOf, reportsOf, shown, List.filterMap_filter]
  refine congrArg (List.filterMap · events) (funext fun event => ?_)
  cases event <;> rfl

theorem outputOf_shown (events : List Event) : outputOf (shown events) = outputOf events := by
  rw [outputOf, outputOf, shown, List.filterMap_filter]
  refine congrArg (fun pick => linesOf (List.filterMap pick events)) (funext fun event => ?_)
  cases event <;> rfl

theorem reportsOf_moved (lines : Int) (events : List Event) :
    reportsOf (events.map (Event.moved lines)) = (reportsOf events).map (Diagnostic.moved lines) := by
  rw [reportsOf, reportsOf, List.filterMap_map, List.map_filterMap]
  refine congrArg (List.filterMap · events) (funext fun event => ?_)
  cases event <;> rfl

theorem outputOf_moved (lines : Int) (events : List Event) :
    outputOf (events.map (Event.moved lines)) = outputOf events := by
  rw [outputOf, outputOf, List.filterMap_map]
  refine congrArg (fun pick => linesOf (List.filterMap pick events)) (funext fun event => ?_)
  cases event <;> rfl

theorem reportsOf_append (first second : List Event) :
    reportsOf (first ++ second) = reportsOf first ++ reportsOf second :=
  List.filterMap_append

theorem reportsOf_map_reported (errors : List Diagnostic) :
    reportsOf (errors.map .reported) = errors := by
  rw [reportsOf, List.filterMap_map]
  exact List.filterMap_some

theorem outputOf_append (first second : List Event) :
    outputOf (first ++ second) = outputOf first ++ outputOf second := by
  rw [outputOf, outputOf, outputOf, List.filterMap_append, linesOf, linesOf, linesOf, List.map_append,
    String.join_append]

theorem Machine.shown_trace (setting : Setting) (level : Nat) (message : Unit → String)
    (machine : Machine) : shown (machine.trace setting level message).log = shown machine.log := by
  rw [Machine.trace]
  split <;> rfl

theorem Machine.shown_fail (setting : Setting) (error : RuntimeError) (machine : Machine) :
    shown (machine.fail setting error).log =
      .reported (.runtime error) :: shown machine.log := by
  rw [fail, note, shown_cons, shown_trace]
  rfl

end Shown

/-! ## Actions that do the same -/

def Halt.moved (lines : Int) : Halt → Halt
  | .error reason => .error (reason.moved lines)
  | other => other

/-- Two machines went on alike: their scopes are the same, and as many as before, and what one has
shown since then the other has shown for some lines further down. -/
structure Alike (lines : Int) (before before' after after' : Machine) : Prop where
  scopes : after'.scopes = after.scopes
  depth : after.scopes.length = before.scopes.length
  log : ∃ events, shown after.log = events ++ shown before.log ∧
    shown after'.log = events.map (Event.moved lines) ++ shown before'.log

section Alike

variable {lines : Int} {m m' m₁ m₁' m₂ m₂' : Machine}

theorem Alike.start (hscopes : m'.scopes = m.scopes) : Alike lines m m' m m' :=
  ⟨hscopes, rfl, [], rfl, rfl⟩

theorem Alike.trans (hfirst : Alike lines m m' m₁ m₁') (hsecond : Alike lines m₁ m₁' m₂ m₂') :
    Alike lines m m' m₂ m₂' where
  scopes := hsecond.scopes
  depth := hsecond.depth.trans hfirst.depth
  log := by
    obtain ⟨events, hlog, hlog'⟩ := hfirst.log
    obtain ⟨later, hlater, hlater'⟩ := hsecond.log
    refine ⟨later ++ events, ?_, ?_⟩
    · rw [hlater, hlog, List.append_assoc]
    · rw [hlater', hlog', List.map_append, List.append_assoc]

/-- Machines that have shown nothing since then. -/
theorem Alike.of_shown (hscopes : m₁'.scopes = m₁.scopes)
    (hdepth : m₁.scopes.length = m.scopes.length) (hlog : shown m₁.log = shown m.log)
    (hlog' : shown m₁'.log = shown m'.log) : Alike lines m m' m₁ m₁' :=
  ⟨hscopes, hdepth, [], hlog, hlog'⟩

theorem Alike.trace {setting : Setting} {level : Nat} {message message' : Unit → String}
    (hscopes : m'.scopes = m.scopes) :
    Alike lines m m' (m.trace setting level message) (m'.trace setting level message') := by
  refine .of_shown ?_ ?_ (Machine.shown_trace ..) (Machine.shown_trace ..)
  · rw [Machine.trace_scopes, Machine.trace_scopes, hscopes]
  · rw [Machine.trace_scopes]

theorem Alike.fail {setting : Setting} {error : RuntimeError} (hscopes : m'.scopes = m.scopes) :
    Alike lines m m' (m.fail setting error) (m'.fail setting (error.moved lines)) where
  scopes := by rw [Machine.fail_scopes, Machine.fail_scopes, hscopes]
  depth := by rw [Machine.fail_scopes]
  log := ⟨[.reported (.runtime error)], Machine.shown_fail .., Machine.shown_fail ..⟩

end Alike

/-- How two actions end that do the same from two machines on, the second one some lines further
down. -/
inductive EndAlike {α : Type} (lines : Int) (g : α → α) (before before' : Machine) :
    EStateM.Result Halt Machine α → EStateM.Result Halt Machine α → Prop where
  | ok {a : α} {after after' : Machine} (halike : Alike lines before before' after after') :
    EndAlike lines g before before' (.ok a after) (.ok (g a) after')
  | error {halt : Halt} {after after' : Machine}
    (halike : Alike lines before before' after after') :
    EndAlike lines g before before' (.error halt after) (.error (halt.moved lines) after')

/-- The second action does some lines further down what the first one does, from the same scopes and
whatever was logged before. -/
def Mirrors {α : Type} (lines : Int) (g : α → α) (action action' : Action α) : Prop :=
  ∀ machine machine', machine.scopes ≠ [] → machine'.scopes = machine.scopes →
    EndAlike lines g machine machine' (action machine) (action' machine')

section Rules

variable {α β : Type} {lines : Int} {g : α → α} {action action' : Action α}

theorem EndAlike.after {m m' m₁ m₁' : Machine} {result result' : EStateM.Result Halt Machine α}
    (hend : EndAlike lines g m₁ m₁' result result') (hfirst : Alike lines m m' m₁ m₁') :
    EndAlike lines g m m' result result' := by
  cases hend with
  | ok halike => exact .ok (hfirst.trans halike)
  | error halike => exact .error (hfirst.trans halike)

theorem Alike.scopes_ne_nil {m m' m₁ m₁' : Machine} (halike : Alike lines m m' m₁ m₁')
    (hsome : m.scopes ≠ []) : m₁.scopes ≠ [] := by
  rw [← List.length_pos_iff] at hsome ⊢
  rwa [halike.depth]

theorem Mirrors.bind {h : β → β} {next next' : α → Action β}
    (haction : Mirrors lines g action action')
    (hnext : ∀ a, Mirrors lines h (next a) (next' (g a))) :
    Mirrors lines h (action >>= next) (action' >>= next') := by
  intro m m' hsome hscopes
  have hend := haction m m' hsome hscopes
  generalize hrun : action m = result at hend
  generalize hrun' : action' m' = result' at hend
  cases hend with
  | ok halike =>
    rw [bind_of_ok hrun, bind_of_ok hrun']
    exact (hnext _ _ _ (halike.scopes_ne_nil hsome) halike.scopes).after halike
  | error halike =>
    rw [bind_of_error hrun, bind_of_error hrun']
    exact .error halike

theorem mirrors_pure (a : α) : Mirrors lines g (pure a) (pure (g a)) :=
  fun _ _ _ hscopes => .ok (.start hscopes)

theorem mirrors_throw (halt : Halt) :
    Mirrors lines g (throw halt : Action α) (throw (halt.moved lines)) :=
  fun _ _ _ hscopes => .error (.start hscopes)

theorem mirrors_trace {setting : Setting} {level : Nat} {message message' : Unit → String} :
    Mirrors lines id (trace setting level message) (trace setting level message') :=
  fun _ _ _ hscopes => .ok (.trace hscopes)

theorem mirrors_printed (text : String) :
    Mirrors lines id (modify (·.note (.printed text)) : Action Unit)
      (modify (·.note (.printed text))) :=
  fun _ _ _ hscopes => .ok ⟨hscopes, rfl, [.printed text], rfl, rfl⟩

theorem Mirrors.traced {setting : Setting} {node node' : Node} {evaluation evaluation' : Action Value}
    (hevaluation : Mirrors lines id evaluation evaluation') :
    Mirrors lines id (traced setting node evaluation) (traced setting node' evaluation') :=
  hevaluation.bind fun value => mirrors_trace.bind fun _ => mirrors_pure value

theorem Mirrors.inScope (haction : Mirrors lines g action action') :
    Mirrors lines g (inScope action) (inScope action') := by
  intro m m' _ hscopes
  have hend := haction { m with scopes := [] :: m.scopes } { m' with scopes := [] :: m'.scopes }
    (List.cons_ne_nil _ _) (by rw [hscopes])
  have hleave {after after' : Machine}
      (halike : Alike lines { m with scopes := [] :: m.scopes }
        { m' with scopes := [] :: m'.scopes } after after') :
      Alike lines m m' { after with scopes := after.scopes.tail }
        { after' with scopes := after'.scopes.tail } := by
    refine ⟨congrArg List.tail halike.scopes, ?_, halike.log⟩
    rw [List.length_tail, halike.depth]
    rfl
  rw [Action.inScope, Action.inScope]
  generalize action _ = result at hend
  generalize action' _ = result' at hend
  cases hend with
  | ok halike => exact .ok (hleave halike)
  | error halike => exact .error (hleave halike)

theorem mirrors_repeatWhile {condition condition' : Action Bool} {body body' : Action Unit}
    (hcondition : Mirrors lines id condition condition') (hbody : Mirrors lines id body body')
    (turns : Nat) :
    Mirrors lines id (repeatWhile condition body turns) (repeatWhile condition' body' turns) := by
  induction turns with
  | zero => exact mirrors_throw .outOfTurns
  | succ turns ih =>
    refine hcondition.bind fun holds => ?_
    cases holds with
    | true => exact hbody.bind fun _ => ih
    | false => exact mirrors_pure ()

theorem mirrors_forM {run : Node → Action Unit}
    (hrun : ∀ node, Mirrors lines id (run node) (run (node.moved lines))) (nodes : List Node) :
    Mirrors lines id (nodes.forM run) ((nodes.map (Node.moved lines)).forM run) := by
  induction nodes with
  | nil => exact mirrors_pure ()
  | cons node rest ih =>
    rw [List.map_cons, List.forM_eq_forM, List.forM_cons, List.forM_cons]
    exact (hrun node).bind fun _ => ih

end Rules

/-! ## Names and operators -/

section Tokens

variable {lines : Int}

theorem mirrors_tokenIn (part : String) (node : Node) :
    Mirrors lines (Token.moved lines) (tokenIn part node) (tokenIn part (node.moved lines)) := by
  cases node with
  | token t => exact mirrors_pure t
  | _ => exact mirrors_throw _

theorem mirrors_nameIn (node : Node) :
    Mirrors lines (Prod.map (Token.moved lines) id) (nameIn node) (nameIn (node.moved lines)) := by
  refine (mirrors_tokenIn "lexeme" node).bind fun t => ?_
  rw [Token.moved_lexeme]
  cases Name.ofJson? t.lexeme with
  | some name => exact mirrors_pure (t, name)
  | none => exact mirrors_throw _

theorem mirrors_lookUp (node : Node) :
    Mirrors lines id (lookUp node) (lookUp (node.moved lines)) := by
  refine (mirrors_nameIn node).bind fun (t, name) m m' hsome hscopes => ?_
  change EndAlike _ _ _ _ (((get : Action Machine) >>= _) m) (((get : Action Machine) >>= _) m')
  rw [get_bind, get_bind, hscopes]
  dsimp only [Prod.map, id]
  cases m.scopes.get? name with
  | some value => exact mirrors_pure value m m' hsome hscopes
  | none => exact mirrors_throw (.error (.undefinedVariable t)) m m' hsome hscopes

theorem mirrors_assign (setting : Setting) (node : Node) (value : Value) :
    Mirrors lines id (assign setting node value) (assign setting (node.moved lines) value) := by
  refine (mirrors_nameIn node).bind fun (t, name) m m' hsome hscopes => ?_
  change EndAlike _ _ _ _ (((get : Action Machine) >>= _) m) (((get : Action Machine) >>= _) m')
  rw [get_bind, get_bind, hscopes]
  dsimp only [Prod.map, id]
  cases hassign : m.scopes.assign? name value with
  | none => exact mirrors_throw (.error (.undefinedVariable t)) m m' hsome hscopes
  | some scopes =>
    have hset : Alike lines m m' { m with scopes } { m' with scopes } :=
      .of_shown rfl (Scopes.length_assign? hassign) rfl rfl
    exact (mirrors_trace _ _ (hset.scopes_ne_nil hsome) hset.scopes).after hset

theorem mirrors_declare (setting : Setting) (node : Node) (value : Value) :
    Mirrors lines id (declare setting node value) (declare setting (node.moved lines) value) := by
  refine (mirrors_nameIn node).bind fun (t, name) m m' hsome hscopes => ?_
  have hset : Alike lines m m' { m with scopes := m.scopes.define name value }
      { m' with scopes := m'.scopes.define name value } := by
    refine .of_shown (by rw [hscopes]) ?_ rfl rfl
    cases hm : m.scopes with
    | nil => exact absurd hm hsome
    | cons innermost outer => rfl
  exact (mirrors_trace _ _ (hset.scopes_ne_nil hsome) hset.scopes).after hset

theorem mirrors_ofExcept {answer answer' : Except RuntimeError Value}
    (hanswer : answer' = answer.mapError (RuntimeError.moved lines)) :
    Mirrors lines id (ofExcept answer) (ofExcept answer') := by
  rw [hanswer]
  cases answer with
  | ok value => exact mirrors_pure value
  | error error => exact mirrors_throw (.error error)

theorem applyUnary_moved (operator : Token) (operand : Value) :
    applyUnary (operator.moved lines) operand =
      (applyUnary operator operand).mapError (RuntimeError.moved lines) := by
  unfold applyUnary
  rw [Token.moved_kind]
  cases operator.kind <;> cases operand <;> rfl

theorem applyArithmetic_moved (operator : Token) (x y : Float) :
    applyArithmetic (operator.moved lines) x y =
      (applyArithmetic operator x y).mapError (RuntimeError.moved lines) := by
  rw [applyArithmetic, applyArithmetic, Token.moved_kind]
  cases operator.kind <;> dsimp only <;> try split
  all_goals rfl

theorem applyPlus_moved (operator : Token) (left right : Value) :
    applyPlus (operator.moved lines) left right =
      (applyPlus operator left right).mapError (RuntimeError.moved lines) := by
  cases left <;> cases right <;> rfl

theorem applyBinary_moved (operator : Token) (left right : Value) :
    applyBinary (operator.moved lines) left right =
      (applyBinary operator left right).mapError (RuntimeError.moved lines) := by
  unfold applyBinary
  rw [Token.moved_kind, applyPlus_moved]
  split
  · rfl
  · rfl
  · rfl
  · split
    · exact applyArithmetic_moved ..
    · rfl

end Tokens

/-! ## Expressions and statements -/

section Trees

variable {lines : Int} (setting : Setting)

theorem mirrors_evaluate (limit : Nat) (node : Node) :
    Mirrors lines id (evaluate setting limit node) (evaluate setting limit (node.moved lines)) := by
  induction limit generalizing node with
  | zero => exact mirrors_throw .tooDeep
  | succ limit ih =>
    cases node with
    | literal value => exact (mirrors_pure value).traced
    | grouping inner => exact (ih inner).traced
    | varRef name => exact (mirrors_lookUp name).traced
    | assign name value =>
      refine Mirrors.traced ((ih value).bind fun value => ?_)
      exact (mirrors_assign setting name value).bind fun _ => mirrors_pure value
    | unary operator right =>
      refine Mirrors.traced ((ih right).bind fun operand => ?_)
      refine (mirrors_tokenIn "kind" operator).bind fun operator => ?_
      exact mirrors_ofExcept (applyUnary_moved operator operand)
    | binary left operator right =>
      refine Mirrors.traced ((ih left).bind fun left => (ih right).bind fun right => ?_)
      refine (mirrors_tokenIn "kind" operator).bind fun operator => ?_
      exact mirrors_ofExcept (applyBinary_moved operator left right)
    | _ => exact Mirrors.traced (mirrors_throw _)

theorem mirrors_evaluateInitializer (limit : Nat) (node : Node) :
    Mirrors lines id (evaluateInitializer setting limit node)
      (evaluateInitializer setting limit (node.moved lines)) := by
  by_cases hnode : node = .absent
  · subst hnode
    exact mirrors_pure Value.nil
  · have hmoved : node.moved lines ≠ .absent := by rwa [Ne, Node.moved_eq_absent]
    rw [evaluateInitializer_of_ne_absent setting limit hnode,
      evaluateInitializer_of_ne_absent setting limit hmoved]
    exact mirrors_evaluate setting limit node

theorem mirrors_execute (limit : Nat) (node : Node) :
    Mirrors lines id (execute setting limit node) (execute setting limit (node.moved lines)) := by
  induction limit generalizing node with
  | zero => exact mirrors_throw .tooDeep
  | succ limit ih =>
    cases node with
    | exprStmt expression =>
      exact (mirrors_evaluate setting limit expression).bind fun _ => mirrors_pure ()
    | printStmt expression =>
      exact (mirrors_evaluate setting limit expression).bind fun value => mirrors_printed value.display
    | varDecl name initializer =>
      refine (mirrors_evaluateInitializer setting limit initializer).bind fun value => ?_
      exact mirrors_declare setting name value
    | block statements =>
      rw [Node.moved, Node.movedAll_eq_map, execute_block, execute_block]
      refine Mirrors.inScope fun m m' hsome hscopes => ?_
      rw [blockBody, blockBody, get_bind, get_bind]
      refine (mirrors_trace.bind fun _ => ?_) m m' hsome hscopes
      exact (mirrors_forM ih statements).bind fun _ => mirrors_trace
    | ifStmt condition thenBranch elseBranch =>
      refine (mirrors_evaluate setting limit condition).bind fun value => ?_
      refine mirrors_trace.bind fun _ => ?_
      dsimp only [id]
      split
      · exact ih thenBranch
      · cases elseBranch with
        | absent => exact mirrors_pure ()
        | _ => exact ih _
    | whileStmt condition body =>
      refine mirrors_repeatWhile ?_ (ih body) setting.turns
      refine (mirrors_evaluate setting limit condition).bind fun value => ?_
      exact mirrors_trace.bind fun _ => mirrors_pure value.isTruthy
    | _ => exact mirrors_throw _

end Trees

/-! ## Programs -/

/-- One machine comes after another one: it has as many scopes and takes back nothing that was
shown. -/
structure Machine.Extends (before after : Machine) : Prop where
  depth : after.scopes.length = before.scopes.length
  log : shown before.log <:+ shown after.log

section Programs

variable (setting : Setting) (limit : Nat) (lines : Int) (node : Node) {m m' : Machine}

theorem topStatement_ne_finished : (topStatement setting limit node m).2 ≠ some .finished := by
  rw [topStatement]
  split <;> simp

theorem Machine.Extends.trans {m₁ m₂ m₃ : Machine} (hfirst : m₁.Extends m₂)
    (hsecond : m₂.Extends m₃) : m₁.Extends m₃ :=
  ⟨hsecond.depth.trans hfirst.depth, hfirst.log.trans hsecond.log⟩

variable {lines} in
theorem Alike.extends {after after' : Machine} (halike : Alike lines m m' after after') :
    m.Extends after := by
  obtain ⟨events, hlog, -⟩ := halike.log
  exact ⟨halike.depth, events, hlog.symm⟩

theorem Machine.Extends.scopes_ne_nil {after : Machine} (hextends : m.Extends after)
    (hsome : m.scopes ≠ []) : after.scopes ≠ [] := by
  rw [← List.length_pos_iff] at hsome ⊢
  rwa [hextends.depth]

theorem Machine.extends_fail (error : RuntimeError) (machine : Machine) :
    machine.Extends (machine.fail setting error) := by
  have halike : Alike 0 machine machine (machine.fail setting error) _ := .fail rfl
  exact halike.extends

/-- From the start of a statement on, before its end is looked at. -/
theorem mirrors_topStatement (hsome : m.scopes ≠ []) (hscopes : m'.scopes = m.scopes) :
    EndAlike lines id m m'
      (execute setting limit node (m.trace setting 1 fun _ => "execute " ++ node.typeName))
      (execute setting limit (node.moved lines)
        (m'.trace setting 1 fun _ => "execute " ++ (node.moved lines).typeName)) := by
  have hstart : Alike lines m m' (m.trace setting 1 fun _ => "execute " ++ node.typeName)
      (m'.trace setting 1 fun _ => "execute " ++ (node.moved lines).typeName) := .trace hscopes
  exact (mirrors_execute setting limit node _ _ (hstart.scopes_ne_nil hsome) hstart.scopes).after
    hstart

theorem topStatement_extends (hsome : m.scopes ≠ []) :
    m.Extends (topStatement setting limit node m).1 := by
  have hend := mirrors_topStatement setting limit 0 node hsome rfl
  rw [topStatement]
  generalize execute setting limit node _ = result at hend
  generalize execute setting limit (node.moved 0) _ = result' at hend
  cases hend with
  | ok halike => exact halike.extends
  | @error halt _ _ halike =>
    cases halt with
    | error error => exact halike.extends.trans (Machine.extends_fail ..)
    | tooDeep => exact halike.extends.trans (Machine.extends_fail ..)
    | fault fault => exact halike.extends
    | outOfTurns => exact halike.extends

theorem topStatement_moved (hsome : m.scopes ≠ []) (hscopes : m'.scopes = m.scopes)
    (hdeep : .reported (.runtime (.nestingTooDeep node.line)) ∉
      shown (topStatement setting limit node m).1.log) :
    (topStatement setting limit (node.moved lines) m').2 = (topStatement setting limit node m).2 ∧
      Alike lines m m' (topStatement setting limit node m).1
        (topStatement setting limit (node.moved lines) m').1 := by
  have hend := mirrors_topStatement setting limit lines node hsome hscopes
  rw [topStatement] at hdeep
  rw [topStatement, topStatement]
  generalize execute setting limit node _ = result at hend hdeep
  generalize execute setting limit (node.moved lines) _ = result' at hend
  cases hend with
  | ok halike => exact ⟨rfl, halike⟩
  | @error halt _ _ halike =>
    cases halt with
    | error error => exact ⟨rfl, halike.trans (.fail halike.scopes)⟩
    | tooDeep => simp [Machine.shown_fail] at hdeep
    | fault fault => exact ⟨rfl, halike⟩
    | outOfTurns => exact ⟨rfl, halike⟩

theorem interpret_extends (statements : List Node) (hsome : m.scopes ≠ []) :
    m.Extends (interpret setting limit statements m).2 := by
  induction statements generalizing m with
  | nil => exact ⟨rfl, List.suffix_rfl⟩
  | cons node rest ih =>
    have hstep := topStatement_extends setting limit node hsome
    rw [interpret]
    generalize topStatement setting limit node m = step at hstep
    obtain ⟨after, ending⟩ := step
    cases ending with
    | none => exact hstep.trans (ih (hstep.scopes_ne_nil hsome))
    | some ending => exact hstep

/-- A program some lines further down does what the program does, if its nesting is not too deep. -/
theorem interpret_moved {statements : List Node} (hsome : m.scopes ≠ [])
    (hscopes : m'.scopes = m.scopes)
    (hdeep : ∀ line, .reported (.runtime (.nestingTooDeep line)) ∉
      shown (interpret setting limit statements m).2.log) :
    (interpret setting limit (statements.map (Node.moved lines)) m').1 =
        (interpret setting limit statements m).1 ∧
      Alike lines m m' (interpret setting limit statements m).2
        (interpret setting limit (statements.map (Node.moved lines)) m').2 := by
  induction statements generalizing m m' with
  | nil => exact ⟨rfl, .start hscopes⟩
  | cons node rest ih =>
    have hstep := topStatement_moved setting limit lines node hsome hscopes
    have hextends := topStatement_extends setting limit node hsome
    rw [List.map_cons, interpret, interpret]
    rw [interpret] at hdeep
    generalize topStatement setting limit node m = step at hstep hextends hdeep
    generalize topStatement setting limit (node.moved lines) m' = step' at hstep
    obtain ⟨after, ending⟩ := step
    obtain ⟨after', ending'⟩ := step'
    dsimp only at hstep hextends
    have hsome' := hextends.scopes_ne_nil hsome
    cases ending with
    | none =>
      -- what the statement reported is still there at the end
      have hlog := (interpret_extends setting limit rest hsome').log
      obtain ⟨rfl, halike⟩ := hstep fun hmem => hdeep _ (hlog.subset hmem)
      obtain ⟨hending, hrest⟩ := ih hsome' halike.scopes hdeep
      exact ⟨hending, halike.trans hrest⟩
    | some ending =>
      obtain ⟨rfl, halike⟩ := hstep (hdeep _)
      exact ⟨rfl, halike⟩

theorem interpret_append {first second : List Node}
    (hfirst : (interpret setting limit first m).1 = .finished) :
    interpret setting limit (first ++ second) m =
      interpret setting limit second (interpret setting limit first m).2 := by
  induction first generalizing m with
  | nil => rfl
  | cons node rest ih =>
    rw [interpret] at hfirst
    rw [List.cons_append, interpret, interpret]
    have hgoes := topStatement_ne_finished setting limit node (m := m)
    generalize topStatement setting limit node m = step at hfirst hgoes
    obtain ⟨after, ending⟩ := step
    cases ending with
    | none => exact ih hfirst
    | some ending => exact absurd (congrArg some hfirst) hgoes

end Programs

end Lox
