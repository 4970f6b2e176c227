import Lox.Proofs.Run.Steps

/-!
# Runs of mapped machines

Two runs are compared through a map of machines that forgets what they may differ in. An action
commutes with the map if it does to a mapped machine what it does to the machine itself, and the two
sides may be different actions if the map hides what one of them does more. All ways of putting
actions together preserve this, so it has to be shown for the smallest actions only.
-/

namespace Lox

open Lox.Computation Lox.Action

/-- How an action ends, with the machine mapped. -/
def mapped {α : Type} (f : Machine → Machine) :
    EStateM.Result Halt Machine α → EStateM.Result Halt Machine α
  | .ok a machine => .ok a (f machine)
  | .error halt machine => .error halt (f machine)

/-- What the first action does to a mapped machine is what the second one does to the machine itself,
mapped afterwards. -/
def Commutes {α : Type} (f : Machine → Machine) (action action' : Action α) : Prop :=
  ∀ machine, action (f machine) = mapped f (action' machine)

section Rules

variable {α β : Type} {f : Machine → Machine} {action action' : Action α}

theorem Commutes.bind {next next' : α → Action β} (haction : Commutes f action action')
    (hnext : ∀ a, Commutes f (next a) (next' a)) :
    Commutes f (action >>= next) (action' >>= next') := by
  intro machine
  have hfirst := haction machine
  cases hrun : action' machine with
  | ok a after =>
    rw [hrun] at hfirst
    rw [bind_of_ok hfirst, bind_of_ok hrun]
    exact hnext a after
  | error halt after =>
    rw [hrun] at hfirst
    rw [bind_of_error hfirst, bind_of_error hrun]
    rfl

theorem commutes_pure (a : α) : Commutes f (pure a) (pure a) :=
  fun _ => rfl

theorem commutes_throw (halt : Halt) : Commutes f (throw halt : Action α) (throw halt) :=
  fun _ => rfl

/-- A map that acts on each scope of a machine by itself commutes with what is done in a scope of its
own. -/
theorem Commutes.inScope (haction : Commutes f action action')
    (hpush : ∀ machine : Machine, f { machine with scopes := [] :: machine.scopes } =
      { f machine with scopes := [] :: (f machine).scopes })
    (hpop : ∀ machine : Machine, f { machine with scopes := machine.scopes.tail } =
      { f machine with scopes := (f machine).scopes.tail }) :
    Commutes f (inScope action) (inScope action') := by
  intro machine
  have hinside := haction { machine with scopes := [] :: machine.scopes }
  rw [hpush] at hinside
  rw [Action.inScope, Action.inScope, hinside]
  cases action' { machine with scopes := [] :: machine.scopes } with
  | ok a after => exact congrArg (EStateM.Result.ok a) (hpop after).symm
  | error halt after => exact congrArg (EStateM.Result.error halt) (hpop after).symm

theorem commutes_repeatWhile {condition condition' : Action Bool} {body body' : Action Unit}
    (hcondition : Commutes f condition condition') (hbody : Commutes f body body') (count : Nat) :
    Commutes f (repeatWhile condition body count) (repeatWhile condition' body' count) := by
  induction count with
  | zero => exact commutes_throw .outOfTurns
  | succ count ih =>
    refine hcondition.bind fun holds => ?_
    cases holds with
    | true => exact hbody.bind fun _ => ih
    | false => exact commutes_pure ()

theorem commutes_forM {run run' : Node → Action Unit} {nodes : List Node}
    (hrun : ∀ node ∈ nodes, Commutes f (run node) (run' node)) :
    Commutes f (nodes.forM run) (nodes.forM run') := by
  induction nodes with
  | nil => exact commutes_pure ()
  | cons node rest ih =>
    obtain ⟨hnode, hrest⟩ := List.forall_mem_cons.1 hrun
    rw [List.forM_eq_forM, List.forM_cons, List.forM_cons]
    exact hnode.bind fun _ => ih hrest

theorem commutes_tokenIn (part : String) (node : Node) :
    Commutes f (tokenIn part node) (tokenIn part node) := by
  cases node with
  | token t => exact commutes_pure t
  | _ => exact commutes_throw _

theorem commutes_nameIn (node : Node) : Commutes f (nameIn node) (nameIn node) := by
  refine (commutes_tokenIn "lexeme" node).bind fun t => ?_
  cases Name.ofJson? t.lexeme with
  | some name => exact commutes_pure (t, name)
  | none => exact commutes_throw _

theorem commutes_ofExcept (answer : Except RuntimeError α) :
    Commutes f (ofExcept answer) (ofExcept answer) := by
  cases answer with
  | ok value => exact commutes_pure value
  | error error => exact commutes_throw _

end Rules

/-- A run of statements commutes with a map if each of them does and if beginning and failing do. -/
theorem interpret_mapped {f : Machine → Machine} {setting setting' : Setting} {limit : Nat}
    {statements : List Node}
    (hexecute : ∀ node ∈ statements,
      Commutes f (execute setting limit node) (execute setting' limit node))
    (hstart : ∀ (node : Node) (machine : Machine),
      (f machine).trace setting 1 (fun _ => "execute " ++ node.typeName) =
        f (machine.trace setting' 1 fun _ => "execute " ++ node.typeName))
    (hfail : ∀ (error : RuntimeError) (machine : Machine),
      (f machine).fail setting error = f (machine.fail setting' error)) (machine : Machine) :
    interpret setting limit statements (f machine) =
      ((interpret setting' limit statements machine).1,
        f (interpret setting' limit statements machine).2) := by
  induction statements generalizing machine with
  | nil => rfl
  | cons node rest ih =>
    obtain ⟨hnode, hrest⟩ := List.forall_mem_cons.1 hexecute
    rw [interpret, interpret, topStatement, topStatement, hstart, hnode]
    cases execute setting' limit node _ with
    | ok _ after => exact ih hrest after
    | error halt after =>
      cases halt with
      | error error =>
        change interpret setting limit rest ((f after).fail setting error) = _
        rw [hfail]
        exact ih hrest _
      | tooDeep =>
        change interpret setting limit rest ((f after).fail setting (.nestingTooDeep node.line)) = _
        rw [hfail]
        exact ih hrest _
      | fault fault => rfl
      | outOfTurns => rfl

end Lox
