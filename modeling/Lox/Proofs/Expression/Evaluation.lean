import Lox.Proofs.Relocation.Run
import Lox.Proofs.Run.Safety

/-!
# Evaluating an expression twice

What an expression of a source text is worth, and what it assigns on the way, is a matter of the
scopes alone. The log before it makes no difference, nothing is printed or reported while it is
evaluated, and one more level of nesting changes nothing unless the nesting was found too deep. So
two evaluations from the same scopes, the second one with more room, end together: with the same
value or the same error of the language, and with the same scopes (`Agree`).

The scopes may hold any data, also what only a tree file can bring in. A property of all their
values that every value of the language has, too, is one of the result.
-/

namespace Lox

open Lox.Computation Lox.Action

/-! ## Values of scopes -/

def Scopes.All (holds : Value → Prop) (scopes : Scopes) : Prop :=
  ∀ bindings ∈ scopes, ∀ entry ∈ bindings, holds entry.2

section Values

variable {holds : Value → Prop} {scopes : Scopes} {name : Name} {value : Value}

theorem Scopes.All.get? (hscopes : scopes.All holds) (hget : scopes.get? name = some value) :
    holds value := by
  obtain ⟨bindings, hmem, hget⟩ := List.exists_of_findSome?_eq_some hget
  obtain ⟨entry, hfind, rfl⟩ := Option.map_eq_some_iff.1 hget
  exact hscopes bindings hmem entry (List.mem_of_find?_eq_some hfind)

theorem Bindings.mem_put {bindings : Bindings} {entry : Name × Value}
    (hmem : entry ∈ bindings.put name value) : entry.2 = value ∨ entry ∈ bindings := by
  induction bindings with
  | nil =>
    rw [put, List.mem_singleton] at hmem
    exact .inl (by rw [hmem])
  | cons first rest ih =>
    rw [put] at hmem
    split at hmem
    · rcases List.mem_cons.1 hmem with rfl | hmem
      · exact .inl rfl
      · exact .inr (List.mem_cons_of_mem _ hmem)
    · rcases List.mem_cons.1 hmem with rfl | hmem
      · exact .inr List.mem_cons_self
      · exact (ih hmem).imp_right (List.mem_cons_of_mem _)

theorem Scopes.All.assign? {after : Scopes} (hscopes : scopes.All holds) (hvalue : holds value)
    (hassign : scopes.assign? name value = some after) : after.All holds := by
  induction scopes generalizing after with
  | nil => cases hassign
  | cons innermost outer ih =>
    obtain ⟨hinnermost, houter⟩ := List.forall_mem_cons.1 hscopes
    rw [Scopes.assign?] at hassign
    split at hassign
    · cases hassign
      refine List.forall_mem_cons.2 ⟨fun entry hmem => ?_, houter⟩
      rcases Bindings.mem_put hmem with hput | hmem
      · rwa [hput]
      · exact hinnermost entry hmem
    · obtain ⟨outer', houter', rfl⟩ := Option.map_eq_some_iff.1 hassign
      exact List.forall_mem_cons.2 ⟨hinnermost, ih houter houter'⟩

end Values

/-! ## Ending together -/

/-- Two machines went on together: their scopes are the same and hold what they should, and neither
has shown anything since then. -/
structure Together (holds : Value → Prop) (before before' after after' : Machine) : Prop where
  scopes : after'.scopes = after.scopes
  values : after.scopes.All holds
  log : shown after.log = shown before.log
  log' : shown after'.log = shown before'.log

/-- How two evaluations end from two machines on: both with one value or with one error of the
language, or the first one because its nesting is too deep, without having shown anything. -/
inductive EndTogether {α : Type} (holds : Value → Prop) (result : α → Prop)
    (before before' : Machine) :
    EStateM.Result Halt Machine α → EStateM.Result Halt Machine α → Prop where
  | ok {a : α} {after after' : Machine} (ha : result a)
    (hafter : Together holds before before' after after') :
    EndTogether holds result before before' (.ok a after) (.ok a after')
  | error {error : RuntimeError} {after after' : Machine}
    (hafter : Together holds before before' after after') :
    EndTogether holds result before before' (.error (.error error) after)
      (.error (.error error) after')
  | tooDeep {after : Machine} {other : EStateM.Result Halt Machine α}
    (hlog : shown after.log = shown before.log) :
    EndTogether holds result before before' (.error .tooDeep after) other

/-- From the same scopes, whatever was logged before, two actions end together. -/
def Agree {α : Type} (holds : Value → Prop) (result : α → Prop) (action action' : Action α) :
    Prop :=
  ∀ m m', m.scopes.All holds → m'.scopes = m.scopes →
    EndTogether holds result m m' (action m) (action' m')

section Rules

variable {α β : Type} {holds : Value → Prop} {result : α → Prop} {m m' m₁ m₁' m₂ m₂' : Machine}

theorem Together.start (hvalues : m.scopes.All holds) (hscopes : m'.scopes = m.scopes) :
    Together holds m m' m m' :=
  ⟨hscopes, hvalues, rfl, rfl⟩

theorem Together.trans (hfirst : Together holds m m' m₁ m₁')
    (hsecond : Together holds m₁ m₁' m₂ m₂') : Together holds m m' m₂ m₂' :=
  ⟨hsecond.scopes, hsecond.values, hsecond.log.trans hfirst.log, hsecond.log'.trans hfirst.log'⟩

theorem Together.trace {setting : Setting} {level : Nat} {message message' : Unit → String}
    (hvalues : m.scopes.All holds) (hscopes : m'.scopes = m.scopes) :
    Together holds m m' (m.trace setting level message) (m'.trace setting level message') where
  scopes := by rw [Machine.trace_scopes, Machine.trace_scopes, hscopes]
  values := by rwa [Machine.trace_scopes]
  log := Machine.shown_trace ..
  log' := Machine.shown_trace ..

theorem EndTogether.after {end₁ end₂ : EStateM.Result Halt Machine α}
    (hend : EndTogether holds result m₁ m₁' end₁ end₂) (hfirst : Together holds m m' m₁ m₁') :
    EndTogether holds result m m' end₁ end₂ := by
  cases hend with
  | ok ha hafter => exact .ok ha (hfirst.trans hafter)
  | error hafter => exact .error (hfirst.trans hafter)
  | tooDeep hlog => exact .tooDeep (hlog.trans hfirst.log)

theorem Agree.bind {result' : β → Prop} {action action' : Action α} {next next' : α → Action β}
    (haction : Agree holds result action action')
    (hnext : ∀ a, result a → Agree holds result' (next a) (next' a)) :
    Agree holds result' (action >>= next) (action' >>= next') := by
  intro m m' hvalues hscopes
  have hend := haction m m' hvalues hscopes
  generalize hrun : action m = end₁ at hend
  generalize hrun' : action' m' = end₂ at hend
  cases hend with
  | ok ha hafter =>
    rw [bind_of_ok hrun, bind_of_ok hrun']
    exact (hnext _ ha _ _ hafter.values hafter.scopes).after hafter
  | error hafter =>
    rw [bind_of_error hrun, bind_of_error hrun']
    exact .error hafter
  | tooDeep hlog =>
    rw [bind_of_error hrun]
    exact .tooDeep hlog

theorem agree_pure {a : α} (ha : result a) : Agree holds result (pure a) (pure a) :=
  fun _ _ hvalues hscopes => .ok ha (.start hvalues hscopes)

theorem agree_error (error : RuntimeError) :
    Agree holds result (throw (.error error) : Action α) (throw (.error error)) :=
  fun _ _ hvalues hscopes => .error (.start hvalues hscopes)

theorem agree_trace {setting : Setting} {level : Nat} {message : Unit → String} :
    Agree holds (fun _ => True) (trace setting level message) (trace setting level message) :=
  fun _ _ hvalues hscopes => .ok trivial (.trace hvalues hscopes)

end Rules

/-! ## Expressions -/

section Expressions

variable {holds : Value → Prop} {setting : Setting}

theorem Agree.traced {node : Node} {evaluation evaluation' : Action Value}
    (hevaluation : Agree holds holds evaluation evaluation') :
    Agree holds holds (traced setting node evaluation) (traced setting node evaluation') :=
  hevaluation.bind fun _ hvalue => agree_trace.bind fun _ _ => agree_pure hvalue

theorem agree_lookUp {t : Token} (ht : t.Spelled) :
    Agree holds holds (lookUp (.token t)) (lookUp (.token t)) := by
  obtain ⟨name, hname⟩ := ht.name
  intro m m' hvalues hscopes
  rw [lookUp_of_name hname, lookUp_of_name hname, hscopes]
  cases hget : m.scopes.get? name with
  | some value => exact .ok (hvalues.get? hget) (.start hvalues hscopes)
  | none => exact .error (.start hvalues hscopes)

theorem agree_assign {t : Token} (ht : t.Spelled) {value : Value} (hvalue : holds value) :
    Agree holds (fun _ => True) (assign setting (.token t) value)
      (assign setting (.token t) value) := by
  obtain ⟨name, hname⟩ := ht.name
  intro m m' hvalues hscopes
  rw [assign_of_name setting hname, assign_of_name setting hname, hscopes]
  cases hassign : m.scopes.assign? name value with
  | none => exact .error (.start hvalues hscopes)
  | some scopes =>
    have hset : Together holds m m' { m with scopes } { m' with scopes } :=
      ⟨rfl, hvalues.assign? hvalue hassign, rfl, rfl⟩
    exact .ok trivial (hset.trans (.trace hset.values hset.scopes))

theorem agree_ofExcept (hproper : ∀ value : Value, value.isProper = true → holds value)
    {answer : Except RuntimeError Value} (hanswer : Answers answer) :
    Agree holds holds (ofExcept answer) (ofExcept answer) := by
  cases answer with
  | ok value => exact agree_pure (hproper value hanswer)
  | error error => exact agree_error error

/-- An expression of a source text, with a level of nesting more and without it. -/
theorem agree_evaluate (hproper : ∀ value : Value, value.isProper = true → holds value)
    (limit : Nat) {node : Node} (hnode : node.IsExpr Token.Spelled (Value.isProper · = true)) :
    Agree holds holds (evaluate setting limit node) (evaluate setting (limit + 1) node) := by
  induction limit generalizing node with
  | zero => exact fun _ _ _ _ => .tooDeep rfl
  | succ limit ih =>
    cases hnode with
    | @literal value hvalue =>
      rw [evaluate_literal, evaluate_literal]
      exact (agree_pure (hproper value hvalue)).traced
    | grouping hinner =>
      rw [evaluate_grouping, evaluate_grouping]
      exact (ih hinner).traced
    | varRef _ ht =>
      rw [evaluate_varRef, evaluate_varRef]
      exact (agree_lookUp ht).traced
    | assign _ ht hvalue =>
      rw [evaluate_assign, evaluate_assign]
      refine ((ih hvalue).bind fun value hholds => ?_).traced
      exact (agree_assign ht hholds).bind fun _ _ => agree_pure hholds
    | unary hkind _ hright =>
      rw [evaluate_unary, evaluate_unary]
      refine ((ih hright).bind fun operand _ => ?_).traced
      exact agree_ofExcept hproper (answers_applyUnary hkind operand)
    | binary hkind _ hleft hright =>
      rw [evaluate_binary, evaluate_binary]
      refine ((ih hleft).bind fun left _ => (ih hright).bind fun right _ => ?_).traced
      exact agree_ofExcept hproper (answers_applyBinary hkind left right)

end Expressions

end Lox
