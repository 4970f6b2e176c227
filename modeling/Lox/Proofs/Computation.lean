/-!
# Computations that may stop early

The parsers and the machine are computations with a state that either return a value or stop, and
keep the state in both cases. A bind of two computations is taken apart here once, so that no proof
about a parser or about a run unfolds the monad. What holds of every way in which a computation may
end is said by a triple, and what it never breaks by `Keeps`.
-/

namespace Lox.Computation

variable {ε σ α β : Type}

/-- A bind returns exactly when both of its parts do. -/
theorem bind_eq_ok {x : EStateM ε σ α} {f : α → EStateM ε σ β} {s s'' : σ} {b : β} :
    (x >>= f) s = .ok b s'' ↔ ∃ a s', x s = .ok a s' ∧ f a s' = .ok b s'' := by
  change EStateM.bind x f s = _ ↔ _
  unfold EStateM.bind
  cases x s with
  | ok a s' =>
    refine ⟨fun hf => ⟨a, s', rfl, hf⟩, ?_⟩
    rintro ⟨_, _, hx, hf⟩
    cases hx
    exact hf
  | error e s' => simp

theorem bind_of_ok {x : EStateM ε σ α} {s s' : σ} {a : α} (hx : x s = .ok a s')
    (f : α → EStateM ε σ β) : (x >>= f) s = f a s' := by
  change EStateM.bind x f s = _
  rw [EStateM.bind, hx]

theorem bind_of_error {x : EStateM ε σ α} {s s' : σ} {e : ε} (hx : x s = .error e s')
    (f : α → EStateM ε σ β) : (x >>= f) s = .error e s' := by
  change EStateM.bind x f s = _
  rw [EStateM.bind, hx]

@[simp] theorem get_bind (f : σ → EStateM ε σ β) (s : σ) :
    ((get : EStateM ε σ σ) >>= f) s = f s s := rfl

@[simp] theorem set_bind (f : PUnit → EStateM ε σ β) (s s' : σ) :
    ((set s' : EStateM ε σ PUnit) >>= f) s = f ⟨⟩ s' := rfl

@[simp] theorem pure_apply (a : α) (s : σ) : (pure a : EStateM ε σ α) s = .ok a s := rfl

/-! ## Triples -/

/-- What holds of a value and a state that were returned, or of a reason to stop and the state then. -/
def Ends (post : α → σ → Prop) (stop : ε → σ → Prop) : EStateM.Result ε σ α → Prop
  | .ok a s => post a s
  | .error e s => stop e s

/-- From every state with `pre`, a computation that returns ends with `post`, and one that stops ends
with `stop`. -/
def Triple (pre : σ → Prop) (x : EStateM ε σ α) (post : α → σ → Prop) (stop : ε → σ → Prop) :
    Prop :=
  ∀ s, pre s → Ends post stop (x s)

section Triple

variable {pre : σ → Prop} {x : EStateM ε σ α} {post : α → σ → Prop} {stop : ε → σ → Prop}

theorem Triple.ok {s s' : σ} {a : α} (h : Triple pre x post stop) (hpre : pre s)
    (hrun : x s = .ok a s') : post a s' := by
  have hend := h s hpre
  rwa [hrun] at hend

theorem Triple.error {s s' : σ} {e : ε} (h : Triple pre x post stop) (hpre : pre s)
    (hrun : x s = .error e s') : stop e s' := by
  have hend := h s hpre
  rwa [hrun] at hend

theorem Triple.bind {f : α → EStateM ε σ β} {final : β → σ → Prop} (hx : Triple pre x post stop)
    (hf : ∀ a, Triple (post a) (f a) final stop) : Triple pre (x >>= f) final stop := by
  intro s hpre
  cases hrun : x s with
  | ok a s' =>
    rw [bind_of_ok hrun]
    exact hf a s' (hx.ok hpre hrun)
  | error e s' =>
    rw [bind_of_error hrun]
    exact hx.error hpre hrun

theorem Triple.of_imp {p : Prop} (h : p → Triple pre x post stop) :
    Triple (fun s => p ∧ pre s) x post stop :=
  fun s hs => h hs.1 s hs.2

theorem Triple.mono {pre' : σ → Prop} {post' : α → σ → Prop} {stop' : ε → σ → Prop}
    (h : Triple pre x post stop) (hpre : ∀ s, pre' s → pre s) (hpost : ∀ a s, post a s → post' a s)
    (hstop : ∀ e s, stop e s → stop' e s) : Triple pre' x post' stop' := by
  intro s hs
  cases hrun : x s with
  | ok a s' => exact hpost a s' (h.ok (hpre s hs) hrun)
  | error e s' => exact hstop e s' (h.error (hpre s hs) hrun)

end Triple

/-- A computation keeps an invariant, whether it returns or stops. -/
def Keeps (inv : σ → Prop) (x : EStateM ε σ α) : Prop :=
  Triple inv x (fun _ => inv) (fun _ => inv)

theorem Keeps.bind {inv : σ → Prop} {x : EStateM ε σ α} {f : α → EStateM ε σ β}
    (hx : Keeps inv x) (hf : ∀ a, Keeps inv (f a)) : Keeps inv (x >>= f) :=
  Triple.bind hx hf

theorem keeps_pure {inv : σ → Prop} (a : α) : Keeps inv (pure a : EStateM ε σ α) :=
  fun _ hinv => hinv

theorem keeps_throw {inv : σ → Prop} (e : ε) : Keeps inv (throw e : EStateM ε σ α) :=
  fun _ hinv => hinv

end Lox.Computation
