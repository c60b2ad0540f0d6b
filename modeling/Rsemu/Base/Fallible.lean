import Mathlib.Logic.Basic

/-!
# Computations that may fail

A computation over a state that may throw, and two judgements about it that compose along
`bind`. `Ensures` is about one computation: whatever it returns is as said. `Sim` is about
two, over states of their own: from related states either both throw the same error, or both
return, with values and states that are related again. A result that carries no state is taken
apart by `ok_of_bind`, and a fold of such steps by `foldlM_invariant`.
-/

namespace Rsemu.Fallible

variable {ε σ τ α β γ δ : Type}

/-- A computation over a state that can fail. -/
abbrev Comp (ε σ : Type) := ExceptT ε (StateM σ)

def exec (m : Comp ε σ α) (s : σ) : Except ε α × σ := m.run.run s

theorem exec_bind_ok {m : Comp ε σ α} {f : α → Comp ε σ β} {s s' : σ} {a : α}
    (h : exec m s = (.ok a, s')) : exec (m >>= f) s = exec (f a) s' := by
  unfold exec at *
  rw [ExceptT.run_bind, StateT.run_bind]
  simp only [bind, pure] at *
  rw [h]

theorem exec_bind_error {m : Comp ε σ α} {f : α → Comp ε σ β} {s s' : σ} {e : ε}
    (h : exec m s = (.error e, s')) : exec (m >>= f) s = (.error e, s') := by
  unfold exec at *
  rw [ExceptT.run_bind, StateT.run_bind]
  rw [h]
  rfl

/-- What the computation returns satisfies `P`. -/
def Ensures (m : Comp ε σ α) (P : α → Prop) : Prop :=
  ∀ s a s', exec m s = (.ok a, s') → P a

namespace Ensures

variable {P : α → Prop} {Q : β → Prop}

theorem pure {a : α} (h : P a) : Ensures (Pure.pure a : Comp ε σ α) P := by
  intro s b s' hrun
  cases hrun
  exact h

theorem throw {e : ε} : Ensures (MonadExcept.throw e : Comp ε σ α) P :=
  fun _ _ _ hrun => by cases hrun

theorem throw_bind {e : ε} {f : α → Comp ε σ β} :
    Ensures (MonadExcept.throw e >>= f : Comp ε σ β) Q :=
  fun _ _ _ hrun => by cases hrun

theorem bind {m : Comp ε σ α} {f : α → Comp ε σ β} (hm : Ensures m P)
    (hf : ∀ a, P a → Ensures (f a) Q) : Ensures (m >>= f) Q := by
  intro s b s' h
  rcases hs : exec m s with ⟨e | a, s₁⟩
  · rw [exec_bind_error hs] at h
    cases h
  · rw [exec_bind_ok hs] at h
    exact hf a (hm s a s₁ hs) s₁ b s' h

theorem mono {m : Comp ε σ α} {P' : α → Prop} (hm : Ensures m P) (h : ∀ a, P a → P' a) :
    Ensures m P' := fun s a s' hrun => h a (hm s a s' hrun)

theorem trivial (m : Comp ε σ α) : Ensures m fun _ => True := fun _ _ _ _ => True.intro

end Ensures

/-- Two ends are alike: values in states that are related by `Q`, or one error in states
related by `E`. -/
inductive Alike (E : σ → τ → Prop) (Q : α → β → σ → τ → Prop) :
    Except ε α × σ → Except ε β × τ → Prop where
  | ok {a : α} {b : β} {s : σ} {t : τ} (h : Q a b s t) : Alike E Q (.ok a, s) (.ok b, t)
  | error {e : ε} {s : σ} {t : τ} (h : E s t) : Alike E Q (.error e, s) (.error e, t)

/-- From related states the two end alike. -/
def Sim (E R : σ → τ → Prop) (Q : α → β → σ → τ → Prop) (m : Comp ε σ α) (n : Comp ε τ β) : Prop :=
  ∀ s t, R s t → Alike E Q (exec m s) (exec n t)

namespace Sim

variable {E R : σ → τ → Prop} {Q : α → β → σ → τ → Prop} {U : γ → δ → σ → τ → Prop}

theorem pure {a : α} {b : β} (h : ∀ s t, R s t → Q a b s t) :
    Sim E R Q (Pure.pure a : Comp ε σ α) (Pure.pure b : Comp ε τ β) :=
  fun s t hst => .ok (h s t hst)

theorem throw {e : ε} (h : ∀ s t, R s t → E s t) :
    Sim E R Q (MonadExcept.throw e : Comp ε σ α) (MonadExcept.throw e : Comp ε τ β) :=
  fun s t hst => .error (h s t hst)

theorem bind {m : Comp ε σ α} {n : Comp ε τ β} {f : α → Comp ε σ γ} {g : β → Comp ε τ δ}
    (h : Sim E R Q m n) (hf : ∀ a b, Sim E (Q a b) U (f a) (g b)) :
    Sim E R U (m >>= f) (n >>= g) := by
  intro s t hst
  rcases hm : exec m s with ⟨x, s'⟩
  rcases hn : exec n t with ⟨y, t'⟩
  have halike := h s t hst
  rw [hm, hn] at halike
  cases halike with
  | ok hq =>
    rw [exec_bind_ok hm, exec_bind_ok hn]
    exact hf _ _ _ _ hq
  | error he =>
    rw [exec_bind_error hm, exec_bind_error hn]
    exact .error he

theorem and_bind {F : σ → τ → Prop} {P : α → β → Prop} {m : Comp ε σ α} {n : Comp ε τ β}
    {f : α → Comp ε σ γ} {g : β → Comp ε τ δ} (h : Sim E R (fun a b s t => P a b ∧ F s t) m n)
    (hf : ∀ a b, P a b → Sim E F U (f a) (g b)) : Sim E R U (m >>= f) (n >>= g) :=
  h.bind fun a b s t hq => hf a b hq.1 s t hq.2

end Sim

theorem ok_of_bind {r : Except ε α} {f : α → Except ε β} {b : β} (h : r.bind f = .ok b) :
    ∃ a, r = .ok a ∧ f a = .ok b := by
  cases r with
  | error e => cases h
  | ok a => exact ⟨a, rfl, h⟩

theorem ok_of_map {r : Except ε α} {f : α → β} {b : β} (h : r.map f = .ok b) :
    ∃ a, r = .ok a ∧ f a = b := by
  cases r with
  | error e => cases h
  | ok a => exact ⟨a, rfl, Except.ok.inj h⟩

theorem ok_of_toOption_map {r : Except ε α} {f : α → β} {b : β}
    (h : r.toOption.map f = some b) : ∃ a, r = .ok a ∧ f a = b := by
  cases r with
  | error e => cases h
  | ok a => exact ⟨a, rfl, Option.some.inj h⟩

theorem foldlM_invariant {f : β → α → Except ε β} (P : β → Prop) {xs : List α} {b b' : β}
    (h : xs.foldlM f b = .ok b') (hb : P b)
    (hstep : ∀ x ∈ xs, ∀ c c', P c → f c x = .ok c' → P c') : P b' := by
  induction xs generalizing b with
  | nil => exact Except.ok.inj h ▸ hb
  | cons x xs ih =>
    obtain ⟨c, hc, hrest⟩ := ok_of_bind h
    exact ih hrest (hstep x List.mem_cons_self b c hb hc)
      fun y hy => hstep y (List.mem_cons_of_mem x hy)

theorem foldlM_steps {f : β → α → Except ε β} {xs : List α} {b b' : β}
    (h : xs.foldlM f b = .ok b') : ∀ x ∈ xs, ∃ c c', f c x = .ok c' := by
  induction xs generalizing b with
  | nil => exact fun x hx => absurd hx List.not_mem_nil
  | cons x xs ih =>
    obtain ⟨c, hc, hrest⟩ := ok_of_bind h
    exact List.forall_mem_cons.mpr ⟨⟨b, c, hc⟩, ih hrest⟩

end Rsemu.Fallible
