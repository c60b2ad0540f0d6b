import Mathlib.Algebra.Group.Fin.Basic
import Mathlib.Algebra.Order.Ring.Nat
import Mathlib.Data.Fin.Tuple.Basic
import Mathlib.Order.Fin.Basic

/-!
# Rotating priority

`n` lines, of which any one may be the most urgent: the others follow it in a circle. A
line has a *position*, how far it is behind the most urgent one, and an arbiter looks for
the smallest position that raises something. Everything here is about that search, for any
set of raised lines: what it finds, and what it finds after the set has shrunk.
-/

namespace Rsemu.Arbiter

variable {n : Nat}

def levelAt (base position : Fin n) : Fin n := base + position

def position (base line : Fin n) : Fin n := line - base

@[simp] theorem levelAt_position [NeZero n] (base line : Fin n) :
    levelAt base (position base line) = line := by
  simp [levelAt, position]

@[simp] theorem position_levelAt [NeZero n] (base i : Fin n) :
    position base (levelAt base i) = i := by
  simp [levelAt, position]

def first (base : Fin n) (raised : Fin n → Bool) : Option (Fin n) :=
  Fin.find? fun i => raised (levelAt base i)

variable {base i j : Fin n} {raised raised' : Fin n → Bool}

theorem first_eq_some :
    first base raised = some i ↔
      raised (levelAt base i) = true ∧ ∀ j < i, raised (levelAt base j) = false :=
  Fin.find?_eq_some_iff

theorem first_eq_none [NeZero n] : first base raised = none ↔ ∀ line, raised line = false := by
  unfold first
  rw [Fin.find?_eq_none_iff]
  refine ⟨fun h line => ?_, fun h i => h _⟩
  have := h (position base line)
  rwa [levelAt_position] at this

theorem first_behind (hsub : ∀ line, raised' line = true → raised line = true)
    (hfirst : first base raised = some i) (hi : raised' (levelAt base i) = false)
    (hnext : first base raised' = some j) : i < j := by
  obtain ⟨_, hbefore⟩ := first_eq_some.mp hfirst
  obtain ⟨hj, _⟩ := first_eq_some.mp hnext
  rcases lt_trichotomy i j with h | h | h
  · exact h
  · rw [← h, hi] at hj
    cases hj
  · have := hsub _ hj
    rw [hbefore j h] at this
    cases this

theorem first_raise [NeZero n] (hother : ∀ line, line ≠ levelAt base i → raised' line = raised line)
    (hi : raised' (levelAt base i) = true) (hle : ∀ j, first base raised = some j → i ≤ j) :
    first base raised' = some i := by
  refine first_eq_some.mpr ⟨hi, fun j hj => ?_⟩
  have hne : levelAt base j ≠ levelAt base i := by
    intro he
    have := congrArg (position base) he
    rw [position_levelAt, position_levelAt] at this
    exact absurd this (Fin.ne_of_lt hj)
  rw [hother _ hne]
  cases hr : raised (levelAt base j) with
  | false => rfl
  | true =>
    -- something is raised, so the search finds it or an earlier one
    cases hf : first base raised with
    | none => exact absurd (first_eq_none.mp hf _) (by rw [hr]; decide)
    | some k =>
      have hik := hle k hf
      obtain ⟨_, hbefore⟩ := first_eq_some.mp hf
      have hkj : ¬ j < k := fun h => absurd (hbefore j h) (by rw [hr]; decide)
      omega

end Rsemu.Arbiter
