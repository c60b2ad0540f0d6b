import Mathlib.Order.Lattice

/-!
# Scanning for a maximum

A scan that keeps the best it has seen and lets only something strictly better take its
place. Whatever it ends with is the first of the best: everything before it is worse, and
nothing after it is better (`scan_cases`).
-/

namespace Rsemu.Argmax

variable {α β : Type} [LinearOrder β]

def step (key : α → β) (counts : α → Bool) (best : α × β) (x : α) : α × β :=
  if counts x && decide (best.2 < key x) then (x, key x) else best

/-- What a scan found: the first of the best, all of it above the floor. -/
structure Found (key : α → β) (counts : α → Bool) (floor : β) (before : List α) (x : α)
    (after : List α) : Prop where
  counted : counts x = true
  above : floor < key x
  first : ∀ y ∈ before, counts y = true → key y < key x
  best : ∀ y ∈ after, counts y = true → key y ≤ key x

variable {key : α → β} {counts : α → Bool}

theorem scan_cases (l : List α) (best : α × β) :
    (l.foldl (step key counts) best = best ∧ ∀ x ∈ l, counts x = true → key x ≤ best.2)
      ∨ ∃ before x after, l = before ++ x :: after
        ∧ l.foldl (step key counts) best = (x, key x)
        ∧ Found key counts best.2 before x after := by
  induction l generalizing best with
  | nil => exact Or.inl ⟨rfl, fun x hx => absurd hx (by simp)⟩
  | cons y l ih =>
    rw [List.foldl_cons]
    by_cases htake : counts y = true ∧ best.2 < key y
    · have hstep : step key counts best y = (y, key y) := by
        unfold step
        rw [htake.1, decide_eq_true htake.2, Bool.and_self, if_pos rfl]
      rw [hstep]
      rcases ih (y, key y) with ⟨hstay, hle⟩ | ⟨before, x, after, hl, hfold, hf⟩
      · exact Or.inr ⟨[], y, l, rfl, hstay, htake.1, htake.2, fun z hz => absurd hz (by simp), hle⟩
      · refine Or.inr ⟨y :: before, x, after, by rw [hl, List.cons_append], hfold, hf.counted,
          lt_trans htake.2 hf.above, fun z hz hc => ?_, hf.best⟩
        rcases List.mem_cons.mp hz with rfl | hz
        · exact hf.above
        · exact hf.first z hz hc
    · have hstep : step key counts best y = best := by
        unfold step
        rw [if_neg]
        rw [Bool.and_eq_true, decide_eq_true_iff]
        exact htake
      have hy : counts y = true → key y ≤ best.2 := fun hc =>
        not_lt.mp fun hlt => htake ⟨hc, hlt⟩
      rw [hstep]
      rcases ih best with ⟨hstay, hle⟩ | ⟨before, x, after, hl, hfold, hf⟩
      · refine Or.inl ⟨hstay, fun z hz hc => ?_⟩
        rcases List.mem_cons.mp hz with rfl | hz
        · exact hy hc
        · exact hle z hz hc
      · refine Or.inr ⟨y :: before, x, after, by rw [hl, List.cons_append], hfold, hf.counted,
          hf.above, fun z hz hc => ?_, hf.best⟩
        rcases List.mem_cons.mp hz with rfl | hz
        · exact lt_of_le_of_lt (hy hc) hf.above
        · exact hf.first z hz hc

end Rsemu.Argmax
