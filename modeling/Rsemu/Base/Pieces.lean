import Mathlib.Data.List.Basic
import Mathlib.Algebra.Order.Ring.Nat

/-!
# Lists made of pieces

A list that is written piece by piece, each piece as long as the others: where a piece
stands in it, and how long the whole is. Written row by row and in each row pixel by
pixel, a picture is such a list twice over.
-/

namespace Rsemu.Pieces

theorem drop_flatMap {α β : Type} {f : α → List β} {n : Nat} {xs : List α}
    (hf : ∀ x ∈ xs, (f x).length = n) {j : Nat} {x : α} (hx : xs[j]? = some x) :
    (xs.flatMap f).drop (n * j) = f x ++ (xs.drop (j + 1)).flatMap f := by
  induction xs generalizing j with
  | nil => simp at hx
  | cons y xs ih =>
    obtain ⟨hy, hxs⟩ := List.forall_mem_cons.mp hf
    rw [List.flatMap_cons]
    rcases j with _ | j
    · have : y = x := by simpa using hx
      rw [this]
      rfl
    · rw [Nat.mul_succ, Nat.add_comm, ← List.drop_drop, ← hy, List.drop_left, hy]
      exact ih hxs (by simpa using hx)

theorem length_flatMap_of {α β : Type} {f : α → List β} {n : Nat} {xs : List α}
    (hf : ∀ x ∈ xs, (f x).length = n) : (xs.flatMap f).length = n * xs.length := by
  induction xs with
  | nil => rfl
  | cons y xs ih =>
    obtain ⟨hy, hxs⟩ := List.forall_mem_cons.mp hf
    rw [List.flatMap_cons, List.length_append, hy, ih hxs, List.length_cons, Nat.mul_succ,
      Nat.add_comm]

theorem take_drop_flatMap {α β : Type} {f : α → List β} {n : Nat} {xs : List α}
    (hf : ∀ x ∈ xs, (f x).length = n) {j : Nat} {x : α} (hx : xs[j]? = some x) :
    ((xs.flatMap f).drop (n * j)).take n = f x := by
  have hmem : x ∈ xs := List.mem_of_getElem? hx
  rw [drop_flatMap hf hx, List.take_append_of_le_length (Nat.le_of_eq (hf x hmem).symm),
    List.take_of_length_le (Nat.le_of_eq (hf x hmem))]

end Rsemu.Pieces
