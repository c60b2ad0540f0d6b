import Mathlib.Data.List.Basic

/-!
# Writing over part of a list

`overlay old at_ new` is `old` with `new` laid over it from position `at_` on, as far as
`old` goes. A write through a list of buffers is an overlay of their concatenation, however
that is cut into buffers, and writes that follow one another are one overlay.
-/

namespace Rsemu

variable {α : Type}

def overlay (old : List α) (at_ : Nat) (new : List α) : List α :=
  old.take at_ ++ new.take (old.length - at_) ++ old.drop (at_ + new.length)

@[simp]
theorem length_overlay (old : List α) (at_ : Nat) (new : List α) :
    (overlay old at_ new).length = old.length := by
  unfold overlay
  simp only [List.length_append, List.length_take, List.length_drop]
  omega

theorem getElem_overlay {old new : List α} {at_ i : Nat} (hi : i < old.length)
    (hover : i < (overlay old at_ new).length) :
    (overlay old at_ new)[i] =
      if h : at_ ≤ i ∧ i - at_ < new.length then new[i - at_] else old[i] := by
  revert hover
  unfold overlay
  intro hover
  by_cases hat : i < at_
  · rw [dif_neg (by omega), List.getElem_append_left (by simp; omega),
      List.getElem_append_left (by simp; omega), List.getElem_take]
  · by_cases hin : i - at_ < new.length
    · rw [dif_pos ⟨by omega, hin⟩, List.getElem_append_left (by simp; omega),
        List.getElem_append_right (by simp; omega), List.getElem_take]
      congr 1
      simp only [List.length_take]
      omega
    · rw [dif_neg (by omega), List.getElem_append_right (by simp; omega), List.getElem_drop]
      congr 1
      simp only [List.length_append, List.length_take]
      omega

@[simp]
theorem overlay_nil (old : List α) (at_ : Nat) : overlay old at_ [] = old := by
  simp [overlay]

theorem overlay_append (a b new : List α) (at_ : Nat) :
    overlay (a ++ b) at_ new = overlay a at_ (new.take (a.length - at_)) ++
      overlay b (at_ - a.length) (new.drop (a.length - at_)) := by
  refine List.ext_getElem (by simp) fun i h h' => ?_
  simp only [length_overlay, List.length_append] at h
  have hab : i < (a ++ b).length := by simpa using h
  rw [getElem_overlay hab]
  by_cases hi : i < a.length
  · have hi' : i < (overlay a at_ (new.take (a.length - at_))).length := by simpa using hi
    rw [show (a ++ b)[i] = a[i] from List.getElem_append_left hi,
      List.getElem_append_left hi', getElem_overlay hi]
    simp only [List.length_take, List.getElem_take]
    refine dite_congr (propext (by omega)) (fun _ => rfl) fun _ => rfl
  · have hi' : (overlay a at_ (new.take (a.length - at_))).length ≤ i := by simp; omega
    rw [show (a ++ b)[i] = b[i - a.length] from List.getElem_append_right (by omega),
      List.getElem_append_right hi']
    simp only [length_overlay]
    rw [getElem_overlay (by omega)]
    simp only [List.length_drop, List.getElem_drop]
    refine dite_congr (propext (by omega)) (fun _ => ?_) fun _ => rfl
    congr 1
    omega

theorem overlay_overlay (old a b : List α) (at_ : Nat) :
    overlay (overlay old at_ a) (at_ + a.length) b = overlay old at_ (a ++ b) := by
  refine List.ext_getElem (by simp) fun i h _ => ?_
  simp only [length_overlay] at h
  rw [getElem_overlay (by simpa using h), getElem_overlay h, getElem_overlay h]
  by_cases hlo : at_ ≤ i
  · by_cases ha : i - at_ < a.length
    · rw [dif_neg (by omega), dif_pos ⟨hlo, ha⟩, dif_pos ⟨hlo, by simp; omega⟩,
        List.getElem_append_left ha]
    · by_cases hb : i - (at_ + a.length) < b.length
      · rw [dif_pos ⟨by omega, hb⟩, dif_pos ⟨hlo, by simp; omega⟩,
          List.getElem_append_right (by omega)]
        congr 1
        omega
      · rw [dif_neg (by omega), dif_neg (by omega), dif_neg (by simp; omega)]
  · rw [dif_neg (by omega), dif_neg (by omega), dif_neg (by omega)]

theorem overlay_whole (old new : List α) (last : α) (h : old.length = new.length + 1) :
    overlay (overlay old 0 new) (old.length - 1) [last] = new ++ [last] := by
  have hat : old.length - 1 = 0 + new.length := by omega
  rw [hat, overlay_overlay]
  unfold overlay
  rw [List.take_zero, List.nil_append, List.take_of_length_le (by simp [h]),
    List.drop_eq_nil_of_le (by simp [h]), List.append_nil]

end Rsemu
