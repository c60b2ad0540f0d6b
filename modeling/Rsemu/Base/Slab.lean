import Mathlib.Data.List.Nodup
import Mathlib.Data.List.Range
import Mathlib.Data.List.Perm.Subperm
import Mathlib.Data.List.Dedup

/-!
# Slabs and the chains threaded through them

A slab is a table of slots, each empty or occupied, addressed by index. Chains run through
the occupied slots: each has the index of the next one, and a number that is no index ends
the chain.

`Chained` relates the head of a chain to the list of the slots on it. A slot taken off is
bypassed by redirecting what pointed at it (`Chained.bypass`), and that is one redirection,
because in a chain without repeats every slot has one predecessor
(`Chained.next_ne_head`).
-/

namespace Rsemu.Slab

variable {α : Type}

def peek (t : List (Option α)) (i : Nat) : Option α := t[i]?.join

def edit (t : List (Option α)) (i : Nat) (f : α → α) : List (Option α) :=
  t.modify i (Option.map f)

@[simp] theorem edit_length (t : List (Option α)) (i : Nat) (f : α → α) :
    (edit t i f).length = t.length := List.length_modify ..

theorem peek_edit (t : List (Option α)) (i j : Nat) (f : α → α) :
    peek (edit t i f) j = if i = j then (peek t j).map f else peek t j := by
  unfold peek edit
  rw [List.getElem?_modify]
  by_cases h : i = j
  · rcases t[j]? with _ | _ | x <;> simp [h]
  · rcases t[j]? with _ | _ | x <;> simp [h]

variable {t : List (Option α)}

theorem lt_of_peek {i : Nat} {x : α} (h : peek t i = some x) : i < t.length := by
  by_contra hi
  rw [peek, List.getElem?_eq_none (Nat.le_of_not_lt hi)] at h
  cases h

theorem peek_set (t : List (Option α)) {i : Nat} (hi : i < t.length) (x : Option α) (j : Nat) :
    peek (t.set i x) j = if i = j then x else peek t j := by
  unfold peek
  rw [List.getElem?_set]
  by_cases h : i = j
  · rw [if_pos h, if_pos h, if_pos hi]
    rfl
  · rw [if_neg h, if_neg h]

theorem peek_snoc (t : List (Option α)) (x : α) (j : Nat) :
    peek (t ++ [some x]) j = if j = t.length then some x else peek t j := by
  unfold peek
  rcases Nat.lt_trichotomy j t.length with h | h | h
  · rw [List.getElem?_append_left h, if_neg (by omega)]
  · subst h
    simp
  · rw [if_neg (by omega), List.getElem?_eq_none (by simp; omega),
      List.getElem?_eq_none (by omega)]

@[simp] theorem peek_nil (i : Nat) : peek ([] : List (Option α)) i = none := rfl

def occupied (t : List (Option α)) : List Nat :=
  (List.range t.length).filter fun i => (peek t i).isSome

theorem mem_occupied {i : Nat} : i ∈ occupied t ↔ ∃ x, peek t i = some x := by
  rw [occupied, List.mem_filter, List.mem_range, Option.isSome_iff_exists]
  constructor
  · exact fun h => h.2
  · exact fun ⟨x, h⟩ => ⟨lt_of_peek h, x, h⟩

theorem occupied_nodup (t : List (Option α)) : (occupied t).Nodup :=
  List.nodup_range.filter _

theorem occupied_length {free : List Nat} (hnodup : free.Nodup)
    (hfree : ∀ i, i ∈ free ↔ i < t.length ∧ peek t i = none) :
    (occupied t).length + free.length = t.length := by
  have hperm : (free ++ occupied t).Perm (List.range t.length) := by
    refine (List.perm_ext_iff_of_nodup ?_ List.nodup_range).mpr fun i => ?_
    · refine List.nodup_append'.mpr ⟨hnodup, occupied_nodup t, fun i hi ho => ?_⟩
      obtain ⟨x, hx⟩ := mem_occupied.mp ho
      rw [((hfree i).mp hi).2] at hx
      cases hx
    · rw [List.mem_append, hfree, mem_occupied, List.mem_range]
      constructor
      · rintro (h | ⟨x, h⟩)
        · exact h.1
        · exact lt_of_peek h
      · intro h
        rcases hx : peek t i with _ | x
        · exact Or.inl ⟨h, rfl⟩
        · exact Or.inr ⟨x, rfl⟩
  have := hperm.length_eq
  rw [List.length_append, List.length_range] at this
  omega

theorem length_le_of_occupied {l : List Nat} (hnodup : l.Nodup)
    (h : ∀ i ∈ l, ∃ x, peek t i = some x) : l.length ≤ t.length := by
  have hsub : l ⊆ List.range t.length := fun i hi => by
    obtain ⟨x, hx⟩ := h i hi
    exact List.mem_range.mpr (lt_of_peek hx)
  have := (List.subperm_of_subset hnodup hsub).length_le
  rwa [List.length_range] at this

section

variable (next : Nat → Option Nat) (stop : Nat)

/-- The chain that starts at `h` runs through the slots of the list, in order, and ends. -/
def Chained : Nat → List Nat → Prop
  | h, [] => h = stop
  | h, i :: l => h = i ∧ i ≠ stop ∧ ∃ n, next i = some n ∧ Chained n l

variable {next stop}

variable {l : List Nat}

theorem Chained.head_eq_stop_or_mem {h : Nat} (hc : Chained next stop h l) : h = stop ∨ h ∈ l := by
  cases l with
  | nil => exact Or.inl hc
  | cons i l => exact Or.inr (hc.1 ▸ List.mem_cons_self ..)

theorem Chained.next_mem {h : Nat} (hc : Chained next stop h l) {i : Nat} (hi : i ∈ l) :
    ∃ n, next i = some n ∧ (n = stop ∨ n ∈ l) := by
  induction l generalizing h with
  | nil => cases hi
  | cons j l ih =>
    obtain ⟨-, -, n, hn, hl⟩ := hc
    rcases List.mem_cons.mp hi with rfl | hi
    · exact ⟨n, hn, hl.head_eq_stop_or_mem.imp id (List.mem_cons_of_mem _)⟩
    · obtain ⟨m, hm, hml⟩ := ih hl hi
      exact ⟨m, hm, hml.imp id (List.mem_cons_of_mem _)⟩

theorem Chained.next_ne_head {h : Nat} (hc : Chained next stop h l) (hnodup : l.Nodup)
    (hne : h ≠ stop) {i : Nat} (hi : i ∈ l) : next i ≠ some h := by
  cases l with
  | nil => cases hi
  | cons j l =>
    obtain ⟨rfl, -, n, hn, hl⟩ := hc
    have hj : h ∉ l := (List.nodup_cons.mp hnodup).1
    intro hih
    rcases List.mem_cons.mp hi with rfl | hi
    · rw [hn] at hih
      obtain rfl := Option.some.inj hih
      exact (hl.head_eq_stop_or_mem.resolve_left hne |> hj)
    · obtain ⟨m, hm, hml⟩ := hl.next_mem hi
      rw [hm] at hih
      obtain rfl := Option.some.inj hih
      exact hj (hml.resolve_left hne)

theorem Chained.congr {next' : Nat → Option Nat} {h : Nat} (hc : Chained next stop h l)
    (heq : ∀ i ∈ l, next' i = next i) : Chained next' stop h l := by
  induction l generalizing h with
  | nil => exact hc
  | cons i l ih =>
    obtain ⟨hh, hi, n, hn, hl⟩ := hc
    refine ⟨hh, hi, n, ?_, ih hl fun j hj => heq j (List.mem_cons_of_mem _ hj)⟩
    rw [heq i (List.mem_cons_self ..)]
    exact hn

variable {next' : Nat → Option Nat} {id after : Nat}

theorem Chained.skip {h : Nat} (hc : Chained next stop h l) (hid : id ∉ l) (hstop : id ≠ stop)
    (heq : ∀ i ≠ id, next' i = (next i).map fun n => if n = id then after else n) :
    Chained next' stop h l := by
  refine hc.congr fun i hi => ?_
  have hne : i ≠ id := fun h => hid (h ▸ hi)
  obtain ⟨n, hn, hnl⟩ := hc.next_mem hi
  rw [heq i hne, hn, Option.map_some, if_neg]
  rintro rfl
  rcases hnl with h | h
  · exact hstop h
  · exact hid h

theorem Chained.bypass {h : Nat} (hc : Chained next stop h l) (hnodup : l.Nodup) (hstop : id ≠ stop)
    (hafter : next id = some after)
    (heq : ∀ i ≠ id, next' i = (next i).map fun n => if n = id then after else n) :
    Chained next' stop (if h = id then after else h) (l.filter (· ≠ id)) := by
  induction l generalizing h with
  | nil =>
    have hh : h = stop := hc
    rw [if_neg (by rw [hh]; exact hstop.symm)]
    exact hh
  | cons i l ih =>
    obtain ⟨rfl, hi, n, hn, hl⟩ := hc
    obtain ⟨hil, hnl⟩ := List.nodup_cons.mp hnodup
    by_cases hid : h = id
    · -- the slot itself: its successor becomes the head, and the rest does not have it
      subst hid
      rw [hn] at hafter
      obtain rfl := Option.some.inj hafter
      have hfilter : (h :: l).filter (· ≠ h) = l := by
        rw [List.filter_cons_of_neg (by simp)]
        exact List.filter_eq_self.mpr fun j hj => by
          simpa using fun he : j = h => hil (he ▸ hj)
      rw [if_pos rfl, hfilter]
      exact hl.skip hil hstop heq
    · rw [if_neg hid, List.filter_cons_of_pos (by simpa using hid)]
      exact ⟨rfl, hi, _, by rw [heq h hid, hn, Option.map_some], ih hl hnl⟩

end

end Rsemu.Slab
