import Mathlib.Order.Basic
import Mathlib.Order.Defs.LinearOrder
import Mathlib.Order.MinMax

/-!
# The first range that decides

A list of half-open ranges, each with a value, is asked about a closed interval: the first
range that holds its first point decides, and refuses an interval that runs past its end;
a range that holds only the last point refuses before that.

`span` is the largest interval around a point on which the answer cannot change: inside
the deciding range, and clear of every range before it. `firstMatch_span` is that it does
not; `firstMatch_uniform` is the same for an interval no range has an edge in.
-/

namespace Rsemu.FirstMatch

variable {α β : Type} [LinearOrder α]

/-- A half-open range that answers with a value. -/
structure Range (α β : Type) where
  lo : α
  hi : α
  value : β

/-- What a search among ranges answers. -/
inductive Outcome (β : Type) where
  | miss
  | refused
  | hit (value : β)
deriving DecidableEq

def firstMatch (first last : α) : List (Range α β) → Outcome β
  | [] => .miss
  | r :: ranges =>
    if r.lo ≤ first ∧ first < r.hi then
      if r.hi ≤ last then .refused else .hit r.value
    else if r.lo ≤ last ∧ last < r.hi then .refused
    else firstMatch first last ranges

/-- An interval around a point, and the value of the range that decides it, if one does. -/
structure Span (α β : Type) where
  lo : α
  hi : α
  value : Option β

/-- The interval around `point`, inside `lo` and `hi`: kept inside the deciding range, and
cut short of each range before it. -/
def span (point lo hi : α) : List (Range α β) → Span α β
  | [] => ⟨lo, hi, none⟩
  | r :: ranges =>
    if r.lo ≤ point ∧ point < r.hi then ⟨max lo r.lo, min hi r.hi, some r.value⟩
    else if r.hi ≤ point then span point (max lo r.hi) hi ranges
    else span point lo (min hi r.lo) ranges

def Outcome.ofValue : Option β → Outcome β
  | none => .miss
  | some value => .hit value

theorem span_bounds (point lo hi : α) (ranges : List (Range α β)) :
    lo ≤ (span point lo hi ranges).lo ∧ (span point lo hi ranges).hi ≤ hi := by
  induction ranges generalizing lo hi with
  | nil => exact ⟨le_refl _, le_refl _⟩
  | cons r ranges ih =>
    unfold span
    split
    · exact ⟨le_max_left _ _, min_le_left _ _⟩
    split
    · obtain ⟨hlo, hhi⟩ := ih (max lo r.hi) hi
      exact ⟨le_trans (le_max_left _ _) hlo, hhi⟩
    · obtain ⟨hlo, hhi⟩ := ih lo (min hi r.lo)
      exact ⟨hlo, le_trans hhi (min_le_left _ _)⟩

variable {ranges : List (Range α β)}

theorem firstMatch_clear {first last : α} {r : Range α β} (hle : first ≤ last)
    (h : r.hi ≤ first ∨ last < r.lo) :
    firstMatch first last (r :: ranges) = firstMatch first last ranges := by
  have hfirst : ¬ (r.lo ≤ first ∧ first < r.hi) := by
    intro hin
    rcases h with h | h
    · exact absurd hin.2 (not_lt_of_ge h)
    · exact absurd (lt_of_le_of_lt hle h) (not_lt_of_ge hin.1)
  have hlast : ¬ (r.lo ≤ last ∧ last < r.hi) := by
    intro hin
    rcases h with h | h
    · exact absurd (lt_of_lt_of_le hin.2 h) (not_lt_of_ge hle)
    · exact absurd h (not_lt_of_ge hin.1)
  rw [firstMatch, if_neg hfirst, if_neg hlast]

theorem firstMatch_inside {first last : α} {r : Range α β} (hle : first ≤ last) (hlo : r.lo ≤ first)
    (hhi : last < r.hi) : firstMatch first last (r :: ranges) = .hit r.value := by
  rw [firstMatch, if_pos ⟨hlo, lt_of_le_of_lt hle hhi⟩, if_neg (not_le_of_gt hhi)]

theorem firstMatch_span {point lo hi first last : α} (hle : first ≤ last)
    (hfirst : (span point lo hi ranges).lo ≤ first) (hlast : last < (span point lo hi ranges).hi) :
    firstMatch first last ranges = .ofValue (span point lo hi ranges).value := by
  induction ranges generalizing lo hi with
  | nil => rfl
  | cons r ranges ih =>
    unfold span at hfirst hlast ⊢
    split at hfirst
    · rename_i hin
      rw [if_pos hin] at hlast ⊢
      exact firstMatch_inside hle (le_trans (le_max_right _ _) hfirst)
        (lt_of_lt_of_le hlast (min_le_right _ _))
    rename_i hout
    rw [if_neg hout] at hlast ⊢
    split at hfirst
    · -- the range lies below the point, and the span above the range
      rename_i hbelow
      rw [if_pos hbelow] at hlast ⊢
      have hclear : r.hi ≤ first :=
        le_trans (le_trans (le_max_right _ _) (span_bounds point _ _ ranges).1) hfirst
      rw [firstMatch_clear hle (.inl hclear)]
      exact ih hfirst hlast
    · rename_i hbelow
      rw [if_neg hbelow] at hlast ⊢
      have hclear : last < r.lo :=
        lt_of_lt_of_le hlast (le_trans (span_bounds point _ _ ranges).2 (min_le_right _ _))
      rw [firstMatch_clear hle (.inr hclear)]
      exact ih hfirst hlast

/-- The range holds all of `first` to `last` or none of it. -/
def Range.NoEdge (r : Range α β) (first last : α) : Prop :=
  r.hi ≤ first ∨ last < r.lo ∨ (r.lo ≤ first ∧ last < r.hi)

theorem firstMatch_uniform {first last first' last' : α} (hfirst : first ≤ first')
    (hle : first' ≤ last') (hlast : last' ≤ last) (h : ∀ r ∈ ranges, r.NoEdge first last) :
    firstMatch first' last' ranges = firstMatch first last ranges := by
  have hwhole : first ≤ last := le_trans hfirst (le_trans hle hlast)
  induction ranges with
  | nil => rfl
  | cons r ranges ih =>
    have hrest := ih fun r hr => h r (List.mem_cons_of_mem _ hr)
    rcases h r List.mem_cons_self with hbelow | habove | ⟨hlo, hhi⟩
    · rw [firstMatch_clear hle (.inl (le_trans hbelow hfirst)),
        firstMatch_clear hwhole (.inl hbelow), hrest]
    · rw [firstMatch_clear hle (.inr (lt_of_le_of_lt hlast habove)),
        firstMatch_clear hwhole (.inr habove), hrest]
    · rw [firstMatch_inside hle (le_trans hlo hfirst) (lt_of_le_of_lt hlast hhi),
        firstMatch_inside hwhole hlo hhi]

end Rsemu.FirstMatch
