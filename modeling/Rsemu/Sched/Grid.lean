import Mathlib.Order.Bounds.Basic
import Rsemu.Base.Word
import Rsemu.Clock.Nanos

/-!
# The grid a round ends on

A round goes no further than the next multiple of the quantum, counted in nanoseconds where the
quantum is a whole number of them. Both conversions round down, so the cell that an instant's own
count names may be the one that ends there: `next_eq` is that the cell after it ends later, so
two candidates are enough, as long as a 64-bit count can name the one that is wanted. Past the
last multiple that it can name the count saturates, and what comes out is no multiple
(`saturated_cell`).
-/

namespace Rsemu.Sched

open Clock Word

def wholeNanos (t : Nat) : Option Nat :=
  let floor := asNanos t
  [floor, saturatingAdd 64 floor 1].find? fun n => n != 0 && fromNanos n == t

/-- The quantum of the rounds. -/
structure Grid where
  quantum : Nat
  /-- The quantum as a whole number of nanoseconds, when it is one. -/
  quantumNanos : Option Nat

namespace Grid

def new (quantum : Nat) : Grid := ⟨quantum, wholeNanos quantum⟩

def nextRaw (g : Grid) (now : Nat) : Nat :=
  if g.quantum = 0 then now
  else saturatingMul 128 (saturatingAdd 128 (now / g.quantum) 1) g.quantum

/-- The next multiple of the quantum after an instant. -/
def nextGridPoint (g : Grid) (now : Nat) : Nat :=
  match g.quantumNanos with
  | none => g.nextRaw now
  | some nanos =>
    let here := asNanos now / nanos
    let boundaries := [saturatingAdd 64 here 1, saturatingAdd 64 here 2].map fun cell =>
      fromNanos (saturatingMul 64 cell nanos)
    (boundaries.find? fun at_ => now < at_).getD (g.nextRaw now)

end Grid

theorem wholeNanos_fromNanos {n : Nat} (hpos : 0 < n) (hn : n < 2 ^ 64) :
    wholeNanos (fromNanos n) = some n := by
  have hne : ∀ m, m ≠ n → (m != 0 && fromNanos m == fromNanos n) = false := by
    intro m hm
    rw [Bool.and_eq_false_iff]
    exact .inr (beq_false_of_ne fun h => hm (fromNanos_injective h))
  have heq : (n != 0 && fromNanos n == fromNanos n) = true := by
    rw [Bool.and_eq_true_iff]
    exact ⟨bne_iff_ne.mpr (Nat.ne_of_gt hpos), beq_self_eq_true _⟩
  have hfind : ∀ ms : List Nat, (n :: ms).find? (fun m => m != 0 && fromNanos m == fromNanos n)
      = some n := fun ms => List.find?_cons_of_pos (p := fun m => m != 0 && fromNanos m == _) heq
  rcases asNanos_fromNanos hn with hsame | hshort
  · unfold wholeNanos
    rw [hsame]
    exact hfind _
  · have hnext : saturatingAdd 64 (asNanos (fromNanos n)) 1 = n := by
      rw [saturatingAdd_of_lt (by omega), hshort]
    change [asNanos (fromNanos n), saturatingAdd 64 (asNanos (fromNanos n)) 1].find?
      (fun m => m != 0 && fromNanos m == fromNanos n) = some n
    rw [hnext]
    refine (List.find?_cons_of_neg (p := fun m => m != 0 && fromNanos m == _) ?_).trans (hfind _)
    exact Bool.eq_false_iff.mp (hne _ (by omega))

section

variable {n now k : Nat}

theorem fromNanos_le_now (hnow : now < 2 ^ 128) (hk : k ≤ asNanos now) : fromNanos k ≤ now := by
  rw [asNanos_eq hnow] at hk
  rw [fromNanos_eq]
  unfold nanosPerSecond at hk ⊢
  omega

theorem now_lt_fromNanos (hnow : now < 2 ^ 128) (hcount : asNanos now < 2 ^ 64 - 1)
    (hk : asNanos now + 2 ≤ k) : now < fromNanos k := by
  rw [asNanos_eq hnow] at hk hcount
  rw [fromNanos_eq]
  unfold nanosPerSecond at hk hcount ⊢
  omega

theorem asNanos_lt (hnow : now < 2 ^ 128) (hk : k < 2 ^ 64) (hlt : now < fromNanos k) :
    asNanos now < 2 ^ 64 - 1 := by
  rw [asNanos_eq hnow]
  rw [fromNanos_eq] at hlt
  unfold nanosPerSecond at hlt ⊢
  omega

theorem next_eq (hpos : 0 < n) (hn : n < 2 ^ 64) (hnow : now < 2 ^ 128) (hk : k * n < 2 ^ 64)
    (hlt : now < fromNanos (k * n)) (hleast : ∀ j < k, fromNanos (j * n) ≤ now) :
    (Grid.new (fromNanos n)).nextGridPoint now = fromNanos (k * n) := by
  have hcount := asNanos_lt hnow hk hlt
  have hle : k ≤ k * n := Nat.le_mul_of_pos_right k hpos
  -- `now`'s own cell has ended, so `k` is behind it.
  have hhere : asNanos now / n < k := by
    by_contra hge
    have hmul : k * n ≤ asNanos now :=
      Nat.le_trans (Nat.mul_le_mul_right n (Nat.not_lt.mp hge)) (Nat.div_mul_le_self _ n)
    exact absurd (fromNanos_le_now hnow hmul) (Nat.not_le.mpr hlt)
  have hcell : asNanos now < (asNanos now / n + 1) * n := by
    rw [Nat.mul_comm]
    exact Nat.lt_mul_div_succ _ hpos
  have htwo : ∀ j, asNanos now / n + 2 ≤ j → now < fromNanos (j * n) := by
    intro j hj
    have hmul := Nat.mul_le_mul_right n hj
    rw [show asNanos now / n + 2 = asNanos now / n + 1 + 1 by rfl, Nat.add_one_mul] at hmul
    exact now_lt_fromNanos hnow hcount (by omega)
  have hnear : k = asNanos now / n + 1 ∨ k = asNanos now / n + 2 := by
    by_contra hfar
    have hbefore := hleast (asNanos now / n + 2) (by omega)
    exact absurd (htwo _ (Nat.le_refl _)) (Nat.not_lt.mpr hbefore)
  have hnext : ∀ c, c ≤ k → saturatingMul 64 c n = c * n := fun c hc =>
    saturatingMul_of_lt (Nat.lt_of_le_of_lt (Nat.mul_le_mul_right n hc) hk)
  have hone : saturatingAdd 64 (asNanos now / n) 1 = asNanos now / n + 1 :=
    saturatingAdd_of_lt (by omega)
  unfold Grid.new
  rw [wholeNanos_fromNanos hpos hn]
  change (List.find? (fun at_ => now < at_)
    [fromNanos (saturatingMul 64 (saturatingAdd 64 (asNanos now / n) 1) n),
      fromNanos (saturatingMul 64 (saturatingAdd 64 (asNanos now / n) 2) n)]).getD _ = _
  rw [hone, hnext _ hhere]
  rcases hnear with rfl | rfl
  · rw [List.find?_cons_of_pos (p := fun at_ => now < at_) (decide_eq_true hlt), Option.getD_some]
  · have hfirst := hleast (asNanos now / n + 1) (Nat.lt_succ_self _)
    have htwoMore : saturatingAdd 64 (asNanos now / n) 2 = asNanos now / n + 2 :=
      saturatingAdd_of_lt (by omega)
    rw [List.find?_cons_of_neg (p := fun at_ => now < at_)
      (fun h => absurd (of_decide_eq_true h) (Nat.not_lt.mpr hfirst)), htwoMore,
      hnext _ (Nat.le_refl _), List.find?_cons_of_pos (p := fun at_ => now < at_)
      (decide_eq_true hlt), Option.getD_some]

end

def pointsAfter (n now : Nat) : Set Nat := {t | ∃ k, t = fromNanos (k * n) ∧ now < t}

/-- What the grid is for. An instant that a 64-bit count names a multiple after goes to the first
multiple after it, and two instants with none between them go to the same. -/
structure GridExact (n : Nat) : Prop where
  least : ∀ now < 2 ^ 128, (∃ k, k * n < 2 ^ 64 ∧ now < fromNanos (k * n)) →
    IsLeast (pointsAfter n now) ((Grid.new (fromNanos n)).nextGridPoint now)
  same_cell : ∀ now now' k, now ≤ now' → now' < 2 ^ 128 → k * n < 2 ^ 64 →
    now' < fromNanos (k * n) → (∀ j, ¬ (now < fromNanos (j * n) ∧ fromNanos (j * n) ≤ now')) →
      (Grid.new (fromNanos n)).nextGridPoint now = (Grid.new (fromNanos n)).nextGridPoint now'

theorem grid_exact {n : Nat} (hpos : 0 < n) (hn : n < 2 ^ 64) : GridExact n := by
  have hleast : ∀ now < 2 ^ 128, (∃ k, k * n < 2 ^ 64 ∧ now < fromNanos (k * n)) →
      IsLeast (pointsAfter n now) ((Grid.new (fromNanos n)).nextGridPoint now) := by
    intro now hnow hafter
    -- The first multiple after `now` is no later than the one that is named.
    have hex : ∃ k, now < fromNanos (k * n) := hafter.imp fun _ h => h.2
    obtain ⟨k, hk, hlt⟩ := hafter
    have hfirst := Nat.find_spec hex
    have hbefore : ∀ j < Nat.find hex, fromNanos (j * n) ≤ now := fun j hj =>
      Nat.not_lt.mp (Nat.find_min hex hj)
    have hsize : Nat.find hex * n < 2 ^ 64 :=
      Nat.lt_of_le_of_lt (Nat.mul_le_mul_right n (Nat.find_le hlt)) hk
    rw [next_eq hpos hn hnow hsize hfirst hbefore]
    refine ⟨⟨Nat.find hex, rfl, hfirst⟩, ?_⟩
    rintro t ⟨j, rfl, hj⟩
    exact fromNanos_mono (Nat.mul_le_mul_right n (Nat.find_le hj))
  refine ⟨hleast, ?_⟩
  intro now now' k hle hnow' hk hlt hnone
  have hthere := hleast now' hnow' ⟨k, hk, hlt⟩
  have hhere := hleast now (Nat.lt_of_le_of_lt hle hnow') ⟨k, hk, Nat.lt_of_le_of_lt hle hlt⟩
  have hset : pointsAfter n now = pointsAfter n now' := by
    ext t
    constructor
    · rintro ⟨j, rfl, hj⟩
      exact ⟨j, rfl, Nat.not_le.mp fun hge => hnone j ⟨hj, hge⟩⟩
    · rintro ⟨j, rfl, hj⟩
      exact ⟨j, rfl, Nat.lt_of_le_of_lt hle hj⟩
  rw [hset] at hhere
  exact hhere.unique hthere

/-- A quantum of a millisecond. -/
theorem grid_exact_millisecond : GridExact 1000000 := grid_exact (by decide) (by decide)

/-- A quantum of more than half of what a count can name: after its first multiple the count of
the second saturates, and the grid point is the instant of the saturated count. -/
theorem saturated_cell :
    ¬ ∀ n now : Nat, 0 < n → n < 2 ^ 64 → now < 2 ^ 128 → asNanos now < 2 ^ 64 - 1 →
      IsLeast (pointsAfter n now) ((Grid.new (fromNanos n)).nextGridPoint now) := by
  intro h
  have hleast := h (2 ^ 63) (fromNanos (2 ^ 63)) (by decide) (by decide) (by decide +kernel)
    (by decide +kernel)
  have hsecond : fromNanos (2 * 2 ^ 63) ∈ pointsAfter (2 ^ 63) (fromNanos (2 ^ 63)) :=
    ⟨2, rfl, by decide +kernel⟩
  have hpoint : (Grid.new (fromNanos (2 ^ 63))).nextGridPoint (fromNanos (2 ^ 63))
      = fromNanos (2 ^ 64 - 1) := by
    decide +kernel
  obtain ⟨⟨k, hk, -⟩, -⟩ := hleast
  rw [hpoint] at hk
  have hmultiple := fromNanos_injective hk
  omega

end Rsemu.Sched
