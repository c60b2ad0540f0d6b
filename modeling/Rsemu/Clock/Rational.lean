import Mathlib.Data.Nat.GCD.Basic
import Mathlib.Data.Rat.Cast.Order
import Mathlib.Algebra.Order.Field.Rat
import Mathlib.Data.Nat.Cast.Field
import Mathlib.Tactic.FieldSimp
import Mathlib.Tactic.Ring
import Rsemu.Base.Word

/-!
# Exact rational frequencies

`core::clock`'s `Rational`: a non-negative fraction of two 64-bit integers, always
in lowest terms. The fields are private in the source and every constructor
reduces, so the invariant is part of the type here.

Cross-reduction happens before multiplication, which is why `checkedMul` fails
exactly when the *reduced* product does not fit, and never on the way there.
-/

namespace Rsemu.Clock

open Word

def checkedLcm (a b : Nat) : Option Nat :=
  if a = 0 ∨ b = 0 then some 0 else checkedMul 64 (a / Nat.gcd a b) b

/-- A reduced fraction of 64-bit numbers. -/
structure Rational where
  num : Nat
  den : Nat
  den_pos : 0 < den
  reduced : Nat.Coprime num den
  num_lt : num < 2 ^ 64
  den_lt : den < 2 ^ 64

namespace Rational

variable {a : Rational}

@[ext] theorem ext {b : Rational} (hn : a.num = b.num) (hd : a.den = b.den) : a = b := by
  cases a; cases b; simp only at hn hd; subst hn; subst hd; rfl

instance : DecidableEq Rational := fun a b =>
  decidable_of_iff (a.num = b.num ∧ a.den = b.den)
    ⟨fun h => ext h.1 h.2, fun h => by rw [h]; exact ⟨rfl, rfl⟩⟩

def one : Rational := ⟨1, 1, by decide, by decide, by decide, by decide⟩

def zero : Rational := ⟨0, 1, by decide, by decide, by decide, by decide⟩

instance : Inhabited Rational := ⟨one⟩

def integer (n : UInt64) : Rational :=
  ⟨n.toNat, 1, by decide, Nat.coprime_one_right _, n.toNat_lt, by decide⟩

def isZero (a : Rational) : Bool := a.num == 0

/-- `num / den`, reduced; `none` for a zero denominator. -/
def new (num den : UInt64) : Option Rational :=
  if hz : den.toNat = 0 then none
  else if num.toNat = 0 then some zero
  else
    let g := Nat.gcd num.toNat den.toNat
    have hd : 0 < den.toNat := Nat.pos_of_ne_zero hz
    have hg : 0 < g := Nat.gcd_pos_of_pos_right _ hd
    some ⟨num.toNat / g, den.toNat / g,
      Nat.div_pos (Nat.le_of_dvd hd (Nat.gcd_dvd_right _ _)) hg,
      Nat.coprime_div_gcd_div_gcd hg,
      Nat.lt_of_le_of_lt (Nat.div_le_self _ _) num.toNat_lt,
      Nat.lt_of_le_of_lt (Nat.div_le_self _ _) den.toNat_lt⟩

theorem cross_reduced (a b : Rational) :
    Nat.Coprime (a.num / Nat.gcd a.num b.den * (b.num / Nat.gcd b.num a.den))
        (a.den / Nat.gcd b.num a.den * (b.den / Nat.gcd a.num b.den))
      ∧ 0 < a.den / Nat.gcd b.num a.den * (b.den / Nat.gcd a.num b.den) := by
  have hg1 : 0 < Nat.gcd a.num b.den := Nat.gcd_pos_of_pos_right _ b.den_pos
  have hg2 : 0 < Nat.gcd b.num a.den := Nat.gcd_pos_of_pos_right _ a.den_pos
  have h1 := Nat.coprime_div_gcd_div_gcd hg1
  have h2 := Nat.coprime_div_gcd_div_gcd hg2
  have ha : Nat.Coprime (a.num / Nat.gcd a.num b.den) (a.den / Nat.gcd b.num a.den) :=
    (a.reduced.coprime_div_left (Nat.gcd_dvd_left _ _)).coprime_div_right (Nat.gcd_dvd_right _ _)
  have hb : Nat.Coprime (b.num / Nat.gcd b.num a.den) (b.den / Nat.gcd a.num b.den) :=
    (b.reduced.coprime_div_left (Nat.gcd_dvd_left _ _)).coprime_div_right (Nat.gcd_dvd_right _ _)
  refine ⟨Nat.Coprime.mul_left (ha.mul_right h1) (h2.mul_right hb), ?_⟩
  exact Nat.mul_pos (Nat.div_pos (Nat.le_of_dvd a.den_pos (Nat.gcd_dvd_right _ _)) hg2)
    (Nat.div_pos (Nat.le_of_dvd b.den_pos (Nat.gcd_dvd_right _ _)) hg1)

/-- The product in lowest terms, if it fits. -/
def checkedMul (a b : Rational) : Option Rational :=
  if a.isZero || b.isZero then some zero
  else
    if hn : a.num / Nat.gcd a.num b.den * (b.num / Nat.gcd b.num a.den) < 2 ^ 64 then
      if hd : a.den / Nat.gcd b.num a.den * (b.den / Nat.gcd a.num b.den) < 2 ^ 64 then
        some ⟨_, _, (cross_reduced a b).2, (cross_reduced a b).1, hn, hd⟩
      else none
    else none

def checkedScale (a : Rational) (mul div : UInt64) : Option Rational :=
  match new mul div with
  | none => none
  | some r => a.checkedMul r

def toQ (a : Rational) : ℚ := (a.num : ℚ) / (a.den : ℚ)

theorem den_ne_zero (a : Rational) : (a.den : ℚ) ≠ 0 :=
  Nat.cast_ne_zero.mpr (Nat.pos_iff_ne_zero.mp a.den_pos)

theorem eq_of_toQ {b : Rational} (h : a.toQ = b.toQ) : a = b := by
  unfold toQ at h
  rw [div_eq_div_iff a.den_ne_zero b.den_ne_zero] at h
  have hx : a.num * b.den = b.num * a.den := by exact_mod_cast h
  have hden : a.den = b.den := by
    refine Nat.dvd_antisymm ?_ ?_
    · have : a.den ∣ a.num * b.den := ⟨b.num, by rw [hx, Nat.mul_comm]⟩
      exact a.reduced.symm.dvd_of_dvd_mul_left this
    · have : b.den ∣ b.num * a.den := ⟨a.num, by rw [← hx, Nat.mul_comm]⟩
      exact b.reduced.symm.dvd_of_dvd_mul_left this
  refine ext ?_ hden
  rw [hden] at hx
  exact Nat.eq_of_mul_eq_mul_right b.den_pos hx

theorem toQ_one : one.toQ = 1 := by simp [one, toQ]

theorem toQ_integer (n : UInt64) : (integer n).toQ = (n.toNat : ℚ) := by simp [integer, toQ]

theorem isZero_iff (a : Rational) : a.isZero = true ↔ a.num = 0 := by simp [isZero]

theorem toQ_eq_zero : a.toQ = 0 ↔ a.num = 0 := by
  unfold toQ
  rw [div_eq_zero_iff]
  exact ⟨fun h => by rcases h with h | h <;> [exact_mod_cast h; exact absurd h a.den_ne_zero],
    fun h => Or.inl (by exact_mod_cast h)⟩

theorem toQ_pos (h : 0 < a.num) : 0 < a.toQ :=
  div_pos (Nat.cast_pos.mpr h) (Nat.cast_pos.mpr a.den_pos)

theorem cast_div_gcd_left (x y : Nat) (h : 0 < Nat.gcd x y) :
    ((x / Nat.gcd x y : Nat) : ℚ) = (x : ℚ) / (Nat.gcd x y : ℚ) :=
  Nat.cast_div (Nat.gcd_dvd_left x y) (Nat.cast_ne_zero.mpr (Nat.pos_iff_ne_zero.mp h))

theorem cast_div_gcd_right (x y : Nat) (h : 0 < Nat.gcd x y) :
    ((y / Nat.gcd x y : Nat) : ℚ) = (y : ℚ) / (Nat.gcd x y : ℚ) :=
  Nat.cast_div (Nat.gcd_dvd_right x y) (Nat.cast_ne_zero.mpr (Nat.pos_iff_ne_zero.mp h))

theorem new_toQ {num den : UInt64} {r : Rational} (h : new num den = some r) :
    r.toQ = (num.toNat : ℚ) / (den.toNat : ℚ) ∧ 0 < den.toNat := by
  unfold new at h
  split at h
  · cases h
  · rename_i hz
    have hpos := Nat.pos_of_ne_zero hz
    refine ⟨?_, hpos⟩
    split at h
    · rename_i h0
      rw [← Option.some.inj h, h0]
      simp [zero, toQ]
    · have hg : 0 < Nat.gcd num.toNat den.toNat := Nat.gcd_pos_of_pos_right _ hpos
      have hgq : (Nat.gcd num.toNat den.toNat : ℚ) ≠ 0 :=
        Nat.cast_ne_zero.mpr (Nat.pos_iff_ne_zero.mp hg)
      rw [← Option.some.inj h]
      simp only [toQ]
      rw [cast_div_gcd_left _ _ hg, cast_div_gcd_right _ _ hg, div_div_div_cancel_right₀ hgq]

theorem checkedMul_toQ {b r : Rational} (h : a.checkedMul b = some r) : r.toQ = a.toQ * b.toQ := by
  unfold checkedMul at h
  split at h
  · rename_i hz
    rw [← Option.some.inj h]
    have hzero : a.toQ * b.toQ = 0 := by
      rcases Bool.or_eq_true_iff.mp hz with hz | hz
      · rw [toQ_eq_zero.mpr ((isZero_iff a).mp hz), zero_mul]
      · rw [toQ_eq_zero.mpr ((isZero_iff b).mp hz), mul_zero]
    rw [hzero]
    simp [zero, toQ]
  · split at h
    · split at h
      · have hg1 : 0 < Nat.gcd a.num b.den := Nat.gcd_pos_of_pos_right _ b.den_pos
        have hg2 : 0 < Nat.gcd b.num a.den := Nat.gcd_pos_of_pos_right _ a.den_pos
        have hq1 : (Nat.gcd a.num b.den : ℚ) ≠ 0 :=
          Nat.cast_ne_zero.mpr (Nat.pos_iff_ne_zero.mp hg1)
        have hq2 : (Nat.gcd b.num a.den : ℚ) ≠ 0 :=
          Nat.cast_ne_zero.mpr (Nat.pos_iff_ne_zero.mp hg2)
        rw [← Option.some.inj h]
        simp only [toQ, Nat.cast_mul]
        rw [cast_div_gcd_left _ _ hg1, cast_div_gcd_right _ _ hg1, cast_div_gcd_left _ _ hg2,
          cast_div_gcd_right _ _ hg2]
        field_simp
      · cases h
    · cases h

theorem checkedScale_toQ {r : Rational} {mul div : UInt64} (h : a.checkedScale mul div = some r) :
    r.toQ = a.toQ * ((mul.toNat : ℚ) / (div.toNat : ℚ)) := by
  unfold checkedScale at h
  split at h
  · cases h
  · rename_i s hs
    rw [checkedMul_toQ h, (new_toQ hs).1]

end Rational

theorem checkedLcm_eq {a b c : Nat} (ha : 0 < a) (hb : 0 < b) (h : checkedLcm a b = some c) :
    c = Nat.lcm a b ∧ c < 2 ^ 64 := by
  unfold checkedLcm at h
  rw [if_neg (by omega)] at h
  obtain ⟨hlt, rfl⟩ := checkedMul_eq_some.mp h
  refine ⟨?_, hlt⟩
  change a / Nat.gcd a b * b = a * b / Nat.gcd a b
  rw [Nat.mul_comm, ← Nat.mul_div_assoc _ (Nat.gcd_dvd_left a b), Nat.mul_comm]

end Rsemu.Clock
