import Mathlib.Data.Nat.Basic
import Mathlib.Tactic.Ring

/-!
# Fixed-width unsigned arithmetic

A `w`-bit unsigned integer is a natural number below `2 ^ w`. The operations here
are the three families a program picks between: *checked* ones answer `none`
instead of leaving the range, *wrapping* ones reduce modulo `2 ^ w`, and
*saturating* ones stop at the top of the range.
-/

namespace Rsemu.Word

def checkedAdd (w a b : Nat) : Option Nat :=
  if a + b < 2 ^ w then some (a + b) else none

def checkedMul (w a b : Nat) : Option Nat :=
  if a * b < 2 ^ w then some (a * b) else none

def wrappingAdd (w a b : Nat) : Nat := (a + b) % 2 ^ w

def wrappingSub (w a b : Nat) : Nat := (a + (2 ^ w - b % 2 ^ w)) % 2 ^ w

def saturatingAdd (w a b : Nat) : Nat := min (a + b) (2 ^ w - 1)

def saturatingMul (w a b : Nat) : Nat := min (a * b) (2 ^ w - 1)

theorem checkedAdd_eq_some {w a b c : Nat} :
    checkedAdd w a b = some c ↔ a + b < 2 ^ w ∧ c = a + b := by
  unfold checkedAdd
  split
  · rename_i h
    exact ⟨fun he => ⟨h, (Option.some.inj he).symm⟩, fun he => by rw [he.2]⟩
  · rename_i h
    exact ⟨fun he => absurd he (by simp), fun he => absurd he.1 h⟩

theorem checkedMul_eq_some {w a b c : Nat} :
    checkedMul w a b = some c ↔ a * b < 2 ^ w ∧ c = a * b := by
  unfold checkedMul
  split
  · rename_i h
    exact ⟨fun he => ⟨h, (Option.some.inj he).symm⟩, fun he => by rw [he.2]⟩
  · rename_i h
    exact ⟨fun he => absurd he (by simp), fun he => absurd he.1 h⟩

theorem wrappingSub_of_le {w a b : Nat} (hb : b ≤ a) (ha : a < 2 ^ w) :
    wrappingSub w a b = a - b := by
  have hb' : b < 2 ^ w := Nat.lt_of_le_of_lt hb ha
  unfold wrappingSub
  rw [Nat.mod_eq_of_lt hb', show a + (2 ^ w - b) = (a - b) + 2 ^ w by omega,
    Nat.add_mod_right, Nat.mod_eq_of_lt (by omega)]

theorem wrappingAdd_of_lt {w a b : Nat} (h : a + b < 2 ^ w) : wrappingAdd w a b = a + b :=
  Nat.mod_eq_of_lt h

theorem saturatingAdd_of_lt {w a b : Nat} (h : a + b < 2 ^ w) : saturatingAdd w a b = a + b :=
  Nat.min_eq_left (Nat.le_pred_of_lt h)

theorem saturatingMul_of_lt {w a b : Nat} (h : a * b < 2 ^ w) : saturatingMul w a b = a * b :=
  Nat.min_eq_left (Nat.le_pred_of_lt h)

theorem toNat_pos {x : UInt64} (hx : x ≠ 0) : 0 < x.toNat :=
  Nat.pos_of_ne_zero fun h0 => hx (UInt64.toNat.inj h0)

theorem wrappingAdd_lt (w a b : Nat) : wrappingAdd w a b < 2 ^ w :=
  Nat.mod_lt _ (Nat.two_pow_pos w)

section Accumulate

variable (D m : Nat)

theorem acc_eq (k n : Nat) :
    m * (k * D / m + n * (D / m)) + (k * D % m + n * (D % m)) = (k + n) * D := by
  have hk := Nat.div_add_mod (k * D) m
  have hD := Nat.div_add_mod D m
  calc m * (k * D / m + n * (D / m)) + (k * D % m + n * (D % m))
      = (m * (k * D / m) + k * D % m) + n * (m * (D / m) + D % m) := by ring
    _ = k * D + n * D := by rw [hk, hD]
    _ = (k + n) * D := by ring

theorem acc_div (hm : 0 < m) (k n : Nat) :
    k * D / m + n * (D / m) + (k * D % m + n * (D % m)) / m = (k + n) * D / m := by
  rw [← acc_eq D m k n, Nat.mul_add_div hm]

theorem acc_mod (k n : Nat) : (k * D % m + n * (D % m)) % m = (k + n) * D % m := by
  rw [← acc_eq D m k n, Nat.mul_add_mod]

theorem acc_carry_lt {w n r : Nat} (hm : m < 2 ^ w) (hn : n < 2 ^ w) (hr : r < m) :
    r + n * (D % m) < 2 ^ (2 * w) := by
  have hmod : D % m < m := Nat.mod_lt _ (by omega)
  have h1 : r + n * (D % m) ≤ (m - 1) + n * (m - 1) :=
    Nat.add_le_add (by omega) (Nat.mul_le_mul_left n (by omega))
  have h2 : (m - 1) + n * (m - 1) = (n + 1) * (m - 1) := by ring
  have h3 : (n + 1) * (m - 1) < 2 ^ w * 2 ^ w :=
    Nat.lt_of_le_of_lt (Nat.mul_le_mul_right _ hn)
      (Nat.mul_lt_mul_of_pos_left (by omega) (Nat.two_pow_pos w))
  rw [Nat.two_mul, Nat.pow_add]
  omega

end Accumulate

end Rsemu.Word
