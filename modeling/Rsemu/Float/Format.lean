import Rsemu.Base.Rounding

/-!
# Formats, environments and values

The parameters of the soft-float subsystem: a rounding direction, a guest's environment, a
format's precision and exponent range (`Spec`), and a value taken apart into a sign, an
integer significand and the exponent of its last bit (`Parts`).

A `Spec` keeps the subnormal grid apart from the precision.
-/

namespace Rsemu.Float

open Rounding

attribute [local instance] atLeastTwo_two

/-- The rounding direction. -/
inductive Round where
  | tiesEven
  | tiesAway
  | towardZero
  | towardNegative
  | towardPositive
  deriving DecidableEq

def Round.mode : Round → Bool → Mode
  | .tiesEven, _ => .even
  | .tiesAway, _ => .away
  | .towardZero, _ => .down
  | .towardNegative, sign => if sign then .up else .down
  | .towardPositive, sign => if sign then .down else .up

/-- The sticky exception flags: five of IEEE 754-2019 §7, and x86's sixth. -/
structure Flags where
  invalid : Bool := false
  divByZero : Bool := false
  overflow : Bool := false
  underflow : Bool := false
  inexact : Bool := false
  denormal : Bool := false
  deriving DecidableEq

namespace Flags

def none : Flags := {}

def union (a b : Flags) : Flags :=
  ⟨a.invalid || b.invalid, a.divByZero || b.divByZero, a.overflow || b.overflow,
    a.underflow || b.underflow, a.inexact || b.inexact, a.denormal || b.denormal⟩

end Flags

/-- When a result is found to be tiny. -/
inductive Tininess where
  | afterRounding
  | beforeRounding

/-- What is done with a subnormal operand. -/
inductive InputSubnormal where
  | exact
  | flagged
  | flushed
  | flushedFlagged

namespace InputSubnormal

def flushes : InputSubnormal → Bool
  | .flushed | .flushedFlagged => true
  | .exact | .flagged => false

def reports : InputSubnormal → Bool
  | .flagged | .flushedFlagged => true
  | .exact | .flushed => false

end InputSubnormal

/-- Which NaN an operation on NaNs delivers. -/
inductive Propagate where
  | default
  | firstNan
  | signalingFirst
  | largerSignificand

/-- The rules for NaNs. -/
structure Nan where
  propagate : Propagate
  defaultSign : Bool

/-- A guest's floating-point personality, plus the dynamic mode bits. -/
structure Env where
  round : Round
  nan : Nan
  tininess : Tininess
  subnormalInputs : InputSubnormal
  flushOutputs : Bool

namespace Env

def riscv : Env := ⟨.tiesEven, ⟨.default, false⟩, .afterRounding, .exact, false⟩

def x86Sse : Env := ⟨.tiesEven, ⟨.firstNan, true⟩, .afterRounding, .flagged, false⟩

def x87 : Env := { x86Sse with nan := ⟨.largerSignificand, true⟩ }

end Env

/-- The arithmetic parameters of a format, with no encoding attached. -/
structure Spec where
  /-- How many significand bits a result keeps, counting the leading one. -/
  precision : Nat
  /-- The exponent of the largest finite magnitude. -/
  emax : Int
  /-- The exponent of the last bit of the smallest subnormal. -/
  minUlp : Int

namespace Spec

def interchange (precision : Nat) (emax : Int) : Spec :=
  ⟨precision, emax, 1 - emax - ((precision : Int) - 1)⟩

def emin (s : Spec) : Int := 1 - s.emax

def withPrecision (s : Spec) (precision : Nat) : Spec := { s with precision := precision }

/--
What every format here has: a significand of 2 to 64 bits, a subnormal grid no
coarser than the precision at the smallest normal, and an exponent range that leaves
room for the exponents of intermediate results in 32 bits.
-/
structure Sane (s : Spec) : Prop where
  two_le_precision : 2 ≤ s.precision
  precision_le : s.precision ≤ 64
  emax_pos : 1 ≤ s.emax
  emax_le : s.emax ≤ 2 ^ 20
  minUlp_ge : -2 ^ 20 ≤ s.minUlp
  grid : s.minUlp ≤ s.emin - ((s.precision : Int) - 1)

end Spec

/-- The class of a value. -/
inductive Class where
  | zero
  | finite
  | inf
  | nan
  deriving DecidableEq

/-- A value taken apart: `(-1)^sign * frac * 2^exp`, or a NaN and its payload. -/
structure Parts where
  sign : Bool
  exp : Int
  frac : Nat
  cls : Class
  snan : Bool
  deriving DecidableEq

namespace Parts

def zero (sign : Bool) : Parts := ⟨sign, 0, 0, .zero, false⟩

end Parts

/-- A magnitude after rounding. -/
inductive Rounded where
  | zero
  | finite (exp : Int) (frac : Nat)
  | inf
  deriving DecidableEq

/-- What an operation produced, for the encoding layer to assemble. -/
inductive Outcome where
  | num (sign : Bool) (r : Rounded)
  | defaultNan
  | nan (sign : Bool) (payload : Nat)
  deriving DecidableEq

theorem two_zpow_pos (e : Int) : (0 : ℝ) < 2 ^ e := zpow_pos (by norm_num) e

theorem two_zpow_add (a b : Int) : (2 : ℝ) ^ (a + b) = 2 ^ a * 2 ^ b :=
  zpow_add₀ (by norm_num) a b

theorem log_eq {x : ℝ} {k : Int} (hlo : 2 ^ k ≤ x) (hhi : x < 2 ^ (k + 1)) : Int.log 2 x = k := by
  have hx : 0 < x := lt_of_lt_of_le (two_zpow_pos k) hlo
  have h1 : k ≤ Int.log 2 x := (Int.zpow_le_iff_le_log (by norm_num) hx).mp (by exact_mod_cast hlo)
  have h2 : Int.log 2 x < k + 1 :=
    (Int.lt_zpow_iff_log_lt (by norm_num) hx).mp (by exact_mod_cast hhi)
  omega

theorem zpow_log_le {x : ℝ} (hx : 0 < x) : (2 : ℝ) ^ Int.log 2 x ≤ x := by
  exact_mod_cast Int.zpow_log_le_self (b := 2) (by norm_num) hx

theorem lt_zpow_log {x : ℝ} : x < (2 : ℝ) ^ (Int.log 2 x + 1) := by
  exact_mod_cast Int.lt_zpow_succ_log_self (b := 2) (by norm_num) x

end Rsemu.Float
