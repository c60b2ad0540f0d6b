import Mathlib.Data.Int.GCD

/-!
# Exact rational arithmetic

A frequency such as 236250000/11 Hz is kept as it is written. Every operation is checked: the
terms are 128-bit, and one that leaves them is `none`, never a wrap.
-/

namespace Rsemu.Machine

def i128 (x : Int) : Option Int := if -2 ^ 127 ≤ x ∧ x < 2 ^ 127 then some x else none

/-- A rational number in lowest terms, with a positive denominator. -/
structure Rational where
  num : Int
  den : Int
  den_pos : 0 < den
  reduced : num.gcd den = 1
  deriving DecidableEq

namespace Rational

theorem div_gcd_pos {num den : Int} (h : 0 < den) : 0 < den / num.gcd den := by
  have hdvd : ((num.gcd den : Nat) : Int) ∣ den := Int.gcd_dvd_right ..
  exact Int.ediv_pos_of_pos_of_dvd h (by omega) hdvd

theorem gcd_div_gcd {num den : Int} (h : 0 < den) :
    (num / num.gcd den).gcd (den / num.gcd den) = 1 :=
  Int.gcd_ediv_gcd_ediv_gcd (Int.gcd_pos_of_ne_zero_right _ (by omega))

def reduce (num den : Int) (h : 0 < den) : Rational :=
  ⟨num / num.gcd den, den / num.gcd den, div_gcd_pos h, gcd_div_gcd h⟩

def new (num den : Int) : Option Rational :=
  if num = -2 ^ 127 ∨ den = -2 ^ 127 then none
  else if hpos : 0 < den then some (reduce num den hpos)
  else if hneg : den < 0 then some (reduce (-num) (-den) (by omega))
  else none

def fromInt (n : Int) : Rational := ⟨n, 1, by decide, Int.gcd_one_right n⟩

def zero : Rational := fromInt 0

def toInteger (r : Rational) : Option Int := if r.den = 1 then some r.num else none

def checkedAdd (a b : Rational) : Option Rational :=
  (i128 (a.num * b.den)).bind fun x =>
    (i128 (b.num * a.den)).bind fun y =>
      (i128 (x + y)).bind fun num =>
        (i128 (a.den * b.den)).bind fun den => new num den

def checkedSub (a b : Rational) : Option Rational :=
  (i128 (a.num * b.den)).bind fun x =>
    (i128 (b.num * a.den)).bind fun y =>
      (i128 (x - y)).bind fun num =>
        (i128 (a.den * b.den)).bind fun den => new num den

def checkedMul (a b : Rational) : Option Rational :=
  (i128 (a.num * b.num)).bind fun num =>
    (i128 (a.den * b.den)).bind fun den => new num den

def checkedDiv (a b : Rational) : Option Rational :=
  if b.num = 0 then none
  else
    (i128 (a.num * b.den)).bind fun num =>
      (i128 (a.den * b.num)).bind fun den => new num den

def checkedNeg (a : Rational) : Option Rational := (i128 (-a.num)).bind fun num => new num a.den

end Rational

end Rsemu.Machine
