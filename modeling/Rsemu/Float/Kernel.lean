import Rsemu.Float.Format

/-!
# The arithmetic kernel

Every operation brings its result into a sign, a `u128` significand whose last bit is sticky,
and an exponent, and hands it to `roundExact`, the only rounding step.

Significands are natural numbers and exponents integers, and every operation that could leave
its machine type says so: `none` is an overflow of an exponent, of a sum, or bits shifted off
the top.
-/

namespace Rsemu.Float

def i32 (x : Int) : Option Int := if -2 ^ 31 ≤ x ∧ x < 2 ^ 31 then some x else none

def u128 (x : Nat) : Option Nat := if x < 2 ^ 128 then some x else none

theorem i32_eq {x : Int} (h : -2 ^ 31 ≤ x ∧ x < 2 ^ 31) : i32 x = some x := if_pos h

theorem u128_eq {x : Nat} (h : x < 2 ^ 128) : u128 x = some x := if_pos h

def bit (b : Bool) : Nat := if b then 1 else 0

def shrSticky (v n : Nat) : Nat :=
  if n = 0 then v
  else if 128 ≤ n then bit (v != 0)
  else v >>> n ||| bit (v &&& (1 <<< n - 1) != 0)

def extra : Nat := 3

/-- A significand moved until its top bit is at `target`. -/
def align (sig : Nat) (exp : Int) (target : Nat) : Option (Nat × Int) :=
  let msb := sig.log2
  if target < msb then
    (i32 (exp + (msb - target : Nat))).map fun exp => (shrSticky sig (msb - target), exp)
  else
    (u128 (sig <<< (target - msb))).bind fun sig =>
      (i32 (exp - (target - msb : Nat))).map fun exp => (sig, exp)

def toGrid (spec : Spec) (sig : Nat) (exp : Int) : Option (Nat × Int) :=
  (i32 (exp + extra)).bind fun last =>
    if last < spec.minUlp then
      (i32 (spec.minUlp - last)).bind fun n =>
        (i32 (exp + n)).map fun exp => (shrSticky sig n.toNat, exp)
    else some (sig, exp)

/-- Whether what is dropped rounds the rest up. -/
def roundsUp (round : Round) (sign : Bool) (keep rem : Nat) : Bool :=
  let half := 1 <<< (extra - 1)
  match round with
  | .tiesEven => decide (half < rem) || (rem == half && keep &&& 1 != 0)
  | .tiesAway => decide (half ≤ rem)
  | .towardZero => false
  | .towardNegative => rem != 0 && sign
  | .towardPositive => rem != 0 && !sign

def roundUp (p keep : Nat) (ulp : Int) (up : Bool) : Option (Nat × Int) :=
  if up then
    if (keep + 1) >>> p ≠ 0 then (i32 (ulp + 1)).map fun ulp => ((keep + 1) >>> 1, ulp)
    else some (keep + 1, ulp)
  else some (keep, ulp)

def toInf (round : Round) (sign : Bool) : Bool :=
  match round with
  | .tiesEven | .tiesAway => true
  | .towardZero => false
  | .towardNegative => sign
  | .towardPositive => !sign

def largest (spec : Spec) : Rounded :=
  .finite (spec.emax - ((spec.precision : Int) - 1)) ((2 ^ 64 - 1) >>> (64 - spec.precision))

def detected (t : Tininess) (after before : Bool) : Bool :=
  match t with
  | .afterRounding => after
  | .beforeRounding => before

/-- What is delivered, and the exceptions, for a significand that is not rounded to zero. -/
def report (sign : Bool) (spec : Spec) (env : Env) (inexact tinyBefore : Bool) (keep : Nat)
    (ulp lead : Int) : Outcome × Flags :=
  if spec.emax < lead then
    (.num sign (if toInf env.round sign then .inf else largest spec),
      { overflow := true, inexact := true })
  else
    let tiny := detected env.tininess (decide (lead < spec.emin)) tinyBefore
    if tiny && env.flushOutputs then
      (.num sign .zero, { inexact := true, underflow := true })
    else
      (.num sign (.finite ulp keep), { inexact := inexact, underflow := tiny && inexact })

/-- The outcome and the flags of a rounded magnitude. -/
def conclude (sign : Bool) (spec : Spec) (env : Env) (inexact tinyBefore : Bool) (keep : Nat)
    (ulp : Int) : Option (Outcome × Flags) :=
  if keep = 0 then some (.num sign .zero, { inexact := true, underflow := true })
  else (i32 (ulp + keep.log2)).map fun lead => report sign spec env inexact tinyBefore keep ulp lead

/-- A magnitude rounded on the grid it is on. -/
def roundGrid (sign : Bool) (spec : Spec) (env : Env) (tinyBefore : Bool) (sig : Nat)
    (exp : Int) : Option (Outcome × Flags) :=
  let rem := sig &&& (1 <<< extra - 1)
  let keep := sig >>> extra
  (i32 (exp + extra)).bind fun ulp =>
    (roundUp spec.precision keep ulp (roundsUp env.round sign keep rem)).bind fun r =>
      conclude sign spec env (rem != 0) tinyBefore r.1 r.2

/--
Round an exact value to a format and report the exceptions. The value is
`(-1)^sign * sig * 2^exp`, with everything already lost folded into the last bit.
-/
def roundExact (sign : Bool) (exp : Int) (sig : Nat) (spec : Spec) (env : Env) :
    Option (Outcome × Flags) :=
  if sig = 0 then some (.num sign .zero, .none)
  else
    (align sig exp (spec.precision + extra - 1)).bind fun a =>
      (i32 (a.2 + (spec.precision + extra - 1 : Nat))).bind fun lead =>
        (toGrid spec a.1 a.2).bind fun g =>
          roundGrid sign spec env (decide (lead < spec.emin)) g.1 g.2

end Rsemu.Float
