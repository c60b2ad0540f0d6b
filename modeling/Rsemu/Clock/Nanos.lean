import Mathlib.Algebra.Order.Ring.Nat

/-!
# Nanoseconds on the timeline

An instant counts 2⁻⁶⁴ seconds in 128 bits, and a nanosecond is no whole number of those, so the
conversions round down both ways. `asNanos_eq` is the one division the two halves of the code
amount to, and `asNanos_fromNanos` is that the way there and back loses a nanosecond at most.
-/

namespace Rsemu.Clock

def nanosPerSecond : Nat := 1000000000

def fromNanos (nanos : Nat) : Nat := (nanos <<< 64) / nanosPerSecond

def asNanos (at_ : Nat) : Nat :=
  let whole := at_ >>> 64
  let frac := at_ % 2 ^ 64
  if 2 ^ 128 ≤ whole * nanosPerSecond then 2 ^ 64 - 1
  else min (whole * nanosPerSecond + (frac * nanosPerSecond) >>> 64) (2 ^ 64 - 1)

theorem fromNanos_eq (n : Nat) : fromNanos n = n * 2 ^ 64 / nanosPerSecond := by
  rw [fromNanos, Nat.shiftLeft_eq]

theorem fromNanos_mono {m n : Nat} (h : m ≤ n) : fromNanos m ≤ fromNanos n := by
  rw [fromNanos_eq, fromNanos_eq]
  exact Nat.div_le_div_right (Nat.mul_le_mul_right _ h)

theorem fromNanos_strictMono {m n : Nat} (h : m < n) : fromNanos m < fromNanos n := by
  have hstep : (m + 1) * 2 ^ 64 / nanosPerSecond ≤ fromNanos n := by
    rw [← fromNanos_eq]
    exact fromNanos_mono h
  rw [fromNanos_eq]
  unfold nanosPerSecond at hstep ⊢
  omega

theorem fromNanos_injective : Function.Injective fromNanos := by
  intro m n h
  rcases Nat.lt_trichotomy m n with hlt | heq | hlt
  · exact absurd h (Nat.ne_of_lt (fromNanos_strictMono hlt))
  · exact heq
  · exact absurd h (Nat.ne_of_gt (fromNanos_strictMono hlt))

theorem asNanos_eq {at_ : Nat} (hat : at_ < 2 ^ 128) :
    asNanos at_ = min (at_ * nanosPerSecond / 2 ^ 64) (2 ^ 64 - 1) := by
  have hwhole : at_ >>> 64 * nanosPerSecond < 2 ^ 128 := by
    unfold nanosPerSecond
    omega
  -- `at_ = whole * 2^64 + frac`, so the division splits where the code splits it.
  have htotal : at_ >>> 64 * nanosPerSecond + (at_ % 2 ^ 64 * nanosPerSecond) >>> 64
      = at_ * nanosPerSecond / 2 ^ 64 := by
    unfold nanosPerSecond
    omega
  unfold asNanos
  rw [if_neg (Nat.not_le.mpr hwhole), htotal]

theorem asNanos_fromNanos {n : Nat} (h : n < 2 ^ 64) :
    asNanos (fromNanos n) = n ∨ asNanos (fromNanos n) + 1 = n := by
  have hlt : fromNanos n < 2 ^ 128 := by
    rw [fromNanos_eq]
    unfold nanosPerSecond
    omega
  rw [asNanos_eq hlt, fromNanos_eq]
  unfold nanosPerSecond
  omega

end Rsemu.Clock
