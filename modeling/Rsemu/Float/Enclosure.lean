import Rsemu.Float.Encoding

/-!
# Rounding an enclosure

The transcendental functions have no exact result to round. They round both ends of an
enclosure instead, and accept when the ends come out the same: the same value, the same flags,
and on the same side of the exact result. `decide_sound` is that everything in the enclosure
then rounds that way too.

An end is an integer of any size. It is folded to 126 bits with a sticky bit, and its exponent
is brought into ±2^24: beyond that everything overflows or rounds to nothing, as long as the
format's own exponents stay inside (`Spec.InClamp`).
-/

namespace Rsemu.Float

open Rounding

attribute [local instance] atLeastTwo_two

/-! ## The code -/

def i64 (v : Int) : Option Int := if -2 ^ 63 ≤ v ∧ v < 2 ^ 63 then some v else none

def bitLen (v : Nat) : Nat := if v = 0 then 0 else v.log2 + 1

def shl128 (v : Nat) (n : Int) : Option Nat :=
  if 0 ≤ n ∧ n < 128 then some ((v <<< n.toNat) % 2 ^ 128) else none

/-- Whether an outcome's magnitude is greater than `sig * 2^exp`. -/
def magnitudeAbove (out : Outcome) (sig : Nat) (exp : Int) : Option Bool :=
  match out with
  | .num _ .inf => some true
  | .num _ (.finite re frac) =>
    if re + bitLen frac ≠ exp + bitLen sig then some (decide (exp + bitLen sig < re + bitLen frac))
    else if exp ≤ re then
      (i32 (re - exp)).bind fun n => (shl128 frac n).map fun a => decide (sig < a)
    else
      (i32 (exp - re)).bind fun n => (shl128 sig n).map fun b => decide (b < frac)
  | _ => some false

def foldPoint (sig : Nat) (exp : Int) : Option (Nat × Int) :=
  if 126 < bitLen sig then
    let n := bitLen sig - 126
    (i64 (exp + n)).map fun e => ((u128 (sig >>> n)).getD 0 ||| bit (sig % 2 ^ n != 0), e)
  else some ((u128 sig).getD 0, exp)

def clampExp (e : Int) : Int := max (-2 ^ 24) (min e (2 ^ 24))

def roundPoint (neg : Bool) (sig : Nat) (exp : Int) (spec : Spec) (env : Env) :
    Option (Outcome × Flags × Bool) :=
  (foldPoint sig exp).bind fun p =>
    (roundExact neg (clampExp p.2) p.1 spec env).bind fun r =>
      (magnitudeAbove r.1 p.1 (clampExp p.2)).map fun up => (r.1, r.2, up)

/-- The true value lies in `(-1)^neg * [mag - err, mag + err] * 2^exp`. -/
structure Enclosure where
  neg : Bool
  mag : Nat
  err : Nat
  exp : Int

/-- Decide an enclosure; the inner `none` when its ends round differently. -/
def Enclosure.decide (enc : Enclosure) (spec : Spec) (env : Env) :
    Option (Option (Outcome × Flags × Bool)) :=
  if enc.mag = 0 then some none
  else if enc.err = 0 then (roundPoint enc.neg enc.mag enc.exp spec env).map some
  else if enc.mag ≤ enc.err then some none
  else
    -- strictly outside both ends, at half-unit resolution
    let lo := (enc.mag - enc.err) <<< 1 - 1
    let hi := (enc.mag + enc.err) <<< 1 + 1
    (i64 (enc.exp - 1)).bind fun exp =>
      (roundPoint enc.neg lo exp spec env).bind fun a =>
        (roundPoint enc.neg hi exp spec env).map fun b => if a = b then some a else none

/-- A delivered elementary function. -/
structure Elementary where
  value : F80
  flags : Flags
  /-- Whether the delivered magnitude is greater than the exact one. -/
  roundedUp : Bool

def finish (out : Outcome) (flags : Flags) (roundedUp : Bool) (env : Env) : Option Elementary :=
  (F80.encode out env).map fun v => ⟨v, flags, roundedUp⟩

def gap : Nat := 8

/-- A number that lies next to a representable one, rounded. -/
def beside (neg : Bool) (m : Nat) (e : Int) (above : Bool) (pc : Precision) (env : Env)
    (extra : Flags) : Option Elementary :=
  let base := m <<< (gap + 1)
  let rep := if above then base + 1 else base - 1
  (i64 (e - gap)).bind fun e => (i64 (e - 1)).bind fun e =>
    (roundPoint neg rep e pc.spec env).bind fun r => finish r.1 (r.2.1.union extra) r.2.2 env

/-! ## What is asked -/

/-- The delivered magnitude is greater than `x`. -/
def Outcome.Above (out : Outcome) (x : ℝ) : Prop :=
  match out with
  | .num _ .inf => True
  | .num _ (.finite exp frac) => x < frac * 2 ^ exp
  | _ => False

/-- A real between the two ends. -/
def Enclosure.Contains (enc : Enclosure) (x : ℝ) : Prop :=
  ((enc.mag : ℝ) - enc.err) * 2 ^ enc.exp ≤ x ∧ x ≤ (enc.mag + enc.err) * 2 ^ enc.exp

/-- A result says how `x` rounds, its flags and its side included. -/
structure RoundsTo (neg : Bool) (x : ℝ) (spec : Spec) (env : Env) (r : Outcome × Flags × Bool) :
    Prop where
  settles : settle neg x spec env = (r.1, r.2.1)
  up : r.2.2 = true ↔ r.1.Above x

/-- A format whose exponents the clamp leaves alone. -/
structure Spec.InClamp (s : Spec) : Prop where
  precision_pos : 1 ≤ s.precision
  precision_le : s.precision ≤ 64
  emax_le : s.emax ≤ 2 ^ 24 - 125
  minUlp_ge : 127 - 2 ^ 24 ≤ s.minUlp
  minUlp_le : s.minUlp ≤ 2 ^ 24

/-! ## Rounding is monotone -/

section Monotone

variable {s : Spec} {m : Mode} {x y : ℝ}

theorem Spec.rounded_mono (hp : 1 ≤ s.precision) (hx : 0 < x) (hxy : x ≤ y) :
    s.rounded m x ≤ s.rounded m y := by
  have hy : 0 < y := lt_of_lt_of_le hx hxy
  have hlog : Int.log 2 x ≤ Int.log 2 y := Int.log_mono_right hx hxy
  rw [Spec.rounded_eq, Spec.rounded_eq]
  have hulp : s.ulp x ≤ s.ulp y := by
    unfold Spec.ulp
    omega
  rcases hulp.lt_or_eq with hlt | heq
  · -- a power of two lies between, on both grids
    have htop : s.ulp y ≤ Int.log 2 y ∧ Int.log 2 x < Int.log 2 y := by
      unfold Spec.ulp at hlt ⊢
      omega
    have hbelow : x ≤ 2 ^ Int.log 2 y := ((log_lt_iff hx _).mp htop.2).le
    calc onGrid m (s.ulp x) x ≤ 2 ^ Int.log 2 y := onGrid_le (by omega) hbelow
      _ ≤ onGrid m (s.ulp y) y := le_onGrid htop.1 (zpow_log_le hy)
  · rw [heq]
    have hscaled : x / 2 ^ s.ulp y ≤ y / 2 ^ s.ulp y :=
      div_le_div_of_nonneg_right hxy (two_zpow_pos _).le
    exact mul_le_mul_of_nonneg_right (Nat.cast_le.mpr (roundNat_mono m hscaled)) (two_zpow_pos _).le

theorem carry_exp (hp : 1 ≤ s.precision) (hx : 0 < x) (hk : s.kept m x ≠ 0) :
    (carry s.precision (s.kept m x) (s.ulp x)).2 =
      max (Int.log 2 (s.rounded m x) - ((s.precision : Int) - 1)) s.minUlp := by
  have hlog := carry_log (p := s.precision) (u := s.ulp x) hp hk
  have hle := kept_le s m x
  have hmin : s.minUlp ≤ s.ulp x := le_max_right _ _
  rw [Spec.rounded, ← hlog]
  unfold carry
  by_cases htop : s.kept m x = 2 ^ s.precision
  · rw [if_pos htop]
    simp only [Nat.log2_two_pow]
    omega
  · rw [if_neg htop]
    have hlt : s.kept m x < 2 ^ s.precision := lt_of_le_of_ne hle htop
    have hlogk : (s.kept m x).log2 < s.precision := (Nat.log2_lt hk).mpr hlt
    simp only
    rcases hmin.lt_or_eq with hnormal | heq
    · -- off the subnormal grid the significand is full
      have hulp : s.ulp x = Int.log 2 x - ((s.precision : Int) - 1) := by
        unfold Spec.ulp at hnormal ⊢
        omega
      have hfull : 2 ^ (s.precision - 1) ≤ s.kept m x := by
        refine le_roundNat ?_
        rw [le_div_iff₀ (two_zpow_pos _), hulp]
        push_cast
        rw [← zpow_natCast, ← two_zpow_add]
        refine le_trans (le_of_eq ?_) (zpow_log_le hx)
        congr 1
        omega
      have hlogge : s.precision - 1 ≤ (s.kept m x).log2 := (Nat.le_log2 hk).mpr hfull
      omega
    · omega

end Monotone

/-! ## The four ways a magnitude settles -/

section Ways

variable {sign : Bool} {spec : Spec} {env : Env} {x : ℝ}

theorem Spec.rounded_nonneg (s : Spec) (m : Mode) (x : ℝ) : 0 ≤ s.rounded m x :=
  mul_nonneg (Nat.cast_nonneg _) (two_zpow_pos _).le

theorem Spec.rounded_eq_zero {s : Spec} {m : Mode} : s.rounded m x = 0 ↔ s.kept m x = 0 := by
  unfold Spec.rounded
  rw [mul_eq_zero, Nat.cast_eq_zero, or_iff_left (two_zpow_pos _).ne']

theorem settle_of_zero (h : spec.rounded (env.round.mode sign) x = 0) :
    settle sign x spec env = (.num sign .zero, { inexact := true, underflow := true }) :=
  if_pos (carry_eq_zero.mpr (Spec.rounded_eq_zero.mp h))

theorem lead_eq (hp : 1 ≤ spec.precision) {m : Mode} (hpos : 0 < spec.rounded m x) :
    (carry spec.precision (spec.kept m x) (spec.ulp x)).2 +
      (carry spec.precision (spec.kept m x) (spec.ulp x)).1.log2 =
      Int.log 2 (spec.rounded m x) :=
  carry_log hp (Spec.rounded_eq_zero.not.mp hpos.ne')

theorem settle_of_overflow (hp : 1 ≤ spec.precision)
    (h : 2 ^ (spec.emax + 1) ≤ spec.rounded (env.round.mode sign) x) :
    settle sign x spec env =
      (.num sign (if toInf env.round sign then .inf else largest spec),
        { overflow := true, inexact := true }) := by
  have hpos := lt_of_lt_of_le (two_zpow_pos _) h
  have hlead := lead_eq hp hpos
  have hover : spec.emax < Int.log 2 (spec.rounded (env.round.mode sign) x) :=
    (lt_log_iff hpos _).mpr h
  rw [← hlead] at hover
  unfold settle settled report
  rw [if_neg (carry_eq_zero.not.mpr (Spec.rounded_eq_zero.not.mp hpos.ne')), if_pos hover]

open Classical in
theorem detected_eq (hp : 1 ≤ spec.precision) (hx : 0 < x)
    (hpos : 0 < spec.rounded (env.round.mode sign) x) :
    detected env.tininess
      (decide ((carry spec.precision (spec.kept (env.round.mode sign) x) (spec.ulp x)).2 +
        (carry spec.precision (spec.kept (env.round.mode sign) x) (spec.ulp x)).1.log2 < spec.emin))
      (decide (Int.log 2 x < spec.emin)) = decide (DetectsTiny sign x spec env) := by
  apply Bool.eq_iff_iff.mpr
  unfold DetectsTiny detected
  cases env.tininess with
  | afterRounding =>
    simp only [decide_eq_true_eq]
    rw [lead_eq hp hpos, log_lt_iff hpos]
  | beforeRounding =>
    simp only [decide_eq_true_eq]
    rw [log_lt_iff hx]

theorem settle_of_flushed (hp : 1 ≤ spec.precision) (hx : 0 < x)
    (hpos : 0 < spec.rounded (env.round.mode sign) x)
    (h : spec.rounded (env.round.mode sign) x < 2 ^ (spec.emax + 1))
    (htiny : DetectsTiny sign x spec env) (hflush : env.flushOutputs = true) :
    settle sign x spec env = (.num sign .zero, { inexact := true, underflow := true }) := by
  have hin : ¬ spec.emax < Int.log 2 (spec.rounded (env.round.mode sign) x) :=
    (lt_log_iff hpos _).not.mpr (not_le.mpr h)
  rw [← lead_eq hp hpos] at hin
  unfold settle settled report
  rw [if_neg (carry_eq_zero.not.mpr (Spec.rounded_eq_zero.not.mp hpos.ne')), if_neg hin,
    detected_eq hp hx hpos, hflush, if_pos (by simpa using htiny)]

open Classical in
section

variable (hp : 1 ≤ spec.precision)
include hp

theorem settle_of_finite (hx : 0 < x)
    (hpos : 0 < spec.rounded (env.round.mode sign) x)
    (h : spec.rounded (env.round.mode sign) x < 2 ^ (spec.emax + 1))
    (hkeep : ¬ (DetectsTiny sign x spec env ∧ env.flushOutputs = true)) :
    settle sign x spec env =
      (.num sign (.finite (carry spec.precision (spec.kept (env.round.mode sign) x) (spec.ulp x)).2
          (carry spec.precision (spec.kept (env.round.mode sign) x) (spec.ulp x)).1),
        { inexact := decide (x ≠ spec.rounded (env.round.mode sign) x)
          underflow := decide (DetectsTiny sign x spec env) &&
            decide (x ≠ spec.rounded (env.round.mode sign) x) }) := by
  have hin : ¬ spec.emax < Int.log 2 (spec.rounded (env.round.mode sign) x) :=
    (lt_log_iff hpos _).not.mpr (not_le.mpr h)
  rw [← lead_eq hp hpos] at hin
  unfold settle settled report
  simp only
  rw [if_neg (carry_eq_zero.not.mpr (Spec.rounded_eq_zero.not.mp hpos.ne')), if_neg hin,
    detected_eq hp hx hpos, if_neg (by simpa using hkeep)]
  rfl

theorem carry_congr {m : Mode} {y : ℝ} (hx : 0 < x) (hy : 0 < y)
    (hpos : 0 < spec.rounded m x) (h : spec.rounded m x = spec.rounded m y) :
    carry spec.precision (spec.kept m x) (spec.ulp x) =
      carry spec.precision (spec.kept m y) (spec.ulp y) := by
  have hkx := Spec.rounded_eq_zero.not.mp hpos.ne'
  have hky := Spec.rounded_eq_zero.not.mp (h ▸ hpos).ne'
  have hexp : (carry spec.precision (spec.kept m x) (spec.ulp x)).2 =
      (carry spec.precision (spec.kept m y) (spec.ulp y)).2 := by
    rw [carry_exp hp hx hkx, carry_exp hp hy hky, h]
  refine Prod.ext ?_ hexp
  have hvx := carry_value (p := spec.precision) (k := spec.kept m x) (u := spec.ulp x) hp
  have hvy := carry_value (p := spec.precision) (k := spec.kept m y) (u := spec.ulp y) hp
  have hval : ((carry spec.precision (spec.kept m x) (spec.ulp x)).1 : ℝ) =
      (carry spec.precision (spec.kept m y) (spec.ulp y)).1 := by
    refine mul_right_cancel₀
      (two_zpow_pos (carry spec.precision (spec.kept m x) (spec.ulp x)).2).ne' ?_
    rw [hvx]
    rw [hexp, hvy]
    exact h
  exact_mod_cast hval

theorem detectsTiny_anti {y : ℝ} (hx : 0 < x) (hxy : x ≤ y)
    (h : DetectsTiny sign y spec env) : DetectsTiny sign x spec env := by
  unfold DetectsTiny at *
  cases ht : env.tininess with
  | beforeRounding =>
    rw [ht] at h
    exact lt_of_le_of_lt hxy h
  | afterRounding =>
    rw [ht] at h
    exact lt_of_le_of_lt (Spec.rounded_mono hp hx hxy) h

omit hp in
theorem Outcome.Above.anti {out : Outcome} {y : ℝ} (h : out.Above y) (hxy : x ≤ y) :
    out.Above x := by
  rcases out with ⟨sign, _ | ⟨exp, frac⟩ | _⟩ | _ | _
  · exact h
  · exact lt_of_le_of_lt hxy h
  · trivial
  · exact h
  · exact h

theorem settle_congr {y : ℝ} (hx : 0 < x) (hy : 0 < y)
    (hv : spec.rounded (env.round.mode sign) x = spec.rounded (env.round.mode sign) y)
    (hne : x ≠ spec.rounded (env.round.mode sign) x ↔ y ≠ spec.rounded (env.round.mode sign) y)
    (htiny : DetectsTiny sign x spec env ↔ DetectsTiny sign y spec env) :
    settle sign x spec env = settle sign y spec env := by
  rcases (Spec.rounded_nonneg spec (env.round.mode sign) x).eq_or_lt with hz | hpos
  · rw [settle_of_zero hz.symm, settle_of_zero (hv ▸ hz.symm)]
  by_cases hover : 2 ^ (spec.emax + 1) ≤ spec.rounded (env.round.mode sign) x
  · rw [settle_of_overflow hp hover, settle_of_overflow hp (hv ▸ hover)]
  rw [not_le] at hover
  by_cases hfl : DetectsTiny sign x spec env ∧ env.flushOutputs = true
  · rw [settle_of_flushed hp hx hpos hover hfl.1 hfl.2,
      settle_of_flushed hp hy (hv ▸ hpos) (hv ▸ hover) (htiny.mp hfl.1) hfl.2]
  · rw [settle_of_finite hp hx hpos hover hfl,
      settle_of_finite hp hy (hv ▸ hpos) (hv ▸ hover) (by rw [← htiny]; exact hfl),
      carry_congr hp hx hy hpos hv, decide_eq_decide.mpr hne, decide_eq_decide.mpr htiny]

theorem overflow_of_flag (hx : 0 < x)
    (h : (settle sign x spec env).2.overflow = true) :
    2 ^ (spec.emax + 1) ≤ spec.rounded (env.round.mode sign) x := by
  by_contra hlt
  rcases (Spec.rounded_nonneg spec (env.round.mode sign) x).eq_or_lt with hz | hpos
  · rw [settle_of_zero hz.symm] at h
    cases h
  · by_cases hfl : DetectsTiny sign x spec env ∧ env.flushOutputs = true
    · rw [settle_of_flushed hp hx hpos (not_le.mp hlt) hfl.1 hfl.2] at h
      cases h
    · rw [settle_of_finite hp hx hpos (not_le.mp hlt) hfl] at h
      cases h

theorem settle_between {lo hi : ℝ} (hlo : 0 < lo) (hlx : lo < x)
    (hxh : x < hi) (hsame : settle sign lo spec env = settle sign hi spec env)
    (hside : (settle sign lo spec env).1.Above lo → (settle sign lo spec env).1.Above hi) :
    settle sign x spec env = settle sign lo spec env ∧
      ((settle sign lo spec env).1.Above x ↔ (settle sign lo spec env).1.Above lo) := by
  have hx := hlo.trans hlx
  have hhi := hx.trans hxh
  refine ⟨?_, fun h => h.anti hlx.le, fun h => (hside h).anti hxh.le⟩
  obtain ⟨m, hm⟩ : ∃ m, m = env.round.mode sign := ⟨_, rfl⟩
  have hmono : spec.rounded m lo ≤ spec.rounded m x := Spec.rounded_mono hp hlo hlx.le
  have hmono' : spec.rounded m x ≤ spec.rounded m hi := Spec.rounded_mono hp hx hxh.le
  have h0 := Spec.rounded_nonneg spec m x
  have h0' := Spec.rounded_nonneg spec m lo
  rw [hm] at hmono hmono' h0 h0'
  by_cases hz : spec.rounded (env.round.mode sign) hi = 0
  · rw [hsame, settle_of_zero hz, settle_of_zero (le_antisymm (hz ▸ hmono') h0)]
  by_cases hover : 2 ^ (spec.emax + 1) ≤ spec.rounded (env.round.mode sign) lo
  · rw [settle_of_overflow hp hover, settle_of_overflow hp (le_trans hover hmono)]
  by_cases hover' : 2 ^ (spec.emax + 1) ≤ spec.rounded (env.round.mode sign) hi
  · -- one end overflows and the other does not: the flags tell
    have hflag : (settle sign lo spec env).2.overflow = true := by
      rw [hsame, settle_of_overflow hp hover']
    exact absurd (overflow_of_flag hp hlo hflag) hover
  rw [not_le] at hover hover'
  have hposh : 0 < spec.rounded (env.round.mode sign) hi :=
    lt_of_le_of_ne (le_trans h0 hmono') (Ne.symm hz)
  by_cases hfl : DetectsTiny sign hi spec env ∧ env.flushOutputs = true
  · rw [hsame, settle_of_flushed hp hhi hposh hover' hfl.1 hfl.2]
    rcases h0.eq_or_lt with hzx | hposx
    · exact settle_of_zero hzx.symm
    · exact settle_of_flushed hp hx hposx (lt_of_le_of_lt hmono' hover')
        (detectsTiny_anti hp hx hxh.le hfl.1) hfl.2
  -- finite at the upper end, so finite at the lower end, and the same number
  classical
  have hfin := settle_of_finite hp hhi hposh hover' hfl
  have hnz : settle sign lo spec env ≠ (.num sign .zero, { inexact := true, underflow := true }) := by
    rw [hsame, hfin]
    exact fun h => absurd (congrArg Prod.fst h) (by simp)
  have hposl : 0 < spec.rounded (env.round.mode sign) lo :=
    lt_of_le_of_ne h0' fun hzl => hnz (settle_of_zero hzl.symm)
  have hfl' : ¬ (DetectsTiny sign lo spec env ∧ env.flushOutputs = true) := fun h =>
    hnz (settle_of_flushed hp hlo hposl hover h.1 h.2)
  have hfin' := settle_of_finite hp hlo hposl hover hfl'
  rw [hfin', hfin, Prod.mk.injEq, Outcome.num.injEq, Rounded.finite.injEq, Flags.mk.injEq] at hsame
  obtain ⟨⟨-, hexp, hfrac⟩, -, -, -, hunder, hinexact, -⟩ := hsame
  have hvl := carry_value (p := spec.precision) (k := spec.kept (env.round.mode sign) lo)
    (u := spec.ulp lo) hp
  have hvh := carry_value (p := spec.precision) (k := spec.kept (env.round.mode sign) hi)
    (u := spec.ulp hi) hp
  have hv : spec.rounded (env.round.mode sign) lo = spec.rounded (env.round.mode sign) hi := by
    unfold Spec.rounded
    rw [← hvl, ← hvh, hexp, hfrac]
  have hvx : spec.rounded (env.round.mode sign) x = spec.rounded (env.round.mode sign) lo :=
    le_antisymm (hv ▸ hmono') hmono
  -- neither end is the number they round to, so nothing between them is
  have hne : lo ≠ spec.rounded (env.round.mode sign) lo := by
    intro heq
    rw [decide_eq_decide, ← hv] at hinexact
    exact absurd heq (hinexact.mpr (by linarith))
  have hnex : x ≠ spec.rounded (env.round.mode sign) x := by
    intro heq
    have habove : (settle sign lo spec env).1.Above lo := by
      rw [hfin']
      show lo < _
      rw [hvl]
      show lo < spec.rounded (env.round.mode sign) lo
      linarith
    have := hside habove
    rw [hfin'] at this
    have hlt : hi < _ := this
    rw [hvl] at hlt
    have hlt' : hi < spec.rounded (env.round.mode sign) lo := hlt
    linarith
  have hneh : hi ≠ spec.rounded (env.round.mode sign) hi :=
    (decide_eq_decide.mp hinexact).mp hne
  have htiny : DetectsTiny sign x spec env ↔ DetectsTiny sign lo spec env := by
    rw [decide_eq_true hne, decide_eq_true hneh, Bool.and_true, Bool.and_true,
      decide_eq_decide] at hunder
    exact ⟨detectsTiny_anti hp hlo hlx.le, fun h => detectsTiny_anti hp hx hxh.le (hunder.mp h)⟩
  exact settle_congr hp hx hlo hvx (iff_of_true hnex hne) htiny

end

end Ways

/-! ## The clamp -/

section Clamp

variable {sign : Bool} {spec : Spec} {env : Env} {x y : ℝ}

theorem Spec.rounded_low {s : Spec} (hp : 1 ≤ s.precision) (m : Mode) (hx : 0 < x)
    (hlow : x < 2 ^ (s.minUlp - 1)) : s.rounded m x = if m = .up then 2 ^ s.minUlp else 0 := by
  have hlog : Int.log 2 x < s.minUlp - 1 := (log_lt_iff hx _).mpr hlow
  have hulp : s.ulp x = s.minUlp := by
    unfold Spec.ulp
    omega
  have hpos := two_zpow_pos s.minUlp
  have hsmall : x / 2 ^ s.minUlp < 1 / 2 := by
    rw [div_lt_iff₀ hpos, ← half_place]
    exact hlow
  unfold Spec.rounded Spec.kept
  rw [hulp, roundNat_small m (div_pos hx hpos) hsmall]
  split
  · rw [Nat.cast_one, one_mul]
  · rw [Nat.cast_zero, zero_mul]

theorem settle_low (hp : 1 ≤ spec.precision) (hx : 0 < x) (hy : 0 < y)
    (hxlow : x < 2 ^ (spec.minUlp - 1)) (hylow : y < 2 ^ (spec.minUlp - 1))
    (hxmin : x < 2 ^ spec.emin) (hymin : y < 2 ^ spec.emin) :
    settle sign x spec env = settle sign y spec env ∧
      ((settle sign x spec env).1.Above x ↔ (settle sign x spec env).1.Above y) := by
  have hrx := Spec.rounded_low hp (env.round.mode sign) hx hxlow
  have hry := Spec.rounded_low hp (env.round.mode sign) hy hylow
  have hhalf : (2 : ℝ) ^ (spec.minUlp - 1) < 2 ^ spec.minUlp := two_zpow_lt (by omega)
  have hside : ∀ z : ℝ, 0 < z → z < 2 ^ (spec.minUlp - 1) →
      z ≠ if env.round.mode sign = .up then 2 ^ spec.minUlp else 0 := by
    intro z hz hlow
    split
    · exact ne_of_lt (hlow.trans hhalf)
    · exact ne_of_gt hz
  refine ⟨settle_congr hp hx hy (hrx.trans hry.symm) ?_ ?_, ?_⟩
  · rw [hrx, hry]
    exact iff_of_true (hside x hx hxlow) (hside y hy hylow)
  · unfold DetectsTiny
    cases env.tininess with
    | beforeRounding => exact iff_of_true hxmin hymin
    | afterRounding =>
      simp only
      rw [hrx, hry]
  · by_cases hup : env.round.mode sign = .up
    · rw [if_pos hup] at hrx
      have hpos : 0 < spec.rounded (env.round.mode sign) x := hrx ▸ two_zpow_pos _
      by_cases hover : 2 ^ (spec.emax + 1) ≤ spec.rounded (env.round.mode sign) x
      · have hinf : toInf env.round sign = true := by
          rw [← Bool.not_eq_false, toInf_eq_false, hup]
          decide
        rw [settle_of_overflow hp hover, hinf]
        exact Iff.rfl
      rw [not_le] at hover
      by_cases hfl : DetectsTiny sign x spec env ∧ env.flushOutputs = true
      · rw [settle_of_flushed hp hx hpos hover hfl.1 hfl.2]
        exact Iff.rfl
      · rw [settle_of_finite hp hx hpos hover hfl]
        unfold Outcome.Above
        simp only
        rw [carry_value hp, ← Spec.rounded, hrx]
        exact iff_of_true (hxlow.trans hhalf) (hylow.trans hhalf)
    · rw [if_neg hup] at hrx
      rw [settle_of_zero hrx]
      exact Iff.rfl

theorem Spec.InClamp.overflows (hspec : spec.InClamp) (m : Mode) {c : Int} (hc : 2 ^ 24 ≤ c)
    (h : 2 ^ c ≤ x) : 2 ^ (spec.emax + 1) ≤ spec.rounded m x := by
  have hx : 0 < x := lt_of_lt_of_le (two_zpow_pos _) h
  have hp := hspec.precision_pos
  have hemax := hspec.emax_le
  have hmin := hspec.minUlp_le
  have hlog : c ≤ Int.log 2 x := by
    by_contra hlt
    have := (log_lt_iff hx c).mp (not_le.mp hlt)
    linarith
  have hulp : spec.ulp x ≤ Int.log 2 x := by
    unfold Spec.ulp
    omega
  calc (2 : ℝ) ^ (spec.emax + 1) ≤ 2 ^ Int.log 2 x := two_zpow_le (by omega)
    _ ≤ spec.rounded m x := le_onGrid hulp (zpow_log_le hx)

theorem above_overflow (hp : spec.precision ≤ 64) (hx : 2 ^ (spec.emax + 1) ≤ x) :
    (Outcome.num sign (if toInf env.round sign then .inf else largest spec)).Above x ↔
      toInf env.round sign = true := by
  cases toInf env.round sign with
  | true => exact iff_of_true trivial rfl
  | false =>
    refine iff_of_false ?_ (by decide)
    intro h
    have hval := Option.some.inj (largest_value hp false)
    have hlt : x < spec.largestValue := by
      rw [← show signed false spec.largestValue = spec.largestValue from rfl, ← hval]
      exact h
    have := spec.largestValue_lt
    linarith

variable (sign env) in
theorem settle_clamp (hspec : spec.InClamp) (hlo : 1 ≤ y) (hhi : y < 2 ^ 126) (e : Int) :
    settle sign (y * 2 ^ clampExp e) spec env = settle sign (y * 2 ^ e) spec env ∧
      ((settle sign (y * 2 ^ clampExp e) spec env).1.Above (y * 2 ^ clampExp e) ↔
        (settle sign (y * 2 ^ clampExp e) spec env).1.Above (y * 2 ^ e)) := by
  have hp := hspec.precision_pos
  have hy : 0 < y := by linarith
  have hge := hspec.minUlp_ge
  have hemax := hspec.emax_le
  obtain ⟨c, hc⟩ : ∃ c : Int, c = 2 ^ 24 := ⟨_, rfl⟩
  unfold clampExp
  rw [← hc] at hge hemax ⊢
  by_cases hlow : e < -c
  · rw [show max (-c) (min e c) = -c by omega]
    have hbound : ∀ a : Int, a ≤ -c → y * 2 ^ a < 2 ^ (126 - c) := by
      intro a ha
      have hpow : (2 : ℝ) ^ (126 - c) = 2 ^ 126 * 2 ^ (-c) := by
        rw [show 126 - c = (126 : Nat) + -c by push_cast; ring, two_zpow_add, zpow_natCast]
      rw [hpow]
      exact mul_lt_mul hhi (two_zpow_le ha) (two_zpow_pos a) (by positivity)
    have hmin : (2 : ℝ) ^ (126 - c) ≤ 2 ^ (spec.minUlp - 1) := two_zpow_le (by omega)
    have hemin : (2 : ℝ) ^ (126 - c) ≤ 2 ^ spec.emin :=
      two_zpow_le (by unfold Spec.emin; omega)
    have h1 := hbound (-c) le_rfl
    have h2 := hbound e hlow.le
    exact settle_low hp (mul_pos hy (two_zpow_pos _)) (mul_pos hy (two_zpow_pos _))
      (h1.trans_le hmin) (h2.trans_le hmin) (h1.trans_le hemin) (h2.trans_le hemin)
  · by_cases hhigh : c < e
    · rw [show max (-c) (min e c) = c by omega]
      have hbound : ∀ a : Int, c ≤ a → 2 ^ c ≤ y * 2 ^ a := by
        intro a ha
        calc (2 : ℝ) ^ c ≤ 2 ^ a := two_zpow_le ha
          _ ≤ y * 2 ^ a := le_mul_of_one_le_left (two_zpow_pos a).le hlo
      have hbig : (2 : ℝ) ^ (spec.emax + 1) ≤ 2 ^ c := two_zpow_le (by omega)
      have h1 := hbound c le_rfl
      have h2 := hbound e hhigh.le
      rw [settle_of_overflow hp (hspec.overflows _ hc.ge h1),
        settle_of_overflow hp (hspec.overflows _ hc.ge h2)]
      refine ⟨rfl, ?_⟩
      rw [above_overflow hspec.precision_le (hbig.trans h1),
        above_overflow hspec.precision_le (hbig.trans h2)]
    · rw [show max (-c) (min e c) = e by omega]
      exact ⟨rfl, Iff.rfl⟩

end Clamp

/-! ## The points -/

section Points

variable {sign : Bool} {spec : Spec} {env : Env} {y : ℝ}

theorem bitLen_eq {v : Nat} (h : 0 < v) : bitLen v = v.log2 + 1 := if_neg (by omega)

theorem shl128_eq {v n : Nat} {i : Int} (hi : i = n) (hn : n < 128) (h : v * 2 ^ n < 2 ^ 128) :
    shl128 v i = some (v * 2 ^ n) := by
  unfold shl128
  rw [hi, if_pos (by omega), Int.toNat_natCast, Nat.shiftLeft_eq, Nat.mod_eq_of_lt h]

theorem scaled_lt_iff {a b : ℝ} {e re : Int} {n : Nat} (h : re = e + n) :
    a * 2 ^ e < b * 2 ^ re ↔ a < b * 2 ^ n := by
  rw [h, add_comm e, two_zpow_add, zpow_natCast, ← mul_assoc, mul_lt_mul_iff_left₀ (two_zpow_pos e)]

theorem magnitudeAbove_finite {re e : Int} {frac s : Nat} (hf : 0 < frac) (hf64 : frac < 2 ^ 64)
    (hs : Sticky s y) (hpos : 0 < s) (h126 : s < 2 ^ 126) (hroom : y = s ∨ 2 ^ 66 ≤ s) :
    ∃ b, magnitudeAbove (.num sign (.finite re frac)) s e = some b ∧
      (b = true ↔ y * 2 ^ e < frac * 2 ^ re) := by
  have hlogf : frac.log2 < 64 := (Nat.log2_lt hf.ne').mpr hf64
  have hlogs : s.log2 < 126 := (Nat.log2_lt hpos.ne').mpr h126
  obtain ⟨hylo, hyhi⟩ := log2_bounds hs hpos (hroom.imp_right fun h => le_trans (by decide) h)
  obtain ⟨hflo, hfhi⟩ := log2_bounds (Sticky.exact frac) hf (Or.inl rfl)
  unfold magnitudeAbove
  simp only
  rw [bitLen_eq hf, bitLen_eq hpos]
  push_cast
  by_cases htop : re + ((frac.log2 : Int) + 1) ≠ e + ((s.log2 : Int) + 1)
  · -- different binades
    rw [if_pos htop]
    refine ⟨_, rfl, ?_⟩
    rw [decide_eq_true_eq]
    have hxlo : (2 : ℝ) ^ (s.log2 + e : Int) ≤ y * 2 ^ e := by
      rw [two_zpow_add, zpow_natCast]
      exact mul_le_mul_of_nonneg_right hylo (two_zpow_pos e).le
    have hxhi : y * 2 ^ e < (2 : ℝ) ^ (s.log2 + 1 + e : Int) := by
      rw [two_zpow_add, ← Nat.cast_add_one, zpow_natCast]
      exact mul_lt_mul_of_pos_right hyhi (two_zpow_pos e)
    have hvlo : (2 : ℝ) ^ (frac.log2 + re : Int) ≤ frac * 2 ^ re := by
      rw [two_zpow_add, zpow_natCast]
      exact mul_le_mul_of_nonneg_right hflo (two_zpow_pos re).le
    have hvhi : (frac : ℝ) * 2 ^ re < (2 : ℝ) ^ (frac.log2 + 1 + re : Int) := by
      rw [two_zpow_add, ← Nat.cast_add_one, zpow_natCast]
      exact mul_lt_mul_of_pos_right hfhi (two_zpow_pos re)
    constructor
    · intro h
      exact hxhi.trans_le ((two_zpow_le (by omega)).trans hvlo)
    · intro h
      by_contra hle
      have := two_zpow_le (show (frac.log2 : Int) + 1 + re ≤ s.log2 + e by omega)
      linarith
  · rw [if_neg htop]
    by_cases hle : e ≤ re
    · obtain ⟨n, hn⟩ : ∃ n : Nat, re = e + n := ⟨(re - e).toNat, by omega⟩
      obtain ⟨-, hfull⟩ := full_width hf (n := n) (s := s.log2) (by omega)
      have hfit : frac * 2 ^ n < 2 ^ 128 :=
        lt_of_lt_of_le hfull (Nat.pow_le_pow_right (by decide) (by omega))
      rw [if_pos hle, i32_eq (by omega), Option.bind_some,
        shl128_eq (n := n) (by omega) (by omega) hfit, Option.map_some]
      refine ⟨_, rfl, ?_⟩
      rw [decide_eq_true_eq, scaled_lt_iff hn]
      have hcast : (frac : ℝ) * 2 ^ n = ((frac * 2 ^ n : Nat) : ℝ) := by push_cast; rfl
      rw [hcast]
      rcases hroom with rfl | hroom
      · exact Nat.cast_lt.symm
      · -- three bits at least were shifted in, so the last bit of `s` does not matter
        have hlog66 : 66 ≤ s.log2 := (Nat.le_log2 hpos.ne').mpr hroom
        refine (hs.lt_iff ?_).symm
        obtain ⟨k, rfl⟩ : ∃ k, n = k + 1 := ⟨n - 1, by omega⟩
        rw [Nat.pow_succ, ← Nat.mul_assoc, Nat.mul_mod_left]
    · obtain ⟨n, hn⟩ : ∃ n : Nat, e = re + n := ⟨(e - re).toNat, by omega⟩
      have hys : y = s := by
        refine hroom.resolve_right fun h => ?_
        have := (Nat.le_log2 hpos.ne').mpr h
        omega
      obtain ⟨-, hfull⟩ := full_width hpos (n := n) (s := frac.log2) (by omega)
      have hfit : s * 2 ^ n < 2 ^ 128 :=
        lt_of_lt_of_le hfull (Nat.pow_le_pow_right (by decide) (by omega))
      rw [if_neg hle, i32_eq (by omega), Option.bind_some,
        shl128_eq (n := n) (by omega) (by omega) hfit, Option.map_some]
      refine ⟨_, rfl, ?_⟩
      rw [decide_eq_true_eq, hys, hn, add_comm re, two_zpow_add, zpow_natCast, ← mul_assoc,
        mul_lt_mul_iff_left₀ (two_zpow_pos re)]
      exact_mod_cast Iff.rfl

variable (sign env) in
theorem settle_outcome (hp : 1 ≤ spec.precision) (hp' : spec.precision ≤ 64) {x : ℝ} (hx : 0 < x) :
    ∃ r, (settle sign x spec env).1 = .num sign r ∧
      ∀ exp frac, r = .finite exp frac → 0 < frac ∧ frac < 2 ^ 64 := by
  have hpow : 2 ^ spec.precision ≤ 2 ^ 64 := Nat.pow_le_pow_right (by decide) hp'
  rcases (Spec.rounded_nonneg spec (env.round.mode sign) x).eq_or_lt with hz | hpos
  · rw [settle_of_zero hz.symm]
    exact ⟨_, rfl, fun _ _ h => absurd h (by simp)⟩
  by_cases hover : 2 ^ (spec.emax + 1) ≤ spec.rounded (env.round.mode sign) x
  · rw [settle_of_overflow hp hover]
    refine ⟨_, rfl, fun exp frac h => ?_⟩
    cases hinf : toInf env.round sign with
    | true =>
      rw [hinf] at h
      exact absurd h (by simp)
    | false =>
      rw [hinf, if_neg (by decide), largest, Rounded.finite.injEq] at h
      rw [← h.2, Nat.shiftRight_eq_div_pow]
      have hsplit : 2 ^ 64 = 2 ^ spec.precision * 2 ^ (64 - spec.precision) := by
        rw [← Nat.pow_add]
        congr 1
        omega
      have hle : 2 ^ (64 - spec.precision) ≤ 2 ^ 63 := Nat.pow_le_pow_right (by decide) (by omega)
      exact ⟨Nat.div_pos (by omega) (Nat.two_pow_pos _),
        lt_of_le_of_lt (Nat.div_le_self _ _) (by decide)⟩
  rw [not_le] at hover
  by_cases hfl : DetectsTiny sign x spec env ∧ env.flushOutputs = true
  · rw [settle_of_flushed hp hx hpos hover hfl.1 hfl.2]
    exact ⟨_, rfl, fun _ _ h => absurd h (by simp)⟩
  · classical
    rw [settle_of_finite hp hx hpos hover hfl]
    refine ⟨_, rfl, fun exp frac h => ?_⟩
    rw [Rounded.finite.injEq] at h
    have hk := Spec.rounded_eq_zero.not.mp hpos.ne'
    have hle := kept_le spec (env.round.mode sign) x
    rw [← h.2]
    refine ⟨Nat.pos_of_ne_zero (carry_eq_zero.not.mpr hk), ?_⟩
    unfold carry
    split
    · exact lt_of_lt_of_le (Nat.pow_lt_pow_right (by decide) (by omega)) hpow
    · exact lt_of_lt_of_le (lt_of_le_of_ne hle ‹_›) hpow

variable (sign env) in
theorem magnitudeAbove_settle (hspec : spec.InClamp) (e : Int) {s : Nat} (hs : Sticky s y)
    (hpos : 0 < s) (h126 : s < 2 ^ 126) (hroom : y = s ∨ 2 ^ 66 ≤ s) (hy : 0 < y) :
    ∃ b, magnitudeAbove (settle sign (y * 2 ^ e) spec env).1 s e = some b ∧
      (b = true ↔ (settle sign (y * 2 ^ e) spec env).1.Above (y * 2 ^ e)) := by
  obtain ⟨r, hr, hbounds⟩ := settle_outcome sign env
    hspec.precision_pos hspec.precision_le (mul_pos hy (two_zpow_pos e))
  rw [hr]
  cases r with
  | zero => exact ⟨false, rfl, by simp [Outcome.Above]⟩
  | inf => exact ⟨true, rfl, by simp [Outcome.Above]⟩
  | finite exp frac =>
    obtain ⟨hf, hf64⟩ := hbounds exp frac rfl
    exact magnitudeAbove_finite hf hf64 hs hpos h126 hroom

theorem foldPoint_spec {sig : Nat} {exp : Int} (hs : Sticky sig y) (hpos : 0 < sig)
    (hroom : y = sig ∨ 2 ^ 66 ≤ sig) {p : Nat × Int} (h : foldPoint sig exp = some p) :
    ∃ y', Sticky p.1 y' ∧ y' * 2 ^ p.2 = y * 2 ^ exp ∧ 0 < p.1 ∧ p.1 < 2 ^ 126 ∧
      (y' = p.1 ∨ 2 ^ 66 ≤ p.1) := by
  unfold foldPoint at h
  rw [bitLen_eq hpos] at h
  by_cases hwide : 126 < sig.log2 + 1
  · obtain ⟨n, hn⟩ : ∃ n, sig.log2 = 125 + n := ⟨sig.log2 - 125, by omega⟩
    have hlo : 2 ^ sig.log2 ≤ sig := Nat.log2_self_le hpos.ne'
    have hhi : sig < 2 ^ (sig.log2 + 1) := Nat.lt_log2_self
    rw [hn] at hlo hhi
    have hdivlo : 2 ^ 125 ≤ sig / 2 ^ n := by
      rw [Nat.le_div_iff_mul_le (Nat.two_pow_pos n), ← Nat.pow_add]
      exact hlo
    have hdivhi : sig / 2 ^ n < 2 ^ 126 := by
      rw [Nat.div_lt_iff_lt_mul (Nat.two_pow_pos n), ← Nat.pow_add,
        show 126 + n = 125 + n + 1 by omega]
      exact hhi
    rw [if_pos hwide, show sig.log2 + 1 - 126 = n by omega] at h
    simp only at h
    rw [Nat.shiftRight_eq_div_pow, u128_eq (by omega), Option.getD_some] at h
    obtain ⟨e, he, hp⟩ := Option.map_eq_some_iff.mp h
    have hexp : e = exp + n := by
      unfold i64 at he
      split at he
      · exact (Option.some.inj he).symm
      · cases he
    have hjam : sig / 2 ^ n ||| bit (sig % 2 ^ n != 0) = jam sig n := by
      rw [Wide.bit_or, jam]
      by_cases hz : sig % 2 ^ n = 0
      · rw [if_neg (by simpa using hz), if_pos hz]
      · rw [if_pos (by simpa using hz), if_neg hz]
    have hjamlo : sig / 2 ^ n ≤ jam sig n ∧ jam sig n < 2 ^ 126 := by
      unfold jam
      split
      · exact ⟨le_refl _, hdivhi⟩
      · rw [or_one]
        omega
    rw [← hp, hjam, hexp]
    refine ⟨y / 2 ^ n, hs.jam n, ?_, by simp only; omega, hjamlo.2, Or.inr (by simp only; omega)⟩
    rw [add_comm exp, two_zpow_add, zpow_natCast]
    field_simp
  · have hlt : sig < 2 ^ 126 := (Nat.log2_lt hpos.ne').mp (by omega)
    rw [if_neg hwide, u128_eq (by omega), Option.getD_some] at h
    rw [← Option.some.inj h]
    exact ⟨y, hs, rfl, hpos, hlt, hroom⟩

theorem roundPoint_sound (hspec : spec.InClamp) {sig : Nat} {exp : Int} (hs : Sticky sig y)
    (hpos : 0 < sig) (hroom : y = sig ∨ 2 ^ 66 ≤ sig) {r : Outcome × Flags × Bool}
    (h : roundPoint sign sig exp spec env = some r) : RoundsTo sign (y * 2 ^ exp) spec env r := by
  obtain ⟨p, hfold, h⟩ := Option.bind_eq_some_iff.mp h
  obtain ⟨y', hs', hval, hpos', h126, hroom'⟩ := foldPoint_spec hs hpos hroom hfold
  obtain ⟨s, e⟩ := p
  have hy1 : 1 ≤ y' ∧ y' < 2 ^ 126 := by
    have h1 : (1 : ℝ) ≤ s := by exact_mod_cast hpos'
    have h2 : (s : ℝ) + 1 ≤ 2 ^ 126 := by exact_mod_cast h126
    rcases hs' with heq | ⟨-, hlo, hhi⟩
    · rw [heq]
      exact ⟨h1, by linarith⟩
    · rcases hroom' with heq | hbig
      · rw [heq]
        exact ⟨h1, by linarith⟩
      · have h3 : (2 : ℝ) ≤ s := by exact_mod_cast le_trans (by decide) hbig
        exact ⟨by linarith, by linarith⟩
  have hmin := hspec.minUlp_ge
  have hmin' := hspec.minUlp_le
  have hclamp : -2 ^ 29 ≤ clampExp e ∧ clampExp e ≤ 2 ^ 29 := by
    unfold clampExp
    omega
  have hprec := hspec.precision_le
  have hround : roundExact sign (clampExp e) s spec env =
      some (settle sign (y' * 2 ^ clampExp e) spec env) :=
    roundExact_settles_of_bounds ⟨hspec.precision_pos, hprec⟩ (by omega) hs' hpos' (by omega)
      (hroom'.imp_right fun h =>
        le_trans (Nat.pow_le_pow_right (by decide) (show spec.precision + 2 ≤ 66 by omega)) h) hclamp
  obtain ⟨b, hb, hside⟩ := magnitudeAbove_settle sign env hspec (clampExp e) hs' hpos' h126 hroom'
    (by linarith [hy1.1])
  obtain ⟨hsettle, habove⟩ := settle_clamp sign env hspec hy1.1 hy1.2 e
  rw [hround, Option.bind_some, hb, Option.map_some] at h
  rw [← Option.some.inj h, ← hval]
  refine ⟨hsettle.symm, ?_⟩
  rw [hside, habove]

end Points

/-! ## The enclosures -/

theorem i64_some {v e : Int} (h : i64 v = some e) : e = v := by
  unfold i64 at h
  split at h
  · exact (Option.some.inj h).symm
  · cases h

theorem Enclosure.decide_rounds {enc : Enclosure} {spec : Spec} {env : Env} (hspec : spec.InClamp)
    {r : Outcome × Flags × Bool} (h : enc.decide spec env = some (some r)) {x : ℝ}
    (hx : enc.Contains x) : RoundsTo enc.neg x spec env r := by
  unfold Enclosure.decide at h
  by_cases hmag : enc.mag = 0
  · rw [if_pos hmag] at h
    cases h
  rw [if_neg hmag] at h
  by_cases herr : enc.err = 0
  · -- the enclosure is one point
    rw [if_pos herr] at h
    obtain ⟨r', hr', hrr⟩ := Option.map_eq_some_iff.mp h
    obtain ⟨hlo, hhi⟩ := hx
    rw [herr, Nat.cast_zero, sub_zero] at hlo
    rw [herr, Nat.cast_zero, add_zero] at hhi
    rw [← Option.some.inj hrr, le_antisymm hhi hlo]
    exact roundPoint_sound hspec (Sticky.exact _) (Nat.pos_of_ne_zero hmag) (Or.inl rfl) hr'
  rw [if_neg herr] at h
  by_cases hle : enc.mag ≤ enc.err
  · rw [if_pos hle] at h
    cases h
  rw [if_neg hle] at h
  obtain ⟨exp, hexp, h⟩ := Option.bind_eq_some_iff.mp h
  obtain ⟨a, ha, h⟩ := Option.bind_eq_some_iff.mp h
  obtain ⟨b, hb, h⟩ := Option.map_eq_some_iff.mp h
  have hab : a = b := by
    by_contra hne
    rw [if_neg hne] at h
    cases h
  rw [if_pos hab, Option.some.injEq] at h
  rw [← hab] at hb
  rw [h] at ha hb
  have hexp' := i64_some hexp
  obtain ⟨lo, hlo⟩ : ∃ lo, lo = (enc.mag - enc.err) <<< 1 - 1 := ⟨_, rfl⟩
  obtain ⟨hi, hhi⟩ : ∃ hi, hi = (enc.mag + enc.err) <<< 1 + 1 := ⟨_, rfl⟩
  rw [← hlo] at ha
  rw [← hhi] at hb
  have hpos : 0 < lo := by omega
  obtain ⟨hsa, hua⟩ := roundPoint_sound hspec (Sticky.exact lo) hpos (Or.inl rfl) ha
  obtain ⟨hsb, hub⟩ := roundPoint_sound hspec (Sticky.exact hi) (by omega) (Or.inl rfl) hb
  -- the two points are half a unit outside the ends
  have hunit : (2 : ℝ) ^ enc.exp = 2 * 2 ^ exp := by
    rw [hexp', show enc.exp = 1 + (enc.exp - 1) by ring, two_zpow_add, zpow_one]
    congr 2
    ring
  have hpow := two_zpow_pos exp
  have hcastlo : (lo : ℝ) = 2 * (enc.mag - enc.err) - 1 := by
    have : lo + 1 + 2 * enc.err = 2 * enc.mag := by omega
    have : (lo : ℝ) + 1 + 2 * enc.err = 2 * enc.mag := by exact_mod_cast this
    linarith
  have hcasthi : (hi : ℝ) = 2 * (enc.mag + enc.err) + 1 := by
    have : hi = 2 * (enc.mag + enc.err) + 1 := by omega
    exact_mod_cast this
  obtain ⟨hxlo, hxhi⟩ := hx
  have hlx : (lo : ℝ) * 2 ^ exp < x := by
    nlinarith
  have hxh : x < (hi : ℝ) * 2 ^ exp := by
    nlinarith
  have hlopos : 0 < (lo : ℝ) * 2 ^ exp := mul_pos (Nat.cast_pos.mpr hpos) hpow
  obtain ⟨hsettle, hside⟩ := settle_between hspec.precision_pos hlopos hlx hxh (hsa.trans hsb.symm)
    (by
      rw [hsa]
      exact fun h => hub.mp (hua.mpr h))
  rw [hsa] at hsettle hside
  exact ⟨hsettle, by rw [hua, hside]⟩

/-- Strictly between `m * 2^e` and its neighbour at a distance of `2^(e - gap)`. -/
def Beside (m : Nat) (e : Int) (above : Bool) (x : ℝ) : Prop :=
  if above then (m : ℝ) * 2 ^ e < x ∧ x < m * 2 ^ e + 2 ^ (e - gap)
  else (m : ℝ) * 2 ^ e - 2 ^ (e - gap) < x ∧ x < m * 2 ^ e

theorem Precision.inClamp (pc : Precision) : pc.spec.InClamp := by
  cases pc <;> exact ⟨by decide, by decide, by decide, by decide, by decide⟩

theorem sticky_beside {m : Nat} {e : Int} {above : Bool} {x : ℝ} (hm : 2 ^ 63 ≤ m)
    (hx : Beside m e above x) :
    Sticky (if above then m <<< (gap + 1) + 1 else m <<< (gap + 1) - 1) (x / 2 ^ (e - gap - 1)) := by
  have hpos := two_zpow_pos (e - gap - 1)
  have hg : (gap : Int) = 8 := rfl
  have hunit : (2 : ℝ) ^ (e - gap) = 2 * 2 ^ (e - gap - 1) := by
    rw [half_place]
    ring
  have hwhole : (2 : ℝ) ^ e = 512 * 2 ^ (e - gap - 1) := by
    have hsplit : (2 : ℝ) ^ e = 2 ^ (9 + (e - gap - 1)) := by
      congr 1
      omega
    rw [hsplit, two_zpow_add]
    norm_num
  have hshift : m <<< (gap + 1) = 512 * m := by
    rw [Nat.shiftLeft_eq, Nat.mul_comm]
    rfl
  unfold Beside at hx
  rw [hunit, hwhole] at hx
  rw [hshift]
  cases above with
  | true =>
    obtain ⟨hlo, hhi⟩ : _ ∧ _ := hx
    refine Or.inr ⟨by simp; omega, ?_, ?_⟩
    · rw [lt_div_iff₀ hpos]
      push_cast
      simp only [if_true]
      linarith
    · rw [div_lt_iff₀ hpos]
      push_cast
      simp only [if_true]
      linarith
  | false =>
    obtain ⟨hlo, hhi⟩ : _ ∧ _ := hx
    have hcast : ((512 * m - 1 : Nat) : ℝ) = 512 * m - 1 := by
      rw [Nat.cast_sub (by omega)]
      push_cast
      ring
    simp only [Bool.false_eq_true, if_false]
    refine Or.inr ⟨by omega, ?_, ?_⟩
    · rw [lt_div_iff₀ hpos, hcast]
      linarith
    · rw [div_lt_iff₀ hpos, hcast]
      linarith

theorem beside_rounds {neg above : Bool} {m : Nat} {e : Int} {pc : Precision} {env : Env}
    {extra : Flags} {r : Elementary} (hm : 2 ^ 63 ≤ m)
    (h : beside neg m e above pc env extra = some r) {x : ℝ} (hx : Beside m e above x) :
    ∃ out flags, RoundsTo neg x pc.spec env (out, flags, r.roundedUp) ∧
      F80.encode out env = some r.value ∧ r.flags = flags.union extra := by
  unfold beside at h
  obtain ⟨e₁, he₁, h⟩ := Option.bind_eq_some_iff.mp h
  obtain ⟨e₂, he₂, h⟩ := Option.bind_eq_some_iff.mp h
  obtain ⟨⟨out, flags, up⟩, hr, h⟩ := Option.bind_eq_some_iff.mp h
  obtain ⟨v, hv, hval⟩ := Option.map_eq_some_iff.mp h
  have hexp : e₂ = e - gap - 1 := by rw [i64_some he₂, i64_some he₁]
  have hstick := sticky_beside hm hx
  have hbig : 2 ^ 66 ≤ if above then m <<< (gap + 1) + 1 else m <<< (gap + 1) - 1 := by
    rw [Nat.shiftLeft_eq, show 2 ^ (gap + 1) = 512 from rfl]
    split <;> omega
  have hround := roundPoint_sound pc.inClamp hstick (lt_of_lt_of_le (by decide) hbig)
    (Or.inr hbig) hr
  rw [hexp, div_mul_cancel₀ _ (two_zpow_pos _).ne'] at hround
  rw [← hval]
  exact ⟨out, flags, hround, hv, rfl⟩

/--
**The transcendental rounding loop is sound.** Whatever is decided about an enclosure holds
of every real number in it, the flags and the side included; and what is delivered beside a
number is the rounding of every real number in the gap.
-/
theorem enclosure_rounding_sound :
    (∀ (enc : Enclosure) (spec : Spec) (env : Env) (r : Outcome × Flags × Bool), spec.InClamp →
      enc.decide spec env = some (some r) →
        ∀ x, enc.Contains x → RoundsTo enc.neg x spec env r) ∧
    ∀ (neg above : Bool) (m : Nat) (e : Int) (pc : Precision) (env : Env) (extra : Flags)
      (r : Elementary), 2 ^ 63 ≤ m → beside neg m e above pc env extra = some r →
        ∀ x, Beside m e above x → ∃ out flags,
          RoundsTo neg x pc.spec env (out, flags, r.roundedUp) ∧
            F80.encode out env = some r.value ∧ r.flags = flags.union extra :=
  ⟨fun _ _ _ _ hspec h _ hx => Enclosure.decide_rounds hspec h hx,
    fun _ _ _ _ _ _ _ _ hm h _ hx => beside_rounds hm h hx⟩

/-- An enclosure of a third, decided at double precision, and a number just under one, such as
the cosine of a small angle. -/
theorem enclosure_rounding_third :
    ((⟨false, 2 ^ 130 / 3, 1, -130⟩ : Enclosure).decide Precision.double.spec .x87 =
        some (some (.num false (.finite (-54) 6004799503160661), { inexact := true }, false)) ∧
      RoundsTo false (1 / 3) Precision.double.spec .x87
        (.num false (.finite (-54) 6004799503160661), { inexact := true }, false)) ∧
    ∃ r out flags, beside false (2 ^ 63) (-63) false .double .x87 .none = some r ∧
      RoundsTo false (1 - 2 ^ (-80 : Int)) Precision.double.spec .x87 (out, flags, r.roundedUp) ∧
        F80.encode out .x87 = some r.value ∧ r.flags = flags.union .none := by
  have hdecide : (⟨false, 2 ^ 130 / 3, 1, -130⟩ : Enclosure).decide Precision.double.spec .x87 =
      some (some (.num false (.finite (-54) 6004799503160661), { inexact := true }, false)) := by
    decide +kernel
  refine ⟨⟨hdecide, ?_⟩, ?_⟩
  · refine enclosure_rounding_sound.1 _ _ _ _ Precision.double.inClamp hdecide _ ⟨?_, ?_⟩
    · norm_num
    · norm_num
  · obtain ⟨r, hr⟩ := Option.isSome_iff_exists.mp
      (by decide : (beside false (2 ^ 63) (-63) false .double .x87 .none).isSome = true)
    obtain ⟨out, flags, hrounds⟩ := enclosure_rounding_sound.2 _ _ _ _ _ _ _ _ (le_refl _) hr
      (1 - 2 ^ (-80 : Int)) ⟨by norm_num [gap], by norm_num⟩
    exact ⟨r, out, flags, hr, hrounds⟩

/--
A format with exponents past the clamp: `2^(2^24 + 1)` is representable in it, and is
decided to be `2^(2^24)`.
-/
theorem clamp_misrounds :
    ∃ r, (⟨false, 1, 0, 2 ^ 24 + 1⟩ : Enclosure).decide (.interchange 64 (2 ^ 25)) .x87 =
        some (some r) ∧
      ¬ RoundsTo false ((1 : Nat) * 2 ^ (2 ^ 24 + 1 : Int)) (.interchange 64 (2 ^ 25)) .x87 r := by
  refine ⟨(.num false (.finite (2 ^ 24 - 63) (2 ^ 63)), .none, false), by decide +kernel, ?_⟩
  intro h
  have hexact : roundExact false (2 ^ 24 + 1) 1 (.interchange 64 (2 ^ 25)) .x87 =
      some (.num false (.finite (2 ^ 24 - 62) (2 ^ 63)), .none) := by decide +kernel
  have hsettle : roundExact false (2 ^ 24 + 1) 1 (.interchange 64 (2 ^ 25)) .x87 =
      some (settle false ((1 : Nat) * 2 ^ (2 ^ 24 + 1 : Int)) (.interchange 64 (2 ^ 25)) .x87) :=
    roundExact_settles_of_bounds (by decide) (by decide) (Sticky.exact 1) (by decide) (by decide)
      (Or.inl rfl) (by decide)
  rw [hexact, h.settles, Option.some.injEq, Prod.mk.injEq] at hsettle
  exact absurd hsettle.1 (by decide)

end Rsemu.Float
