import Rsemu.Float.Settle

/-!
# The exception flags

What IEEE 754-2019 §7 asks of the flags, as the subsystem documents it, against what
`round_exact` raises.

Underflow needs the result to be tiny. Under detection after rounding `round_exact` means by
that the rounded result it delivers, which was rounded on the subnormal grid: a magnitude that
rounds up to the smallest normal there is not tiny. Rounded *to `p` bits as though the
exponent range were unbounded* it may be, as that grid is twice as fine just below the
smallest normal, and `flags_right` says where the two part.
-/

namespace Rsemu.Float

open Rounding

attribute [local instance] atLeastTwo_two

noncomputable def signed (sign : Bool) (x : ℝ) : ℝ := if sign then -x else x

noncomputable def Outcome.value : Outcome → Option ℝ
  | .num _ .zero => some 0
  | .num sign (.finite exp frac) => some (signed sign (frac * 2 ^ exp))
  | .num _ .inf => none
  | .defaultNan => none
  | .nan _ _ => none

namespace Spec

variable (s : Spec) (m : Mode) (x : ℝ)

noncomputable def rounded : ℝ := s.kept m x * 2 ^ s.ulp x

noncomputable def freeUlp : Int := Int.log 2 x - ((s.precision : Int) - 1)

noncomputable def unbounded : ℝ := roundNat m (x / 2 ^ s.freeUlp x) * 2 ^ s.freeUlp x

noncomputable def largestValue : ℝ := (2 ^ s.precision - 1) * 2 ^ (s.emax - ((s.precision : Int) - 1))

/-- Below the smallest normal: after rounding, with the exponent range unbounded. -/
def Tiny (t : Tininess) : Prop :=
  match t with
  | .beforeRounding => x < 2 ^ s.emin
  | .afterRounding => s.unbounded m x < 2 ^ s.emin

end Spec

/-- Below the smallest normal: after rounding, of what is delivered. -/
def DetectsTiny (sign : Bool) (x : ℝ) (spec : Spec) (env : Env) : Prop :=
  match env.tininess with
  | .beforeRounding => x < 2 ^ spec.emin
  | .afterRounding => spec.rounded (env.round.mode sign) x < 2 ^ spec.emin

/-- The flags and the flushing IEEE 754 asks for, of a magnitude `x` and what was delivered,
`tiny` saying whether the result is. -/
structure FlagsRight (tiny : Prop) (sign : Bool) (x : ℝ) (spec : Spec) (env : Env)
    (r : Outcome × Flags) : Prop where
  inexact : env.flushOutputs = false → (r.2.inexact = true ↔ r.1.value ≠ some (signed sign x))
  overflow : env.flushOutputs = false →
    (r.2.overflow = true ↔ spec.largestValue < spec.unbounded (env.round.mode sign) x)
  underflow : env.flushOutputs = false →
    (r.2.underflow = true ↔ r.1.value ≠ some (signed sign x) ∧ tiny)
  flushed : env.flushOutputs = true → (r.1 = .num sign .zero ↔ tiny)

/--
The magnitudes just below the smallest normal that round up to it on the subnormal grid
and not at `p` bits. There are none when the subnormal grid is finer than that, as it is
under x87's precision control.
-/
def Spec.Band (s : Spec) (m : Mode) (x : ℝ) : Prop :=
  s.minUlp = s.emin - ((s.precision : Int) - 1) ∧
    match m with
    | .even | .away => (2 : ℝ) ^ s.emin - 2 ^ (s.minUlp - 1) ≤ x ∧ x < 2 ^ s.emin - 2 ^ (s.minUlp - 2)
    | .up => (2 : ℝ) ^ s.emin - 2 ^ s.minUlp < x ∧ x ≤ 2 ^ s.emin - 2 ^ (s.minUlp - 1)
    | .down => False

theorem carry_value {p k : Nat} {u : Int} (hp : 1 ≤ p) :
    ((carry p k u).1 : ℝ) * 2 ^ (carry p k u).2 = k * 2 ^ u := by
  unfold carry
  split
  · rename_i hk
    obtain ⟨i, rfl⟩ : ∃ i, p = i + 1 := ⟨p - 1, by omega⟩
    simp only [hk, Nat.add_sub_cancel]
    push_cast
    rw [two_zpow_add, pow_succ]
    ring
  · rfl

theorem carry_eq_zero {p k : Nat} {u : Int} : (carry p k u).1 = 0 ↔ k = 0 := by
  unfold carry
  split
  · have h1 := Nat.two_pow_pos (p - 1)
    have h2 := Nat.two_pow_pos p
    omega
  · rfl

theorem carry_log {p k : Nat} {u : Int} (hp : 1 ≤ p) (hk : k ≠ 0) :
    (carry p k u).2 + (carry p k u).1.log2 = Int.log 2 ((k : ℝ) * 2 ^ u) := by
  rw [← carry_value hp]
  set r := carry p k u with hr
  have hr0 : r.1 ≠ 0 := carry_eq_zero.not.mpr hk
  refine (log_eq ?_ ?_).symm
  · rw [add_comm, two_zpow_add, zpow_natCast]
    have : 2 ^ r.1.log2 ≤ r.1 := Nat.log2_self_le hr0
    exact mul_le_mul_of_nonneg_right (by exact_mod_cast this) (two_zpow_pos _).le
  · rw [show r.2 + (r.1.log2 : Int) + 1 = ((r.1.log2 + 1 : Nat) : Int) + r.2 by push_cast; ring,
      two_zpow_add, zpow_natCast]
    have : r.1 < 2 ^ (r.1.log2 + 1) := Nat.lt_log2_self
    exact mul_lt_mul_of_pos_right (by exact_mod_cast this) (two_zpow_pos _)

theorem log_lt_iff {v : ℝ} (hv : 0 < v) (e : Int) : Int.log 2 v < e ↔ v < 2 ^ e := by
  have := Int.lt_zpow_iff_log_lt (b := 2) (by norm_num) hv (x := e)
  exact this.symm

theorem lt_log_iff {v : ℝ} (hv : 0 < v) (e : Int) : e < Int.log 2 v ↔ (2 : ℝ) ^ (e + 1) ≤ v := by
  rw [← not_lt, ← log_lt_iff hv]
  omega

noncomputable def onGrid (m : Mode) (u : Int) (x : ℝ) : ℝ := roundNat m (x / 2 ^ u) * 2 ^ u

/-- How close below `2^e` a magnitude has to be to reach it on the grid of `2^u`. -/
def Reach (m : Mode) (e u : Int) (x : ℝ) : Prop :=
  match m with
  | .even | .away => (2 : ℝ) ^ e - 2 ^ (u - 1) ≤ x
  | .down => (2 : ℝ) ^ e ≤ x
  | .up => (2 : ℝ) ^ e - 2 ^ u < x

section Grid

variable {m : Mode} {e u : Int} {x : ℝ}

theorem pow_on_grid (hue : u ≤ e) : ((2 ^ (e - u).toNat : Nat) : ℝ) * 2 ^ u = 2 ^ e := by
  push_cast
  rw [← zpow_natCast, Int.toNat_of_nonneg (by omega), ← two_zpow_add]
  congr 1
  omega

theorem onGrid_le (hue : u ≤ e) (hx : x ≤ 2 ^ e) : onGrid m u x ≤ 2 ^ e := by
  rw [onGrid, ← pow_on_grid hue]
  refine mul_le_mul_of_nonneg_right ?_ (two_zpow_pos u).le
  refine Nat.cast_le.mpr (roundNat_le ?_)
  rwa [div_le_iff₀ (two_zpow_pos u), pow_on_grid hue]

theorem le_onGrid (hue : u ≤ e) (hx : 2 ^ e ≤ x) : 2 ^ e ≤ onGrid m u x := by
  rw [onGrid, ← pow_on_grid hue]
  refine mul_le_mul_of_nonneg_right ?_ (two_zpow_pos u).le
  refine Nat.cast_le.mpr (le_roundNat ?_)
  rwa [le_div_iff₀ (two_zpow_pos u), pow_on_grid hue]

theorem half_place (u : Int) : (2 : ℝ) ^ (u - 1) = 1 / 2 * 2 ^ u := by
  rw [sub_eq_add_neg, two_zpow_add]
  ring

theorem pow_le_onGrid_iff (hue : u < e) (hx : 0 ≤ x) : 2 ^ e ≤ onGrid m u x ↔ Reach m e u x := by
  have hpos := two_zpow_pos u
  have hpow := pow_on_grid hue.le
  set k : Nat := 2 ^ (e - u).toNat with hk
  have hk1 : 1 ≤ k := Nat.two_pow_pos _
  have heven : k % 2 = 0 := by
    obtain ⟨i, hi⟩ : ∃ i, (e - u).toNat = i + 1 := ⟨(e - u).toNat - 1, by omega⟩
    rw [hk, hi, Nat.pow_succ]
    exact Nat.mul_mod_left _ _
  have hle : 2 ^ e ≤ onGrid m u x ↔ k ≤ roundNat m (x / 2 ^ u) := by
    rw [onGrid, ← hpow, mul_le_mul_iff_of_pos_right hpos, Nat.cast_le]
  rw [hle, le_roundNat_iff hk1 (div_nonneg hx hpos.le)]
  have hhalf := half_place u
  cases m with
  | even =>
    simp only [Mode.Reaches, Reach, heven, and_true]
    rw [eq_comm, ← le_iff_lt_or_eq, le_div_iff₀ hpos, sub_mul, hpow, hhalf]
  | away =>
    simp only [Mode.Reaches, Reach]
    rw [le_div_iff₀ hpos, sub_mul, hpow, hhalf]
  | down =>
    simp only [Mode.Reaches, Reach]
    rw [le_div_iff₀ hpos, hpow]
  | up =>
    simp only [Mode.Reaches, Reach]
    rw [lt_div_iff₀ hpos, sub_mul, hpow, one_mul]

theorem two_zpow_le {a b : Int} (h : a ≤ b) : (2 : ℝ) ^ a ≤ 2 ^ b :=
  zpow_le_zpow_right₀ (by norm_num) h

theorem two_zpow_lt {a b : Int} (h : a < b) : (2 : ℝ) ^ a < 2 ^ b :=
  zpow_lt_zpow_right₀ (by norm_num) h

theorem Reach.coarser {u' : Int} (h : Reach m e u' x) (hu : u' ≤ u) : Reach m e u x := by
  have h1 := two_zpow_le (show u' - 1 ≤ u - 1 by omega)
  have h2 := two_zpow_le hu
  cases m with
  | even => exact le_trans (by linarith) h
  | away => exact le_trans (by linarith) h
  | down => exact h
  | up => exact lt_of_le_of_lt (by linarith) h

theorem Reach.binade (h : Reach m e u x) (hu : u < e) (hx : x < 2 ^ e) : Int.log 2 x = e - 1 := by
  have h1 := two_zpow_le (show u ≤ e - 1 by omega)
  have h2 := two_zpow_le (show u - 1 ≤ e - 1 by omega)
  have h3 := half_place e
  refine log_eq ?_ (by rwa [sub_add_cancel])
  cases m with
  | even => exact le_trans (by linarith) h
  | away => exact le_trans (by linarith) h
  | down => exact absurd hx (not_lt.mpr h)
  | up => exact (lt_of_le_of_lt (by linarith) h).le

end Grid

namespace Spec

variable {s : Spec} {m : Mode} {x : ℝ}

theorem rounded_eq (s : Spec) (m : Mode) (x : ℝ) : s.rounded m x = onGrid m (s.ulp x) x := rfl

theorem unbounded_eq (s : Spec) (m : Mode) (x : ℝ) : s.unbounded m x = onGrid m (s.freeUlp x) x :=
  rfl

theorem rounded_normal (h : s.minUlp ≤ s.freeUlp x) : s.rounded m x = s.unbounded m x := by
  have hulp : s.ulp x = s.freeUlp x := max_eq_left h
  rw [rounded_eq, unbounded_eq, hulp]

theorem subnormal (hs : s.Sane) (hx : 0 < x) (h : ¬ s.minUlp ≤ s.freeUlp x) :
    s.ulp x = s.minUlp ∧ x < 2 ^ s.emin := by
  have hgrid := hs.grid
  refine ⟨max_eq_right (not_le.mp h).le, (log_lt_iff hx _).mp ?_⟩
  unfold freeUlp at h
  omega

theorem freeUlp_lt_emin (hs : s.Sane) (h : ¬ s.minUlp ≤ s.freeUlp x) : s.freeUlp x < s.emin := by
  have hgrid := hs.grid
  have hp := hs.two_le_precision
  omega

theorem largestValue_lt (s : Spec) : s.largestValue < 2 ^ (s.emax + 1) := by
  have hp : (2 : ℝ) ^ (s.emax + 1) =
      2 ^ s.precision * 2 ^ (s.emax - ((s.precision : Int) - 1)) := by
    rw [← zpow_natCast, ← two_zpow_add]
    congr 1
    ring
  rw [largestValue, hp]
  exact mul_lt_mul_of_pos_right (by linarith) (two_zpow_pos _)

theorem pow_le_largestValue (hs : s.Sane) : (2 : ℝ) ^ s.emax ≤ s.largestValue := by
  have hp := hs.two_le_precision
  have hhalf : (2 : ℝ) ^ s.emax =
      2 ^ (s.precision - 1) * 2 ^ (s.emax - ((s.precision : Int) - 1)) := by
    rw [← zpow_natCast, ← two_zpow_add, Nat.cast_sub (by omega)]
    congr 1
    ring
  rw [largestValue, hhalf]
  refine mul_le_mul_of_nonneg_right ?_ (two_zpow_pos _).le
  have hnat : 2 ^ (s.precision - 1) + 1 ≤ 2 ^ s.precision := by
    obtain ⟨i, hi⟩ : ∃ i, s.precision = i + 1 := ⟨s.precision - 1, by omega⟩
    have := Nat.two_pow_pos i
    rw [hi, Nat.add_sub_cancel, Nat.pow_succ]
    omega
  have hcast : ((2 ^ (s.precision - 1) + 1 : Nat) : ℝ) ≤ (2 ^ s.precision : Nat) :=
    Nat.cast_le.mpr hnat
  push_cast at hcast
  linarith

theorem overflow_iff (hs : s.Sane) (hx : 0 < x) :
    s.largestValue < s.unbounded m x ↔ 2 ^ (s.emax + 1) ≤ s.rounded m x := by
  have hp := hs.two_le_precision
  have hemax := hs.emax_pos
  have hfree : s.freeUlp x ≤ Int.log 2 x := by
    unfold freeUlp
    omega
  have hstep : s.largestValue < s.unbounded m x ↔ 2 ^ (s.emax + 1) ≤ s.unbounded m x := by
    refine ⟨fun h => ?_, fun h => lt_of_lt_of_le s.largestValue_lt h⟩
    by_contra hlt
    have hlog : Int.log 2 x ≤ s.emax := by
      by_contra hgt
      refine hlt (le_trans (two_zpow_le (show s.emax + 1 ≤ Int.log 2 x by omega)) ?_)
      exact le_onGrid hfree (zpow_log_le hx)
    rcases lt_or_eq_of_le hlog with hlog | hlog
    · have hle : s.unbounded m x ≤ 2 ^ s.emax := by
        refine onGrid_le (by omega) ?_
        exact le_trans lt_zpow_log.le (two_zpow_le (by omega))
      exact absurd h (not_lt.mpr (le_trans hle (pow_le_largestValue hs)))
    · -- in the last binade there are `2^p - 1` places at most
      have hulp : s.freeUlp x = s.emax - ((s.precision : Int) - 1) := by
        unfold freeUlp
        omega
      rw [unbounded, hulp] at hlt h
      have hpow : (2 : ℝ) ^ (s.emax + 1) =
          2 ^ s.precision * 2 ^ (s.emax - ((s.precision : Int) - 1)) := by
        rw [← zpow_natCast, ← two_zpow_add]
        congr 1
        ring
      rw [hpow, mul_le_mul_iff_of_pos_right (two_zpow_pos _)] at hlt
      rw [largestValue, mul_lt_mul_iff_of_pos_right (two_zpow_pos _)] at h
      have hlt' : roundNat m (x / 2 ^ (s.emax - ((s.precision : Int) - 1))) < 2 ^ s.precision := by
        exact_mod_cast not_le.mp hlt
      have hle : ((roundNat m (x / 2 ^ (s.emax - ((s.precision : Int) - 1))) + 1 : Nat) : ℝ) ≤
          (2 ^ s.precision : Nat) := Nat.cast_le.mpr hlt'
      push_cast at hle
      linarith
  rw [hstep]
  by_cases hn : s.minUlp ≤ s.freeUlp x
  · rw [rounded_normal hn]
  · obtain ⟨hulp, hxlt⟩ := subnormal hs hx hn
    have hgrid := hs.grid
    have hsmall : (2 : ℝ) ^ s.emin < 2 ^ (s.emax + 1) :=
      two_zpow_lt (by unfold emin; omega)
    have hu : s.unbounded m x ≤ 2 ^ s.emin := by
      exact onGrid_le (freeUlp_lt_emin hs hn).le hxlt.le
    have hr : s.rounded m x ≤ 2 ^ s.emin := by
      exact onGrid_le (by omega) hxlt.le
    exact ⟨fun h => by linarith, fun h => by linarith⟩

theorem unbounded_tiny (hs : s.Sane) (hx : 0 < x) (h : s.rounded m x < 2 ^ s.emin) :
    s.unbounded m x < 2 ^ s.emin := by
  by_cases hn : s.minUlp ≤ s.freeUlp x
  · rwa [← rounded_normal hn]
  · obtain ⟨hulp, -⟩ := subnormal hs hx hn
    have hfree := freeUlp_lt_emin hs hn
    have hgrid := hs.grid
    have hp := hs.two_le_precision
    rw [rounded_eq, hulp, ← not_le, pow_le_onGrid_iff (by omega) hx.le] at h
    rw [unbounded_eq, ← not_le, pow_le_onGrid_iff hfree hx.le]
    exact fun hreach => h (hreach.coarser (not_le.mp hn).le)

theorem band_iff (hs : s.Sane) (hx : 0 < x) :
    s.Band m x ↔ s.unbounded m x < 2 ^ s.emin ∧ 2 ^ s.emin ≤ s.rounded m x := by
  have hgrid := hs.grid
  have hp := hs.two_le_precision
  have hreach : s.Band m x ↔ s.minUlp = s.emin - ((s.precision : Int) - 1) ∧
      Reach m s.emin s.minUlp x ∧ ¬ Reach m s.emin (s.minUlp - 1) x := by
    refine and_congr_right fun hmin => ?_
    have hsub : s.minUlp - 1 - 1 = s.minUlp - 2 := by omega
    cases m with
    | even => simp only [Reach, not_le, hsub]
    | away => simp only [Reach, not_le, hsub]
    | down => simp only [Reach, false_iff, not_and, not_not, imp_self]
    | up => simp only [Reach, not_lt]
  rw [hreach]
  constructor
  · rintro ⟨hmin, hr, hnr⟩
    have hxlt : x < 2 ^ s.emin := by
      by_contra hge
      have hpos := two_zpow_pos (s.minUlp - 1)
      have hpos' := two_zpow_pos (s.minUlp - 1 - 1)
      refine hnr ?_
      cases m with
      | even => exact (by linarith [not_lt.mp hge] : (2 : ℝ) ^ s.emin - 2 ^ (s.minUlp - 1 - 1) ≤ x)
      | away => exact (by linarith [not_lt.mp hge] : (2 : ℝ) ^ s.emin - 2 ^ (s.minUlp - 1 - 1) ≤ x)
      | down => exact not_lt.mp hge
      | up => exact (by linarith [not_lt.mp hge] : (2 : ℝ) ^ s.emin - 2 ^ (s.minUlp - 1) < x)
    have hlog := hr.binade (by omega) hxlt
    have hfree : s.freeUlp x = s.minUlp - 1 := by
      unfold freeUlp
      omega
    have hulp : s.ulp x = s.minUlp := max_eq_right (by unfold freeUlp at hfree; omega)
    rw [unbounded_eq, rounded_eq, hulp, hfree, ← not_le, pow_le_onGrid_iff (by omega) hx.le,
      pow_le_onGrid_iff (by omega) hx.le]
    exact ⟨hnr, hr⟩
  · rintro ⟨hu, hr⟩
    have hn : ¬ s.minUlp ≤ s.freeUlp x := by
      intro hn
      rw [rounded_normal hn] at hr
      exact absurd hu (not_lt.mpr hr)
    obtain ⟨hulp, hxlt⟩ := subnormal hs hx hn
    have hfree := freeUlp_lt_emin hs hn
    rw [rounded_eq, hulp, pow_le_onGrid_iff (by omega) hx.le] at hr
    rw [unbounded_eq, ← not_le, pow_le_onGrid_iff hfree hx.le] at hu
    have hlog := hr.binade (by omega) hxlt
    have hmin : s.minUlp = s.emin - ((s.precision : Int) - 1) := by
      unfold freeUlp at hn
      omega
    refine ⟨hmin, hr, ?_⟩
    rwa [show s.minUlp - 1 = s.freeUlp x by unfold freeUlp; omega]

theorem rounded_le_emin (hs : s.Sane) (h : x < 2 ^ s.emin) : s.rounded m x ≤ 2 ^ s.emin := by
  have hgrid := hs.grid
  have hp := hs.two_le_precision
  by_cases hx : 0 < x
  · have hlog := (log_lt_iff hx _).mpr h
    refine onGrid_le ?_ h.le
    unfold ulp
    omega
  · have hzero : s.kept m x = 0 := by
      refine Nat.le_zero.mp (roundNat_le ?_)
      rw [Nat.cast_zero]
      exact div_nonpos_of_nonpos_of_nonneg (not_lt.mp hx) (two_zpow_pos _).le
    rw [rounded, hzero, Nat.cast_zero, zero_mul]
    exact (two_zpow_pos _).le

theorem tiny_of_kept_zero (hs : s.Sane) (hx : 0 < x) (h : s.kept m x = 0) : x < 2 ^ s.emin := by
  by_contra hge
  have hp := hs.two_le_precision
  have hgrid := hs.grid
  have hlog : s.emin ≤ Int.log 2 x := by
    by_contra hlt
    exact hge ((log_lt_iff hx _).mp (not_le.mp hlt))
  have hone : 1 ≤ s.kept m x := by
    refine le_roundNat ?_
    rw [Nat.cast_one, le_div_iff₀ (two_zpow_pos _), one_mul]
    refine le_trans (two_zpow_le ?_) (zpow_log_le hx)
    unfold ulp
    omega
  omega

end Spec

theorem signed_inj {sign : Bool} {x y : ℝ} : signed sign x = signed sign y ↔ x = y := by
  cases sign with
  | true => exact neg_inj
  | false => exact Iff.rfl

theorem toInf_eq_false {round : Round} {sign : Bool} :
    toInf round sign = false ↔ round.mode sign = .down := by
  cases round <;> cases sign <;> decide

theorem rounded_down_le (s : Spec) {x : ℝ} (hx : 0 < x) : s.rounded .down x ≤ x := by
  have hfloor : s.kept .down x = ⌊x / 2 ^ s.ulp x⌋₊ := by
    rcases roundNat_cases .down (x / 2 ^ s.ulp x) with h | h
    · exact h
    · exact if_neg id
  rw [Spec.rounded, hfloor, ← le_div_iff₀ (two_zpow_pos _)]
  exact Nat.floor_le (div_nonneg hx.le (two_zpow_pos _).le)

theorem largest_value {spec : Spec} (hp : spec.precision ≤ 64) (sign : Bool) :
    (Outcome.num sign (largest spec)).value = some (signed sign spec.largestValue) := by
  have hfrac : (2 ^ 64 - 1) >>> (64 - spec.precision) = 2 ^ spec.precision - 1 := by
    rw [Nat.shiftRight_eq_div_pow]
    have hsplit : 2 ^ 64 = 2 ^ spec.precision * 2 ^ (64 - spec.precision) := by
      rw [← Nat.pow_add]
      congr 1
      omega
    have hpos := Nat.two_pow_pos (64 - spec.precision)
    rw [Nat.div_eq_iff hpos, hsplit, Nat.sub_mul, Nat.one_mul]
    omega
  simp only [largest, Outcome.value, hfrac, Spec.largestValue]
  rw [Nat.cast_sub (Nat.one_le_two_pow)]
  push_cast
  rfl

section Raised

variable {sign : Bool} {x : ℝ} {spec : Spec} {env : Env}

section

variable (hs : spec.Sane)
include hs

theorem settle_zero {tiny : Prop} (hx : 0 < x)
    (hk : spec.kept (env.round.mode sign) x = 0) (htiny : tiny) :
    FlagsRight tiny sign x spec env (settle sign x spec env) := by
  have hsettle : settle sign x spec env = (.num sign .zero, { inexact := true, underflow := true }) :=
    if_pos (carry_eq_zero.mpr hk)
  have hzero : spec.rounded (env.round.mode sign) x = 0 := by
    rw [Spec.rounded, hk, Nat.cast_zero, zero_mul]
  have hne : (Outcome.num sign .zero).value ≠ some (signed sign x) := by
    intro h
    have h0 : (0 : ℝ) = signed sign x := Option.some.inj h
    cases sign with
    | true => exact absurd h0 (ne_of_gt (by simpa [signed] using hx))
    | false => exact absurd h0 (ne_of_lt hx)
  have hover : ¬ spec.largestValue < spec.unbounded (env.round.mode sign) x := by
    rw [Spec.overflow_iff hs hx, hzero, not_le]
    exact two_zpow_pos _
  rw [hsettle]
  exact ⟨fun _ => iff_of_true rfl hne, fun _ => iff_of_false (by simp) hover,
    fun _ => iff_of_true rfl ⟨hne, htiny⟩, fun _ => iff_of_true rfl htiny⟩

theorem settle_overflow {tiny : Prop} (hx : 0 < x) (hk : spec.kept (env.round.mode sign) x ≠ 0)
    (hover : 2 ^ (spec.emax + 1) ≤ spec.rounded (env.round.mode sign) x) (htiny : ¬ tiny) :
    FlagsRight tiny sign x spec env (settle sign x spec env) := by
  have hp := hs.two_le_precision
  have hv : 0 < spec.rounded (env.round.mode sign) x := lt_of_lt_of_le (two_zpow_pos _) hover
  have hlead : spec.emax < (carry spec.precision (spec.kept (env.round.mode sign) x) (spec.ulp x)).2 +
      (carry spec.precision (spec.kept (env.round.mode sign) x) (spec.ulp x)).1.log2 := by
    rw [carry_log (by omega) hk]
    exact (lt_log_iff hv _).mpr hover
  have hsettle : settle sign x spec env =
      (.num sign (if toInf env.round sign then .inf else largest spec),
        { overflow := true, inexact := true }) := by
    unfold settle settled report
    rw [if_neg (carry_eq_zero.not.mpr hk), if_pos hlead]
  have hbig := (Spec.overflow_iff (m := env.round.mode sign) hs hx).mpr hover
  have hne : (Outcome.num sign (if toInf env.round sign then .inf else largest spec)).value ≠
      some (signed sign x) := by
    cases hinf : toInf env.round sign with
    | true => exact fun h => absurd h (by simp [Outcome.value])
    | false =>
      rw [if_neg (by simp), largest_value hs.precision_le]
      intro h
      have heq : spec.largestValue = x := signed_inj.mp (Option.some.inj h)
      rw [toInf_eq_false.mp hinf] at hover
      have h1 := rounded_down_le spec hx
      have h2 := spec.largestValue_lt
      linarith
  have hnz : Outcome.num sign (if toInf env.round sign then .inf else largest spec) ≠
      .num sign .zero := by
    cases toInf env.round sign <;> simp [largest]
  rw [hsettle]
  exact ⟨fun _ => iff_of_true rfl hne, fun _ => iff_of_true rfl hbig,
    fun _ => iff_of_false (by simp) fun h => htiny h.2, fun _ => iff_of_false hnz htiny⟩

theorem settle_range {asked : Prop} (hx : 0 < x) (hk : spec.kept (env.round.mode sign) x ≠ 0)
    (hover : ¬ 2 ^ (spec.emax + 1) ≤ spec.rounded (env.round.mode sign) x) :
    FlagsRight asked sign x spec env (settle sign x spec env) ↔
      ((env.flushOutputs = false → x ≠ spec.rounded (env.round.mode sign) x) →
        (DetectsTiny sign x spec env ↔ asked)) := by
  have hp := hs.two_le_precision
  set m := env.round.mode sign with hm
  set r := carry spec.precision (spec.kept m x) (spec.ulp x) with hr
  have hvalue : (r.1 : ℝ) * 2 ^ r.2 = spec.rounded m x := carry_value (by omega)
  have hv : 0 < spec.rounded m x :=
    mul_pos (Nat.cast_pos.mpr (Nat.pos_of_ne_zero hk)) (two_zpow_pos _)
  have hlead : r.2 + r.1.log2 = Int.log 2 (spec.rounded m x) := carry_log (by omega) hk
  have hrange : ¬ spec.emax < r.2 + r.1.log2 := by
    rw [hlead, lt_log_iff hv]
    exact hover
  have hbig : ¬ spec.largestValue < spec.unbounded m x := (Spec.overflow_iff hs hx).not.mpr hover
  -- what the code computes, with its two decisions named
  obtain ⟨tiny, htiny, inexact, hinexact, hsettle⟩ : ∃ tiny : Bool,
      (tiny = true ↔ DetectsTiny sign x spec env) ∧ ∃ inexact : Bool,
      (inexact = true ↔ x ≠ spec.rounded m x) ∧
      settle sign x spec env = if tiny && env.flushOutputs then
        (.num sign .zero, { inexact := true, underflow := true })
      else (.num sign (.finite r.2 r.1), { inexact := inexact, underflow := tiny && inexact }) := by
    refine ⟨detected env.tininess (decide (r.2 + r.1.log2 < spec.emin))
        (decide (Int.log 2 x < spec.emin)), ?_,
      decide (x ≠ spec.kept m x * 2 ^ spec.ulp x), decide_eq_true_iff, ?_⟩
    · unfold DetectsTiny detected
      cases env.tininess with
      | afterRounding =>
        simp only [decide_eq_true_eq]
        rw [hlead, log_lt_iff hv]
      | beforeRounding =>
        simp only [decide_eq_true_eq]
        rw [log_lt_iff hx]
    · unfold settle settled report
      rw [if_neg (carry_eq_zero.not.mpr hk), if_neg hrange]
  have hfin : (Outcome.num sign (.finite r.2 r.1)).value ≠ some (signed sign x) ↔
      x ≠ spec.rounded m x := by
    simp only [Outcome.value]
    rw [hvalue, ne_eq, Option.some.injEq, signed_inj, eq_comm]
  rw [hsettle]
  cases hf : env.flushOutputs with
  | true =>
    simp only [Bool.and_true, Bool.true_eq_false, false_implies, true_implies]
    rw [← htiny]
    constructor
    · intro h
      have hflushed := h.flushed hf
      rw [← hflushed]
      cases tiny <;> simp
    · intro h
      refine ⟨fun hc => absurd hc (by simp [hf]), fun hc => absurd hc (by simp [hf]),
        fun hc => absurd hc (by simp [hf]), fun _ => ?_⟩
      rw [← h]
      cases tiny <;> simp
  | false =>
    simp only [Bool.and_false, true_implies, Bool.false_eq_true, if_false]
    rw [← htiny]
    constructor
    · intro h hne
      have hunder := h.underflow hf
      simp only [Bool.and_eq_true] at hunder
      rw [hinexact, hfin] at hunder
      exact ⟨fun ht => (hunder.mp ⟨ht, hne⟩).2, fun ht => (hunder.mpr ⟨hne, ht⟩).1⟩
    · intro h
      refine ⟨fun _ => hinexact.trans hfin.symm, fun _ => iff_of_false (by simp) hbig,
        fun _ => ?_, fun hc => absurd hc (by simp [hf])⟩
      simp only [Bool.and_eq_true]
      rw [hinexact, hfin]
      exact ⟨fun ht => ⟨ht.2, (h ht.2).mp ht.1⟩, fun ht => ⟨(h ht.1).mpr ht.2, ht.1⟩⟩

theorem tiny_of_zero (hx : 0 < x) (hk : spec.kept (env.round.mode sign) x = 0) :
    DetectsTiny sign x spec env ∧ spec.Tiny (env.round.mode sign) x env.tininess := by
  have hlow : spec.rounded (env.round.mode sign) x < 2 ^ spec.emin := by
    rw [Spec.rounded, hk, Nat.cast_zero, zero_mul]
    exact two_zpow_pos _
  have hbefore := Spec.tiny_of_kept_zero hs hx hk
  unfold DetectsTiny Spec.Tiny
  cases env.tininess with
  | beforeRounding => exact ⟨hbefore, hbefore⟩
  | afterRounding => exact ⟨hlow, Spec.unbounded_tiny hs hx hlow⟩

theorem not_tiny_of_overflow (hx : 0 < x)
    (hover : 2 ^ (spec.emax + 1) ≤ spec.rounded (env.round.mode sign) x) :
    ¬ DetectsTiny sign x spec env ∧ ¬ spec.Tiny (env.round.mode sign) x env.tininess := by
  have hemax := hs.emax_pos
  have hsmall : (2 : ℝ) ^ spec.emin < 2 ^ (spec.emax + 1) :=
    two_zpow_lt (by unfold Spec.emin; omega)
  have hbefore : ¬ x < 2 ^ spec.emin := fun h => by
    have := Spec.rounded_le_emin (m := env.round.mode sign) hs h
    linarith
  unfold DetectsTiny Spec.Tiny
  cases env.tininess with
  | beforeRounding => exact ⟨hbefore, hbefore⟩
  | afterRounding =>
    have h1 := (Spec.overflow_iff (m := env.round.mode sign) hs hx).mpr hover
    have h2 := Spec.pow_le_largestValue hs
    have h3 := two_zpow_le (show spec.emin ≤ spec.emax by unfold Spec.emin; omega)
    exact ⟨fun h => by linarith, fun h => by linarith⟩

theorem settle_flags (hx : 0 < x) :
    FlagsRight (DetectsTiny sign x spec env) sign x spec env (settle sign x spec env) := by
  by_cases hk : spec.kept (env.round.mode sign) x = 0
  · exact settle_zero hs hx hk (tiny_of_zero hs hx hk).1
  · by_cases hover : 2 ^ (spec.emax + 1) ≤ spec.rounded (env.round.mode sign) x
    · exact settle_overflow hs hx hk hover (not_tiny_of_overflow hs hx hover).1
    · exact (settle_range hs hx hk hover).mpr fun _ => Iff.rfl

theorem settle_flags_iff (hx : 0 < x) :
    FlagsRight (spec.Tiny (env.round.mode sign) x env.tininess) sign x spec env
        (settle sign x spec env) ↔
      ¬ (env.tininess = .afterRounding ∧ spec.Band (env.round.mode sign) x) := by
  have hband := Spec.band_iff (m := env.round.mode sign) hs hx
  by_cases hk : spec.kept (env.round.mode sign) x = 0
  · refine iff_of_true (settle_zero hs hx hk (tiny_of_zero hs hx hk).2) fun h => ?_
    have h2 := (hband.mp h.2).2
    rw [Spec.rounded, hk, Nat.cast_zero, zero_mul] at h2
    exact absurd (two_zpow_pos _) (not_lt.mpr h2)
  · by_cases hover : 2 ^ (spec.emax + 1) ≤ spec.rounded (env.round.mode sign) x
    · refine iff_of_true (settle_overflow hs hx hk hover (not_tiny_of_overflow hs hx hover).2)
        fun h => ?_
      have h1 := (hband.mp h.2).1
      have h2 := (Spec.overflow_iff (m := env.round.mode sign) hs hx).mpr hover
      have h3 := Spec.pow_le_largestValue hs
      have hemax := hs.emax_pos
      have h4 := two_zpow_le (show spec.emin ≤ spec.emax by unfold Spec.emin; omega)
      linarith
    · rw [settle_range hs hx hk hover]
      unfold DetectsTiny Spec.Tiny
      cases env.tininess with
      | beforeRounding => simp
      | afterRounding =>
        simp only [true_and]
        constructor
        · intro h hb
          obtain ⟨hu, hr⟩ := hband.mp hb
          have hlt : x < 2 ^ spec.emin := by
            by_contra hge
            have hle : 2 ^ spec.emin ≤ spec.unbounded (env.round.mode sign) x := by
              rw [Spec.unbounded_eq]
              refine le_trans ?_ (le_onGrid (e := Int.log 2 x) ?_ (zpow_log_le hx))
              · refine two_zpow_le ?_
                by_contra hlog
                exact hge ((log_lt_iff hx _).mp (not_le.mp hlog))
              · have := hs.two_le_precision
                unfold Spec.freeUlp
                omega
            linarith
          have hne : x ≠ spec.rounded (env.round.mode sign) x := by
            intro heq
            rw [← heq] at hr
            linarith
          exact absurd ((h fun _ => hne).mpr hu) (not_lt.mpr hr)
        · intro hb _
          refine ⟨Spec.unbounded_tiny hs hx, fun hu => ?_⟩
          by_contra hr
          exact hb (hband.mpr ⟨hu, not_lt.mp hr⟩)

end

end Raised

/--
**The flags of `round_exact` are those of IEEE 754-2019 §7.** For every sign, exponent, exact
significand, format and environment it is given, it returns, with inexact, overflow and
underflow raised as asked and, under flushing, with exactly the tiny results flushed. A result
is tiny after rounding when what is delivered is below the smallest normal. Asked of the value
at `p` bits with the exponent unbounded instead, the flags are right if and only if it is not
the case that tininess is detected after rounding and the exact magnitude lies in the band
below the smallest normal.
-/
theorem flags_right {sign : Bool} {exp : Int} {sig : Nat} {spec : Spec} {env : Env}
    (hspec : spec.Sane) (hpos : 0 < sig) (h128 : sig < 2 ^ 128)
    (hexp : -2 ^ 29 ≤ exp ∧ exp ≤ 2 ^ 29) :
    ∃ r, roundExact sign exp sig spec env = some r ∧
      FlagsRight (DetectsTiny sign (sig * 2 ^ exp) spec env) sign (sig * 2 ^ exp) spec env r ∧
      (FlagsRight (spec.Tiny (env.round.mode sign) (sig * 2 ^ exp) env.tininess) sign
          (sig * 2 ^ exp) spec env r ↔
        ¬ (env.tininess = .afterRounding ∧ spec.Band (env.round.mode sign) (sig * 2 ^ exp))) := by
  have hx : (0 : ℝ) < sig * 2 ^ exp := mul_pos (Nat.cast_pos.mpr hpos) (two_zpow_pos exp)
  have hsettle : roundExact sign exp sig spec env = some (settle sign (sig * 2 ^ exp) spec env) :=
    roundExact_settles hspec (Sticky.exact sig) hpos h128 (Or.inl rfl) hexp
  exact ⟨_, hsettle, settle_flags hspec hx, settle_flags_iff hspec hx⟩

theorem sane_binary32 : (Spec.interchange 24 127).Sane :=
  ⟨by decide, by decide, by decide, by decide, by decide, by decide⟩

/--
Below the band of binary32 by a quarter of half an ulp. It is delivered as the largest
subnormal, inexact and underflowing, tiny either way.
-/
theorem flags_right_largest_subnormal :
    roundExact false (-152) 67108859 (Spec.interchange 24 127) .riscv =
      some (.num false (.finite (-149) 8388607), { inexact := true, underflow := true }) ∧
    FlagsRight ((Spec.interchange 24 127).Tiny .even ((67108859 : Nat) * 2 ^ (-152 : Int))
      .afterRounding) false ((67108859 : Nat) * 2 ^ (-152 : Int)) (Spec.interchange 24 127) .riscv
      (.num false (.finite (-149) 8388607), { inexact := true, underflow := true }) := by
  have hrun : roundExact false (-152) 67108859 (Spec.interchange 24 127) .riscv =
      some (.num false (.finite (-149) 8388607), { inexact := true, underflow := true }) := by
    decide +kernel
  obtain ⟨r, hr, -, hiff⟩ := @flags_right false (-152) 67108859 _ .riscv sane_binary32
    (by decide) (by decide) (by decide)
  rw [hrun] at hr
  obtain rfl := Option.some.inj hr
  refine ⟨hrun, hiff.mpr ?_⟩
  rintro ⟨-, -, hle, -⟩
  have hemin : (2 : ℝ) ^ (Spec.interchange 24 127).emin = 67108864 * 2 ^ (-152 : Int) := by
    rw [show (Spec.interchange 24 127).emin = 26 + -152 by decide, two_zpow_add]
    norm_num
  have hhalf : (2 : ℝ) ^ ((Spec.interchange 24 127).minUlp - 1) = 4 * 2 ^ (-152 : Int) := by
    rw [show (Spec.interchange 24 127).minUlp - 1 = 2 + -152 by decide, two_zpow_add]
    norm_num
  have hpos := two_zpow_pos (-152)
  push_cast at hle
  linarith

/--
Half an ulp below the smallest normal of binary32. It is delivered as the smallest
normal, inexact and nothing else; at 24 bits with the exponent unbounded it is itself,
and tiny.
-/
theorem underflow_missed :
    roundExact false (-150) 16777215 (Spec.interchange 24 127) .riscv =
      some (.num false (.finite (-149) 8388608), { inexact := true }) ∧
    ¬ FlagsRight ((Spec.interchange 24 127).Tiny .even ((16777215 : Nat) * 2 ^ (-150 : Int))
      .afterRounding) false ((16777215 : Nat) * 2 ^ (-150 : Int)) (Spec.interchange 24 127) .riscv
      (.num false (.finite (-149) 8388608), { inexact := true }) := by
  have hrun : roundExact false (-150) 16777215 (Spec.interchange 24 127) .riscv =
      some (.num false (.finite (-149) 8388608), { inexact := true }) := by
    decide +kernel
  obtain ⟨r, hr, -, hiff⟩ := @flags_right false (-150) 16777215 _ .riscv sane_binary32
    (by decide) (by decide) (by decide)
  rw [hrun] at hr
  obtain rfl := Option.some.inj hr
  refine ⟨hrun, fun h => hiff.mp h ?_⟩
  have hemin : (2 : ℝ) ^ (Spec.interchange 24 127).emin = 16777216 * 2 ^ (-150 : Int) := by
    rw [show (Spec.interchange 24 127).emin = 24 + -150 by decide, two_zpow_add]
    norm_num
  have hhalf : (2 : ℝ) ^ ((Spec.interchange 24 127).minUlp - 1) = 2 ^ (-150 : Int) := by
    rw [show (Spec.interchange 24 127).minUlp - 1 = -150 by decide]
  have hquarter : (2 : ℝ) ^ ((Spec.interchange 24 127).minUlp - 2) = 1 / 2 * 2 ^ (-150 : Int) := by
    rw [show (Spec.interchange 24 127).minUlp - 2 = -150 - 1 by decide, half_place]
  refine ⟨rfl, by decide, ?_, ?_⟩
  · push_cast
    linarith
  · rw [hemin, hquarter]
    linarith

end Rsemu.Float
