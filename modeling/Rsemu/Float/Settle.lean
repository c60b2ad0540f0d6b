import Rsemu.Float.Kernel

/-!
# Rounding a real number

`settle` rounds a positive real magnitude to a format: on the grid of its binade, or on
the subnormal grid where that is coarser, once, in the direction the sign and the
environment give. `roundExact` is given a sticky significand instead of the real number,
and settles the real number it stands for (`roundExact_settles`), as long as it keeps
three bits below the precision or has lost nothing.
-/

namespace Rsemu.Float

open Rounding

attribute [local instance] atLeastTwo_two

noncomputable def Spec.ulp (s : Spec) (x : ℝ) : Int :=
  max (Int.log 2 x - ((s.precision : Int) - 1)) s.minUlp

def carry (p k : Nat) (ulp : Int) : Nat × Int :=
  if k = 2 ^ p then (2 ^ (p - 1), ulp + 1) else (k, ulp)

def settled (sign : Bool) (spec : Spec) (env : Env) (inexact tinyBefore : Bool)
    (r : Nat × Int) : Outcome × Flags :=
  if r.1 = 0 then (.num sign .zero, { inexact := true, underflow := true })
  else report sign spec env inexact tinyBefore r.1 r.2 (r.2 + r.1.log2)

noncomputable def Spec.kept (s : Spec) (m : Mode) (x : ℝ) : Nat := roundNat m (x / 2 ^ s.ulp x)

open Classical in
noncomputable def settle (sign : Bool) (x : ℝ) (spec : Spec) (env : Env) : Outcome × Flags :=
  let k := spec.kept (env.round.mode sign) x
  settled sign spec env (decide (x ≠ k * 2 ^ spec.ulp x)) (decide (Int.log 2 x < spec.emin))
    (carry spec.precision k (spec.ulp x))

theorem shrSticky_eq {v : Nat} (hv : v < 2 ^ 128) (n : Nat) : shrSticky v n = jam v n := by
  unfold shrSticky
  split
  · rename_i hn
    rw [hn, jam_zero]
  · split
    · rename_i hn
      have hvn : v < 2 ^ n := lt_of_lt_of_le hv (Nat.pow_le_pow_right (by decide) hn)
      unfold jam bit
      rw [Nat.mod_eq_of_lt hvn, Nat.div_eq_of_lt hvn]
      by_cases hz : v = 0 <;> simp [hz]
    · unfold jam bit
      rw [Nat.one_shiftLeft, Nat.and_two_pow_sub_one_eq_mod, Nat.shiftRight_eq_div_pow]
      by_cases hz : v % 2 ^ n = 0 <;> simp [hz]

theorem jam_le (v n : Nat) : jam v n ≤ v := by
  unfold jam
  split
  · exact Nat.div_le_self _ _
  · rename_i hz
    rw [or_one]
    cases n with
    | zero => exact absurd (Nat.mod_one v) (by simpa using hz)
    | succ n =>
      have hmod : v % 2 ^ (n + 1) ≤ v := Nat.mod_le _ _
      have hdiv : v / 2 ^ (n + 1) ≤ v / 2 := by
        rw [Nat.pow_succ, Nat.mul_comm, ← Nat.div_div_eq_div_mul]
        exact Nat.div_le_self _ _
      omega

variable {sig : Nat}

theorem log2_bounds {y : ℝ} (hs : Sticky sig y) (hpos : 0 < sig) (hroom : y = sig ∨ 4 ≤ sig) :
    (2 : ℝ) ^ sig.log2 ≤ y ∧ y < 2 ^ (sig.log2 + 1) := by
  have hlo : 2 ^ sig.log2 ≤ sig := Nat.log2_self_le (by omega)
  have hhi : sig < 2 ^ (sig.log2 + 1) := Nat.lt_log2_self
  rcases hroom with rfl | hbig
  · exact ⟨by exact_mod_cast hlo, by exact_mod_cast hhi⟩
  · have hlog : 2 ≤ sig.log2 := (Nat.le_log2 (by omega)).mpr hbig
    obtain ⟨i, hi⟩ : ∃ i, sig.log2 = i + 1 := ⟨sig.log2 - 1, by omega⟩
    have heven : ∀ i, 2 ^ (i + 1) % 2 = 0 := fun i => by
      exact Nat.mul_mod_left _ _
    rw [hi] at hlo hhi ⊢
    have h1 := not_lt.mp ((hs.lt_iff (heven i)).not.mpr (Nat.not_lt.mpr hlo))
    have h2 := (hs.lt_iff (heven (i + 1))).mpr hhi
    exact ⟨by exact_mod_cast h1, by exact_mod_cast h2⟩

theorem log2_lt (hpos : 0 < sig) (h : sig < 2 ^ 128) : sig.log2 < 128 :=
  (Nat.log2_lt (by omega)).mpr h

theorem align_settles (target : Nat) {exp : Int} {y : ℝ} (hs : Sticky sig y) (hpos : 0 < sig)
    (h128 : sig < 2 ^ 128) (hroom : y = sig ∨ 2 ^ target ≤ sig) (ht : target ≤ 66)
    (hexp : -2 ^ 29 ≤ exp ∧ exp ≤ 2 ^ 29) :
    ∃ s, align sig exp target = some (s, exp + sig.log2 - target) ∧ s < 2 ^ 128 ∧
      Sticky s (y * 2 ^ ((target : Int) - sig.log2)) := by
  have hlog := log2_lt hpos h128
  by_cases hlt : target < sig.log2
  · obtain ⟨n, hn⟩ : ∃ n, sig.log2 = target + n := ⟨sig.log2 - target, by omega⟩
    simp only [align, if_pos hlt]
    rw [hn] at hlog ⊢
    rw [show target + n - target = n by omega, i32_eq (by omega), shrSticky_eq h128]
    refine ⟨jam sig n, ?_, lt_of_le_of_lt (jam_le sig n) h128, ?_⟩
    · rw [Option.map_some]
      congr 2
      push_cast
      ring
    · have := hs.jam n
      rwa [div_eq_mul_inv, ← zpow_natCast, ← zpow_neg,
        show -(n : Int) = (target : Int) - (target + n : Nat) by push_cast; ring] at this
  · simp only [align, if_neg hlt]
    obtain ⟨n, hn⟩ : ∃ n, target = sig.log2 + n := ⟨target - sig.log2, by omega⟩
    have hself : sig < 2 ^ (sig.log2 + 1) := Nat.lt_log2_self
    have hshift : sig <<< n < 2 ^ (sig.log2 + 1 + n) := by
      rw [Nat.shiftLeft_eq, Nat.pow_add]
      exact Nat.mul_lt_mul_of_pos_right hself (Nat.two_pow_pos n)
    have hfit : sig <<< n < 2 ^ 128 :=
      lt_of_lt_of_le hshift (Nat.pow_le_pow_right (by decide) (by omega))
    have hzpow : (target : Int) - sig.log2 = (n : Int) := by
      rw [hn]
      push_cast
      ring
    rw [hzpow, show target - sig.log2 = n by omega, u128_eq hfit, Option.bind_some,
      i32_eq (by omega), Option.map_some]
    refine ⟨sig <<< n, ?_, hfit, ?_⟩
    · congr 2
      rw [hn]
      push_cast
      ring
    · rw [zpow_natCast, Nat.shiftLeft_eq]
      rcases Nat.eq_zero_or_pos n with rfl | hnpos
      · simpa using hs
      · -- shifted up, so it was below `2^target` and nothing had been lost
        have hsmall : ¬ 2 ^ target ≤ sig := by
          have : 2 ^ (sig.log2 + 1) ≤ 2 ^ target := Nat.pow_le_pow_right (by decide) (by omega)
          omega
        rw [hroom.resolve_right hsmall]
        exact Or.inl (by push_cast; ring)

theorem toGrid_settles (spec : Spec) (exp : Int) {y : ℝ} (hs : Sticky sig y) (h128 : sig < 2 ^ 128)
    (hexp : -2 ^ 30 ≤ exp ∧ exp ≤ 2 ^ 30) (hgrid : -2 ^ 26 ≤ spec.minUlp ∧ spec.minUlp ≤ 2 ^ 26) :
    ∃ s e, toGrid spec sig exp = some (s, e) ∧ e + 3 = max (exp + 3) spec.minUlp ∧
      Sticky s (y * 2 ^ (exp - e)) := by
  unfold toGrid
  rw [show ((extra : Nat) : Int) = 3 from rfl, i32_eq (by omega), Option.bind_some]
  by_cases hlt : exp + 3 < spec.minUlp
  · obtain ⟨n, hn⟩ : ∃ n : Nat, spec.minUlp - (exp + 3) = n :=
      ⟨(spec.minUlp - (exp + 3)).toNat, by omega⟩
    rw [if_pos hlt, i32_eq (by omega), Option.bind_some, hn, i32_eq (by omega), Option.map_some,
      Int.toNat_natCast, shrSticky_eq h128]
    refine ⟨jam sig n, exp + n, rfl, by omega, ?_⟩
    have := hs.jam n
    rwa [div_eq_mul_inv, ← zpow_natCast, ← zpow_neg,
      show -(n : Int) = exp - (exp + n) by ring] at this
  · rw [if_neg hlt]
    refine ⟨sig, exp, rfl, by omega, ?_⟩
    rwa [sub_self, zpow_zero, mul_one]

theorem roundsUp_iff {y : ℝ} (hs : Sticky sig y) (round : Round) (sign : Bool) :
    roundsUp round sign (sig >>> extra) (sig &&& (1 <<< extra - 1)) = true ↔
      (round.mode sign).Up ⌊y / 2 ^ 3⌋₊ (y / 2 ^ 3 - ⌊y / 2 ^ 3⌋₊) := by
  obtain ⟨hzero, hgt, heq⟩ := hs.fract (j := 3) (by decide)
  have hfloor := hs.floor (j := 3) (by decide)
  have hrem : sig &&& (1 <<< extra - 1) = sig % 2 ^ 3 := Nat.and_two_pow_sub_one_eq_mod sig 3
  have hkeep : sig >>> extra = sig / 2 ^ 3 := Nat.shiftRight_eq_div_pow sig 3
  have hnonneg : 0 ≤ y / 2 ^ 3 - ⌊y / 2 ^ 3⌋₊ :=
    sub_nonneg.mpr (Nat.floor_le (div_nonneg hs.nonneg (by positivity)))
  have hup : 0 < y / 2 ^ 3 - ⌊y / 2 ^ 3⌋₊ ↔ sig % 2 ^ 3 ≠ 0 := by
    rw [lt_iff_le_and_ne, and_iff_right hnonneg, ne_comm, ne_eq, hzero]
  rw [hrem, hkeep, ← hfloor]
  have hhalf : (1 : Nat) <<< (extra - 1) = 2 ^ (3 - 1) := rfl
  cases round with
  | tiesEven =>
    simp only [roundsUp, Round.mode, Mode.Up, hhalf, hgt, heq, Bool.or_eq_true,
      Bool.and_eq_true, decide_eq_true_eq, beq_iff_eq, bne_iff_ne, Nat.and_one_is_mod]
    omega
  | tiesAway =>
    simp only [roundsUp, Round.mode, Mode.Up, hhalf, decide_eq_true_eq]
    rw [@le_iff_lt_or_eq ℝ, hgt, @eq_comm ℝ, heq]
    omega
  | towardZero => simp [roundsUp, Round.mode, Mode.Up]
  | towardNegative =>
    cases sign with
    | true =>
      simp only [roundsUp, Round.mode, Mode.Up, if_true, hup, Bool.and_true, bne_iff_ne]
    | false => simp [roundsUp, Round.mode, Mode.Up]
  | towardPositive =>
    cases sign with
    | true => simp [roundsUp, Round.mode, Mode.Up]
    | false =>
      simp only [roundsUp, Round.mode, Mode.Up, hup, Bool.not_false, Bool.and_true,
        bne_iff_ne, Bool.false_eq_true, if_false]

theorem scaled_lt (spec : Spec) {x : ℝ} : x / 2 ^ spec.ulp x < 2 ^ spec.precision := by
  rw [div_lt_iff₀ (two_zpow_pos _), ← zpow_natCast, ← two_zpow_add]
  refine lt_of_lt_of_le lt_zpow_log (zpow_le_zpow_right₀ (by norm_num) ?_)
  unfold Spec.ulp
  omega

theorem kept_le (spec : Spec) (m : Mode) (x : ℝ) : spec.kept m x ≤ 2 ^ spec.precision := by
  refine roundNat_le ?_
  push_cast
  exact (scaled_lt spec).le

theorem roundUp_settles {p keep : Nat} {ulp : Int} {up : Bool} (hp : 1 ≤ p) (hkeep : keep < 2 ^ p)
    (hulp : -2 ^ 30 ≤ ulp ∧ ulp ≤ 2 ^ 30) :
    roundUp p keep ulp up = some (carry p (keep + bit up) ulp) := by
  unfold roundUp carry
  cases up with
  | false =>
    rw [if_neg (by simp), if_neg (by simp [bit]; omega)]
    rfl
  | true =>
    rw [if_pos rfl, show keep + bit true = keep + 1 from rfl]
    by_cases hc : keep + 1 = 2 ^ p
    · have hshift : (keep + 1) >>> p ≠ 0 := by
        rw [hc, Nat.shiftRight_eq_div_pow, Nat.div_self (Nat.two_pow_pos p)]
        exact Nat.one_ne_zero
      have hhalf : (2 ^ p) >>> 1 = 2 ^ (p - 1) := by
        rw [Nat.shiftRight_eq_div_pow, Nat.pow_div hp (by decide)]
      rw [if_pos hshift, if_pos hc, i32_eq (by omega), Option.map_some, hc, hhalf]
    · have hshift : (keep + 1) >>> p = 0 := by
        rw [Nat.shiftRight_eq_div_pow]
        exact Nat.div_eq_of_lt (by omega)
      rw [if_neg (by simp [hshift]), if_neg hc]

theorem conclude_settles {sign inexact tinyBefore : Bool} {spec : Spec} {env : Env} {k : Nat}
    {ulp : Int} (hk : k < 2 ^ 128) (hulp : -2 ^ 30 ≤ ulp ∧ ulp ≤ 2 ^ 30 + 1) :
    conclude sign spec env inexact tinyBefore k ulp =
      some (settled sign spec env inexact tinyBefore (k, ulp)) := by
  unfold conclude settled
  by_cases hz : k = 0
  · rw [if_pos hz, if_pos hz]
  · have hlog := log2_lt (Nat.pos_of_ne_zero hz) hk
    rw [if_neg hz, if_neg hz, i32_eq (by omega), Option.map_some]

open Classical in
theorem roundGrid_settles {sign tinyBefore : Bool} {spec : Spec} {env : Env} {exp : Int} {x : ℝ}
    (hp : 1 ≤ spec.precision ∧ spec.precision ≤ 64) (hs : Sticky sig (x / 2 ^ exp))
    (hulp : exp + 3 = spec.ulp x) (hexp : -2 ^ 30 ≤ exp + 3 ∧ exp + 3 ≤ 2 ^ 30) :
    roundGrid sign spec env tinyBefore sig exp =
      some (settled sign spec env
        (decide (x ≠ spec.kept (env.round.mode sign) x * 2 ^ spec.ulp x))
        tinyBefore (carry spec.precision (spec.kept (env.round.mode sign) x) (spec.ulp x))) := by
  have hscale : x / 2 ^ exp / 2 ^ 3 = x / 2 ^ spec.ulp x := by
    rw [← hulp, two_zpow_add, div_div]
    norm_num
  have hfloor := hs.floor (j := 3) (by decide)
  have hup := roundsUp_iff hs env.round sign
  have hfract := (hs.fract (j := 3) (by decide)).1
  rw [hscale] at hfloor hup hfract
  have hkeep : sig >>> extra = ⌊x / 2 ^ spec.ulp x⌋₊ := by
    rw [hfloor]
    exact Nat.shiftRight_eq_div_pow sig 3
  have hnonneg : 0 ≤ x / 2 ^ spec.ulp x := hscale ▸ div_nonneg hs.nonneg (by positivity)
  have hlt : sig >>> extra < 2 ^ spec.precision := by
    rw [hkeep, Nat.floor_lt hnonneg]
    exact_mod_cast scaled_lt spec
  -- what is kept is the integer part, and one more when it rounds up
  have hround : sig >>> extra + bit (roundsUp env.round sign (sig >>> extra)
      (sig &&& (1 <<< extra - 1))) = spec.kept (env.round.mode sign) x := by
    unfold Spec.kept roundNat
    by_cases hb : roundsUp env.round sign (sig >>> extra) (sig &&& (1 <<< extra - 1)) = true
    · rw [if_pos (hup.mp hb), hb, hkeep]
      rfl
    · rw [if_neg (hup.not.mp hb), Bool.not_eq_true _ |>.mp hb, hkeep]
      rfl
  have hrem : (sig &&& (1 <<< extra - 1) != 0) =
      decide (x ≠ spec.kept (env.round.mode sign) x * 2 ^ spec.ulp x) := by
    rw [show sig &&& (1 <<< extra - 1) = sig % 2 ^ 3 from Nat.and_two_pow_sub_one_eq_mod sig 3]
    apply Bool.eq_iff_iff.mpr
    rw [bne_iff_ne, decide_eq_true_eq, ne_eq, ne_eq, ← hfract, not_iff_not]
    constructor
    · intro h
      have hint : x / 2 ^ spec.ulp x = ⌊x / 2 ^ spec.ulp x⌋₊ := sub_eq_zero.mp h
      have hk : spec.kept (env.round.mode sign) x = ⌊x / 2 ^ spec.ulp x⌋₊ := by
        unfold Spec.kept
        rw [hint, roundNat_natCast, Nat.floor_natCast]
      rw [hk, ← hint, div_mul_cancel₀ _ (two_zpow_pos _).ne']
    · intro h
      have hint : x / 2 ^ spec.ulp x = spec.kept (env.round.mode sign) x :=
        (div_eq_iff (two_zpow_pos _).ne').mpr h
      rw [hint, Nat.floor_natCast, sub_self]
  have hkept := kept_le spec (env.round.mode sign) x
  have hpow : 2 ^ spec.precision ≤ 2 ^ 64 := Nat.pow_le_pow_right (by decide) hp.2
  unfold roundGrid
  simp only [show ((extra : Nat) : Int) = 3 from rfl]
  rw [i32_eq (by omega), Option.bind_some, roundUp_settles hp.1 hlt (by omega), Option.bind_some,
    hround, hrem, hulp]
  have hr1 : (carry spec.precision (spec.kept (env.round.mode sign) x) (spec.ulp x)).1 < 2 ^ 128 := by
    unfold carry
    split
    · exact lt_of_le_of_lt (Nat.pow_le_pow_right (by decide) (show spec.precision - 1 ≤ 64 by omega))
        (by decide)
    · exact lt_of_le_of_lt (le_trans hkept hpow) (by decide)
  have hr2 : -2 ^ 30 ≤ (carry spec.precision (spec.kept (env.round.mode sign) x) (spec.ulp x)).2 ∧
      (carry spec.precision (spec.kept (env.round.mode sign) x) (spec.ulp x)).2 ≤ 2 ^ 30 + 1 := by
    unfold carry
    split <;> simp only <;> omega
  exact conclude_settles hr1 hr2

theorem roundExact_settles_of_bounds {sign : Bool} {exp : Int} {spec : Spec} {env : Env} {y : ℝ}
    (hp : 1 ≤ spec.precision ∧ spec.precision ≤ 64)
    (hgrid : -2 ^ 26 ≤ spec.minUlp ∧ spec.minUlp ≤ 2 ^ 26) (hs : Sticky sig y) (hpos : 0 < sig)
    (h128 : sig < 2 ^ 128) (hroom : y = sig ∨ 2 ^ (spec.precision + 2) ≤ sig)
    (hexp : -2 ^ 29 ≤ exp ∧ exp ≤ 2 ^ 29) :
    roundExact sign exp sig spec env = some (settle sign (y * 2 ^ exp) spec env) := by
  have hlog := log2_lt hpos h128
  have hfour : y = sig ∨ 4 ≤ sig := by
    refine hroom.imp_right fun h => le_trans ?_ h
    exact Nat.pow_le_pow_right (n := 2) (by decide) (show 2 ≤ spec.precision + 2 by omega)
  obtain ⟨hlo, hhi⟩ := log2_bounds hs hpos hfour
  have hlead : Int.log 2 (y * 2 ^ exp) = exp + sig.log2 := by
    refine log_eq ?_ ?_
    · rw [add_comm, two_zpow_add, zpow_natCast]
      exact mul_le_mul_of_nonneg_right hlo (two_zpow_pos exp).le
    · rw [show exp + (sig.log2 : Int) + 1 = ((sig.log2 + 1 : Nat) : Int) + exp by push_cast; ring,
        two_zpow_add, zpow_natCast]
      exact mul_lt_mul_of_pos_right hhi (two_zpow_pos exp)
  have htarget : spec.precision + extra - 1 = spec.precision + 2 := rfl
  obtain ⟨s, halign, hs128, hs'⟩ := align_settles (spec.precision + 2) hs hpos h128 hroom
    (by omega) hexp
  obtain ⟨s₂, e₂, htogrid, he₂, hs₂⟩ := toGrid_settles spec
    (exp + sig.log2 - (spec.precision + 2 : Nat)) hs' hs128
    (by push_cast; omega) hgrid
  have hulp : e₂ + 3 = spec.ulp (y * 2 ^ exp) := by
    rw [he₂, Spec.ulp, hlead]
    omega
  have hs₃ : Sticky s₂ (y * 2 ^ exp / 2 ^ e₂) := by
    have hval : y * 2 ^ (((spec.precision + 2 : Nat) : Int) - sig.log2) *
        2 ^ (exp + sig.log2 - (spec.precision + 2 : Nat) - e₂) = y * 2 ^ exp / 2 ^ e₂ := by
      rw [mul_assoc, ← two_zpow_add, div_eq_mul_inv, mul_assoc, ← zpow_neg, ← two_zpow_add]
      congr 2
      ring
    rwa [hval] at hs₂
  unfold roundExact
  rw [if_neg (by omega), htarget, halign, Option.bind_some]
  rw [i32_eq (by push_cast; omega), Option.bind_some, htogrid, Option.bind_some,
    show exp + (sig.log2 : Int) - ((spec.precision + 2 : Nat) : Int) +
        ((spec.precision + 2 : Nat) : Int)
      = Int.log 2 (y * 2 ^ exp) by rw [hlead]; ring]
  rw [roundGrid_settles hp hs₃ hulp (by rw [he₂]; push_cast; omega)]
  rfl

theorem roundExact_settles {sign : Bool} {exp : Int} {spec : Spec} {env : Env} {y : ℝ}
    (hspec : spec.Sane) (hs : Sticky sig y) (hpos : 0 < sig) (h128 : sig < 2 ^ 128)
    (hroom : y = sig ∨ 2 ^ (spec.precision + 2) ≤ sig) (hexp : -2 ^ 29 ≤ exp ∧ exp ≤ 2 ^ 29) :
    roundExact sign exp sig spec env = some (settle sign (y * 2 ^ exp) spec env) := by
  have hp := hspec.two_le_precision
  have hgrid := hspec.grid
  have hmin := hspec.minUlp_ge
  have hemax := hspec.emax_pos
  unfold Spec.emin at hgrid
  exact roundExact_settles_of_bounds ⟨by omega, hspec.precision_le⟩ ⟨by omega, by omega⟩ hs hpos h128
    hroom hexp

end Rsemu.Float
