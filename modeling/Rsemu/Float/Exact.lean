import Rsemu.Float.Arith
import Rsemu.Float.Flags

/-!
# Every operation rounds its exact result once

For finite operands each operation settles the real number it is named for: the sum, the
product, the quotient, the root or the product and the sum. What carries it is that every
intermediate significand stands for the exact value as a sticky integer, and keeps at
least two bits more than the precision whenever something was lost.
-/

namespace Rsemu.Float

open Rounding

attribute [local instance] atLeastTwo_two

/-! ## Values -/

noncomputable def Parts.value (p : Parts) : ℝ := signed p.sign (p.frac * 2 ^ p.exp)

/-- A zero or a finite number of one of the formats. -/
structure Parts.Numeric (p : Parts) : Prop where
  cls : (p.cls = .zero ∧ p.frac = 0) ∨ (p.cls = .finite ∧ 0 < p.frac)
  frac_lt : p.frac < 2 ^ 64
  exp_ge : -2 ^ 20 ≤ p.exp
  exp_le : p.exp ≤ 2 ^ 20

/-- A significand with its top bit at bit 63. -/
structure Parts.Normal (p : Parts) : Prop where
  frac_ge : 2 ^ 63 ≤ p.frac
  frac_lt : p.frac < 2 ^ 64
  exp_ge : -2 ^ 21 ≤ p.exp
  exp_le : p.exp ≤ 2 ^ 20

open Classical in
noncomputable def settleReal (zeroSign : Bool) (z : ℝ) (spec : Spec) (env : Env) : Outcome × Flags :=
  if z = 0 then (.num zeroSign .zero, .none) else settle (decide (z < 0)) |z| spec env

variable {sign zeroSign : Bool} {env : Env} {spec : Spec} {a b p : Parts}

theorem signed_neg_iff {x : ℝ} (hx : 0 < x) : signed sign x < 0 ↔ sign = true := by
  cases sign with
  | true => simpa [signed] using hx
  | false => simpa [signed] using hx.le

theorem abs_signed {x : ℝ} (hx : 0 < x) : |signed sign x| = x := by
  cases sign with
  | true => simp [signed, abs_of_pos hx]
  | false => simp [signed, abs_of_pos hx]

theorem signed_ne_zero {x : ℝ} (hx : 0 < x) : signed sign x ≠ 0 := by
  cases sign with
  | true => simpa [signed] using hx.ne'
  | false => simpa [signed] using hx.ne'

theorem signed_mul (sign : Bool) (x y : ℝ) : signed sign (x * y) = signed sign x * y := by
  cases sign <;> simp [signed]

theorem signed_not (sign : Bool) (x : ℝ) : signed (!sign) x = -signed sign x := by
  cases sign <;> simp [signed]

theorem settleReal_signed {x : ℝ} (hx : 0 < x) (spec : Spec) (env : Env) :
    settleReal zeroSign (signed sign x) spec env = settle sign x spec env := by
  unfold settleReal
  rw [if_neg (signed_ne_zero hx), abs_signed hx]
  congr 1
  apply Bool.eq_iff_iff.mpr
  rw [decide_eq_true_eq]
  exact signed_neg_iff hx

theorem settleReal_zero (zeroSign : Bool) (spec : Spec) (env : Env) :
    settleReal zeroSign 0 spec env = (.num zeroSign .zero, .none) := if_pos rfl

theorem roundExact_real {exp : Int} {sig : Nat} {y z : ℝ} (hspec : spec.Sane) (hs : Sticky sig y)
    (hpos : 0 < sig) (h128 : sig < 2 ^ 128) (hroom : y = sig ∨ 2 ^ (spec.precision + 2) ≤ sig)
    (hexp : -2 ^ 29 ≤ exp ∧ exp ≤ 2 ^ 29) (hz : z = signed sign (y * 2 ^ exp)) :
    roundExact sign exp sig spec env = some (settleReal zeroSign z spec env) := by
  have hy : 0 < y := by
    rcases hroom with h | h
    · rw [h]
      exact Nat.cast_pos.mpr hpos
    · have h4 : 4 ≤ sig := le_trans (Nat.pow_le_pow_right (n := 2) (by decide)
        (show 2 ≤ spec.precision + 2 by omega)) h
      rcases hs with hs | ⟨-, hlo, -⟩
      · rw [hs]
        exact Nat.cast_pos.mpr hpos
      · have : (4 : ℝ) ≤ sig := by exact_mod_cast h4
        linarith
  rw [roundExact_settles hspec hs hpos h128 hroom hexp, hz,
    settleReal_signed (mul_pos hy (two_zpow_pos exp))]

theorem roundExact_exact {exp : Int} {sig : Nat} {z : ℝ} (hspec : spec.Sane) (hpos : 0 < sig)
    (h128 : sig < 2 ^ 128) (hexp : -2 ^ 29 ≤ exp ∧ exp ≤ 2 ^ 29)
    (hz : z = signed sign (sig * 2 ^ exp)) :
    roundExact sign exp sig spec env = some (settleReal zeroSign z spec env) :=
  roundExact_real hspec (Sticky.exact sig) hpos h128 (Or.inl rfl) hexp hz

theorem room (hspec : spec.Sane) {sig : Nat} (h : 2 ^ 66 ≤ sig) : 2 ^ (spec.precision + 2) ≤ sig :=
  le_trans (Nat.pow_le_pow_right (by decide) (by have := hspec.precision_le; omega)) h

theorem normalized_spec (hp : p.Numeric) (hcls : p.cls = .finite) :
    ∃ q, p.normalized = some q ∧ q.Normal ∧ q.sign = p.sign ∧
      (q.frac : ℝ) * 2 ^ q.exp = p.frac * 2 ^ p.exp := by
  have hpos : 0 < p.frac := by
    rcases hp.cls with ⟨h, -⟩ | ⟨-, h⟩
    · cases h.symm.trans hcls
    · exact h
  have hlog : p.frac.log2 ≤ 63 := Nat.lt_succ_iff.mp ((Nat.log2_lt hpos.ne').mpr hp.frac_lt)
  have hlo : 2 ^ p.frac.log2 ≤ p.frac := Nat.log2_self_le hpos.ne'
  have hhi : p.frac < 2 ^ (p.frac.log2 + 1) := Nat.lt_log2_self
  obtain ⟨n, hn⟩ : ∃ n, p.frac.log2 + n = 63 := ⟨63 - p.frac.log2, by omega⟩
  have hge := hp.exp_ge
  have hle := hp.exp_le
  unfold Parts.normalized
  rw [if_pos ⟨hcls, hpos.ne'⟩]
  simp only [show 63 - p.frac.log2 = n by omega]
  rw [i32_eq (by omega), Option.map_some]
  refine ⟨_, rfl, ⟨?_, ?_, ?_, ?_⟩, rfl, ?_⟩
  · calc 2 ^ 63 = 2 ^ p.frac.log2 * 2 ^ n := by rw [← Nat.pow_add, hn]
      _ ≤ p.frac * 2 ^ n := Nat.mul_le_mul_right _ hlo
      _ = p.frac <<< n := (Nat.shiftLeft_eq ..).symm
  · calc p.frac <<< n = p.frac * 2 ^ n := Nat.shiftLeft_eq ..
      _ < 2 ^ (p.frac.log2 + 1) * 2 ^ n := Nat.mul_lt_mul_of_pos_right hhi (Nat.two_pow_pos n)
      _ = 2 ^ 64 := by rw [← Nat.pow_add, show p.frac.log2 + 1 + n = 64 by omega]
  · show -2 ^ 21 ≤ p.exp - n
    omega
  · show p.exp - n ≤ 2 ^ 20
    omega
  · show ((p.frac <<< n : Nat) : ℝ) * 2 ^ (p.exp - n) = _
    rw [Nat.shiftLeft_eq, sub_eq_add_neg, two_zpow_add, zpow_neg, zpow_natCast]
    push_cast
    field_simp

/-! ## Addition -/

def netSum (hs ls : Bool) (h s : Nat) : Bool × Nat :=
  if hs = ls then (hs, h + s) else if s ≤ h then (hs, h - s) else (ls, s - h)

theorem netSum_spec (hs ls : Bool) {h s : Nat} {y : ℝ} (heven : h % 2 = 0)
    (hsticky : Sticky s y) :
    ∃ v, Sticky (netSum hs ls h s).2 v ∧
      signed hs h + signed ls y = signed (netSum hs ls h s).1 v ∧
      (y = s → v = (netSum hs ls h s).2) ∧ (s ≤ h → h - s ≤ (netSum hs ls h s).2) := by
  unfold netSum
  by_cases hsign : hs = ls
  · rw [if_pos hsign]
    refine ⟨h + y, hsticky.add_even heven, ?_, ?_, fun _ => by simp only; omega⟩
    · subst hsign
      cases hs with
      | true =>
        simp only [signed, if_true]
        ring
      | false => simp only [signed, Bool.false_eq_true, if_false]
    · intro hy
      rw [hy]
      push_cast
      rfl
  · have hopp : ls = !hs := by cases hs <;> cases ls <;> simp_all
    rw [if_neg hsign]
    by_cases hle : s ≤ h
    · rw [if_pos hle]
      refine ⟨h - y, hsticky.even_sub heven hle, ?_, ?_, fun _ => le_refl _⟩
      · simp only [hopp, signed_not]
        cases hs <;> simp only [signed, if_true, Bool.false_eq_true, if_false] <;> ring
      · intro hy
        rw [hy, Nat.cast_sub hle]
    · rw [if_neg hle]
      refine ⟨y - h, hsticky.sub_even heven (by omega), ?_, ?_, fun h' => absurd h' hle⟩
      · simp only [hopp, signed_not]
        cases hs <;> simp only [signed, if_true, Bool.false_eq_true, if_false] <;> ring
      · intro hy
        rw [hy, Nat.cast_sub (by omega)]

theorem netSum_le (hs ls : Bool) (h s : Nat) : (netSum hs ls h s).2 ≤ h + s := by
  unfold netSum
  split
  · exact le_refl _
  · split
    · omega
    · omega

theorem netSum_comm (hs ls : Bool) (h s : Nat) :
    (netSum hs ls h s).2 = (netSum ls hs s h).2 ∧
      ((netSum hs ls h s).2 ≠ 0 → (netSum hs ls h s).1 = (netSum ls hs s h).1) := by
  unfold netSum
  by_cases hsign : hs = ls
  · rw [if_pos hsign, if_pos hsign.symm]
    exact ⟨Nat.add_comm _ _, fun _ => hsign⟩
  · rw [if_neg hsign, if_neg (Ne.symm hsign)]
    by_cases h1 : s ≤ h <;> by_cases h2 : h ≤ s
    · rw [if_pos h1, if_pos h2]
      exact ⟨by simp only; omega, fun hne => absurd (show h - s = 0 by omega) hne⟩
    · rw [if_pos h1, if_neg h2]
      exact ⟨rfl, fun _ => rfl⟩
    · rw [if_neg h1, if_pos h2]
      exact ⟨rfl, fun _ => rfl⟩
    · omega

theorem combine_eq (hs ls : Bool) {h s : Nat} (hfit : h + s < 2 ^ 128) :
    combine hs ls h s = some (netSum hs ls h s) := by
  unfold combine netSum
  rw [u128_eq hfit]
  split
  · rfl
  · split <;> rfl

theorem jam_exact {v n k : Nat} (h : n ≤ k) : ((jam (v * 2 ^ k) n : Nat) : ℝ) = v * 2 ^ k / 2 ^ n := by
  obtain ⟨i, rfl⟩ : ∃ i, k = i + n := ⟨k - n, by omega⟩
  have hmul : v * 2 ^ (i + n) = v * 2 ^ i * 2 ^ n := by rw [Nat.pow_add, Nat.mul_assoc]
  unfold jam
  rw [hmul, Nat.mul_mod_left, if_pos rfl, Nat.mul_div_cancel _ (Nat.two_pow_pos n), pow_add]
  push_cast
  field_simp

theorem jam_lt {v n b : Nat} (h : v < 2 ^ (b + n)) : jam v n ≤ 2 ^ b := by
  have hdiv : v / 2 ^ n < 2 ^ b := by
    rw [Nat.div_lt_iff_lt_mul (Nat.two_pow_pos n), ← Nat.pow_add]
    exact h
  unfold jam
  split
  · exact hdiv.le
  · rw [or_one]
    omega

theorem aligned_value {hi lo : Parts} {H L d : Nat} {v : ℝ} (hH : H = hi.frac <<< slack)
    (hL : L = lo.frac <<< slack) (hd : hi.exp - lo.exp = d)
    (hsum : signed hi.sign (H : ℝ) + signed lo.sign ((L : ℝ) / 2 ^ d) = signed sign v) :
    hi.value + lo.value = signed sign (v * 2 ^ (hi.exp - slack)) := by
  have hs62 : (2 : ℝ) ^ hi.exp = 2 ^ slack * 2 ^ (hi.exp - (slack : Nat)) := by
    rw [← zpow_natCast, ← two_zpow_add]
    congr 1
    omega
  have hdpow : (2 : ℝ) ^ hi.exp = 2 ^ lo.exp * 2 ^ d := by
    rw [← zpow_natCast, ← two_zpow_add]
    congr 1
    omega
  have hd0 : (2 : ℝ) ^ d ≠ 0 := by positivity
  have h1 : (hi.frac : ℝ) * 2 ^ hi.exp = H * 2 ^ (hi.exp - (slack : Nat)) := by
    rw [hH, Nat.shiftLeft_eq, hs62]
    push_cast
    ring
  have h2 : (lo.frac : ℝ) * 2 ^ lo.exp = L / 2 ^ d * 2 ^ (hi.exp - (slack : Nat)) := by
    rw [hL, Nat.shiftLeft_eq]
    push_cast
    rw [div_mul_eq_mul_div, eq_div_iff hd0, mul_assoc, ← hdpow, hs62]
    ring
  unfold Parts.value
  rw [h1, h2, signed_mul, signed_mul, ← add_mul, hsum, ← signed_mul]

theorem addAligned_real {hi lo : Parts} (hspec : spec.Sane) (hhi : hi.Normal) (hlo : lo.Normal)
    (hexp : lo.exp ≤ hi.exp) (hzero : hi.value + lo.value = 0 → zeroSign = cancelledSign env) :
    addAligned hi lo spec env = some (settleReal zeroSign (hi.value + lo.value) spec env) := by
  have h1 := hhi.frac_ge
  have h2 := hhi.frac_lt
  have h4 := hlo.frac_lt
  have h6 := hhi.exp_le
  have h7 := hlo.exp_ge
  obtain ⟨d, hd⟩ : ∃ d : Nat, hi.exp - lo.exp = d := ⟨(hi.exp - lo.exp).toNat, by omega⟩
  obtain ⟨H, hH⟩ : ∃ H, H = hi.frac <<< slack := ⟨_, rfl⟩
  obtain ⟨L, hL⟩ : ∃ L, L = lo.frac <<< slack := ⟨_, rfl⟩
  have hHmul : H = hi.frac * 2 ^ 62 := hH.trans (Nat.shiftLeft_eq ..)
  have hLmul : L = lo.frac * 2 ^ 62 := hL.trans (Nat.shiftLeft_eq ..)
  have hL128 : L < 2 ^ 128 := by omega
  have hjam : jam L d ≤ L := jam_le _ _
  obtain ⟨v, hsv, hsum, hexact, hbig⟩ := netSum_spec hi.sign lo.sign (h := H)
    (by omega) ((Sticky.exact L).jam d)
  have hle := netSum_le hi.sign lo.sign H (jam L d)
  have hcomb := combine_eq hi.sign lo.sign (show H + jam L d < 2 ^ 128 by omega)
  obtain ⟨⟨sign, sig⟩, hr⟩ : ∃ r, r = netSum hi.sign lo.sign H (jam L d) := ⟨_, rfl⟩
  rw [← hr] at hsv hsum hexact hbig hle hcomb
  have h128 : sig < 2 ^ 128 := by omega
  have hslack : ((slack : Nat) : Int) = 62 := rfl
  have hvalue := aligned_value hH hL hd hsum
  unfold addAligned
  rw [← hH, ← hL, u128_eq (by omega), Option.bind_some, u128_eq hL128, Option.bind_some,
    i32_eq (by omega), Option.bind_some, hd, Int.toNat_natCast, shrSticky_eq hL128, hcomb,
    Option.bind_some]
  by_cases hsig : sig = 0
  · have hv : v = 0 := by
      have := (hsv.eq_iff (m := 0) rfl).mpr hsig
      simpa using this
    have hz : hi.value + lo.value = 0 := by
      rw [hvalue, hv, zero_mul]
      cases sign <;> simp [signed]
    rw [if_pos hsig, hz, settleReal_zero, hzero hz]
  · have hroom : v = sig ∨ 2 ^ (spec.precision + 2) ≤ sig := by
      by_cases hshort : d ≤ 62
      · exact Or.inl (hexact (by rw [hLmul, jam_exact hshort]; norm_num))
      · -- a long shift: the smaller operand is far below the larger one
        have hL126 : L < 2 ^ (63 + d) :=
          lt_of_lt_of_le (show L < 2 ^ 126 by omega) (Nat.pow_le_pow_right (by decide) (by omega))
        have hsmall : jam L d ≤ 2 ^ 63 := jam_lt hL126
        exact Or.inr (room hspec (by omega))
    rw [if_neg hsig, i32_eq (by omega), Option.bind_some]
    exact roundExact_real hspec hsv (Nat.pos_of_ne_zero hsig) h128 hroom (by omega) hvalue

theorem Parts.Numeric.cases (hp : p.Numeric) :
    (p.cls = .zero ∧ p.value = 0) ∨ (p.cls = .finite ∧ p.value ≠ 0) := by
  rcases hp.cls with ⟨h, hf⟩ | ⟨h, hf⟩
  · refine Or.inl ⟨h, ?_⟩
    unfold Parts.value
    rw [hf, Nat.cast_zero, zero_mul]
    cases p.sign <;> simp [signed]
  · exact Or.inr ⟨h, signed_ne_zero (mul_pos (Nat.cast_pos.mpr hf) (two_zpow_pos _))⟩

theorem nanResult_none {ops : List Parts} (h : ∀ p ∈ ops, p.cls ≠ .nan) (env : Env) :
    nanResult ops env = none := by
  unfold nanResult
  rw [if_neg]
  intro hany
  obtain ⟨p, hp, hn⟩ := List.any_eq_true.mp hany
  exact h p hp (by simpa using hn)

theorem Parts.Numeric.not_nan (hp : p.Numeric) : p.cls ≠ .nan := by
  rcases hp.cls with ⟨h, -⟩ | ⟨h, -⟩ <;> rw [h] <;> decide

theorem roundExact_parts (hspec : spec.Sane) (hp : p.Numeric) (hcls : p.cls = .finite) :
    roundExact p.sign p.exp p.frac spec env = some (settleReal zeroSign p.value spec env) := by
  have h1 := hp.exp_ge
  have h2 := hp.exp_le
  have h3 := hp.frac_lt
  have hpos : 0 < p.frac := by
    rcases hp.cls with ⟨h, -⟩ | ⟨-, h⟩
    · cases h.symm.trans hcls
    · exact h
  exact roundExact_exact hspec hpos (by omega) (by omega) rfl

def Parts.negateIf (p : Parts) (negate : Bool) : Parts :=
  if negate then { p with sign := !p.sign } else p

theorem Parts.Numeric.negateIf (hp : p.Numeric) (negate : Bool) : (p.negateIf negate).Numeric := by
  cases negate with
  | true => exact ⟨hp.cls, hp.frac_lt, hp.exp_ge, hp.exp_le⟩
  | false => exact hp

theorem value_negateIf (p : Parts) (negate : Bool) :
    (p.negateIf negate).value = if negate then -p.value else p.value := by
  cases negate with
  | true => exact signed_not _ _
  | false => rfl

def sumZeroSign (a b : Bool) (env : Env) : Bool := if a = b then a else cancelledSign env

theorem sign_ne_of_sum_zero {s t : Bool} {x y : ℝ} (hx : 0 < x) (hy : 0 < y)
    (h : signed s x + signed t y = 0) : s ≠ t := by
  rintro rfl
  cases s <;> simp only [signed, if_true, Bool.false_eq_true, if_false] at h <;> linarith

theorem addFinite_real (hspec : spec.Sane) (ha : a.Numeric) (hb : b.Numeric) (hac : a.cls = .finite)
    (hbc : b.cls = .finite) :
    addFinite a b spec env =
      some (settleReal (sumZeroSign a.sign b.sign env) (a.value + b.value) spec env) := by
  obtain ⟨a', ha', han, has, hav⟩ := normalized_spec ha hac
  obtain ⟨b', hb', hbn, hbs, hbv⟩ := normalized_spec hb hbc
  have hva : a'.value = a.value := by rw [Parts.value, hav, has]; rfl
  have hvb : b'.value = b.value := by rw [Parts.value, hbv, hbs]; rfl
  have hzero : a.value + b.value = 0 → sumZeroSign a.sign b.sign env = cancelledSign env := by
    intro h
    have hapos : 0 < (a'.frac : ℝ) * 2 ^ a'.exp :=
      mul_pos (Nat.cast_pos.mpr (lt_of_lt_of_le (by decide) han.frac_ge)) (two_zpow_pos _)
    have hbpos : 0 < (b'.frac : ℝ) * 2 ^ b'.exp :=
      mul_pos (Nat.cast_pos.mpr (lt_of_lt_of_le (by decide) hbn.frac_ge)) (two_zpow_pos _)
    rw [← hva, ← hvb] at h
    have := sign_ne_of_sum_zero hapos hbpos h
    rw [has, hbs] at this
    exact if_neg this
  unfold addFinite
  rw [ha', Option.bind_some, hb', Option.bind_some]
  by_cases hexp : b'.exp ≤ a'.exp
  · rw [if_pos hexp, addAligned_real hspec han hbn hexp (by rw [hva, hvb]; exact hzero), hva, hvb]
  · rw [if_neg hexp, addAligned_real hspec hbn han (by omega)
      (by rw [hva, hvb, add_comm]; exact hzero), hva, hvb, add_comm]

theorem add_real {negate : Bool} (hspec : spec.Sane) (ha : a.Numeric) (hb : b.Numeric) :
    add a b negate spec env =
      some (settleReal (sumZeroSign a.sign (b.negateIf negate).sign env)
        (a.value + (b.negateIf negate).value) spec env) := by
  have hb' := hb.negateIf negate
  unfold add
  rw [show (if negate then { b with sign := !b.sign } else b) = b.negateIf negate from rfl]
  generalize b.negateIf negate = c at hb'
  simp only
  rw [nanResult_none (by simp [ha.not_nan, hb'.not_nan])]
  rcases ha.cases with ⟨hac, hav⟩ | ⟨hac, -⟩ <;> rcases hb'.cases with ⟨hcc, hcv⟩ | ⟨hcc, -⟩
  · simp only [hac, hcc]
    rw [hav, hcv, add_zero, settleReal_zero]
    rfl
  · simp only [hac, hcc]
    rw [hav, zero_add]
    exact roundExact_parts hspec hb' hcc
  · simp only [hac, hcc]
    rw [hcv, add_zero]
    exact roundExact_parts hspec ha hac
  · simp only [hac, hcc]
    exact addFinite_real hspec ha hb' hac hcc

/-! ## Multiplication -/

theorem signed_xor (s t : Bool) (x y : ℝ) : signed (s ^^ t) (x * y) = signed s x * signed t y := by
  cases s <;> cases t <;> simp [signed]

theorem value_mul (a b : Parts) :
    a.value * b.value = signed (a.sign ^^ b.sign) ((a.frac * b.frac : Nat) * 2 ^ (a.exp + b.exp)) := by
  unfold Parts.value
  rw [← signed_xor, two_zpow_add]
  congr 1
  push_cast
  ring

theorem mul_lt_128 {a b : Nat} (ha : a < 2 ^ 64) (hb : b < 2 ^ 64) : a * b < 2 ^ 128 := by
  have := Nat.mul_lt_mul'' ha hb
  rwa [← Nat.pow_add] at this

theorem Parts.Numeric.frac_pos (hp : p.Numeric) (hcls : p.cls = .finite) : 0 < p.frac := by
  rcases hp.cls with ⟨h, -⟩ | ⟨-, h⟩
  · cases h.symm.trans hcls
  · exact h

theorem mulFinite_real (hspec : spec.Sane) (ha : a.Numeric) (hb : b.Numeric) (hac : a.cls = .finite)
    (hbc : b.cls = .finite) (zeroSign : Bool) :
    mulFinite a b spec env = some (settleReal zeroSign (a.value * b.value) spec env) := by
  have h1 := ha.exp_ge
  have h2 := ha.exp_le
  have h3 := hb.exp_ge
  have h4 := hb.exp_le
  have h128 := mul_lt_128 ha.frac_lt hb.frac_lt
  have hpos : 0 < a.frac * b.frac := Nat.mul_pos (ha.frac_pos hac) (hb.frac_pos hbc)
  unfold mulFinite
  rw [u128_eq h128, Option.bind_some, i32_eq (by omega), Option.bind_some]
  exact roundExact_exact hspec hpos h128 (by omega) (value_mul a b)

theorem mul_real (hspec : spec.Sane) (ha : a.Numeric) (hb : b.Numeric) :
    mul a b spec env = some (settleReal (a.sign ^^ b.sign) (a.value * b.value) spec env) := by
  unfold mul
  rw [nanResult_none (by simp [ha.not_nan, hb.not_nan])]
  rcases ha.cases with ⟨hac, hav⟩ | ⟨hac, -⟩ <;> rcases hb.cases with ⟨hbc, hbv⟩ | ⟨hbc, -⟩
  · simp only [hac, hbc]
    rw [hav, zero_mul, settleReal_zero]
  · simp only [hac, hbc]
    rw [hav, zero_mul, settleReal_zero]
  · simp only [hac, hbc]
    rw [hbv, mul_zero, settleReal_zero]
  · simp only [hac, hbc]
    exact mulFinite_real hspec ha hb hac hbc _

/-! ## Division -/

theorem sticky_div (n : Nat) {d : Nat} (hd : 0 < d) :
    Sticky (if n % d ≠ 0 then n / d ||| 1 else n / d) ((n : ℝ) / d) := by
  have hdR : (0 : ℝ) < d := Nat.cast_pos.mpr hd
  have hdiv := Nat.div_add_mod n d
  have hmod := Nat.mod_lt n hd
  split
  · refine sticky_between ?_ ?_
    · rw [lt_div_iff₀ hdR]
      have : n / d * d < n := by rw [Nat.mul_comm]; omega
      exact_mod_cast this
    · rw [div_lt_iff₀ hdR]
      have : n < (n / d + 1) * d := by rw [Nat.add_mul, Nat.mul_comm]; omega
      exact_mod_cast this
  · refine Or.inl ?_
    rw [div_eq_iff hdR.ne']
    have : n = n / d * d := by rw [Nat.mul_comm]; omega
    exact_mod_cast this

theorem quotient_spec {num den : Nat} (hn : 2 ^ 63 ≤ num ∧ num < 2 ^ 64)
    (hd : 2 ^ 63 ≤ den ∧ den < 2 ^ 64) :
    ∃ q, quotient num den = some q ∧ 2 ^ 66 ≤ q ∧ q < 2 ^ 128 ∧
      Sticky q ((num : ℝ) * 2 ^ 71 / den) := by
  have hdpos : 0 < den := by omega
  obtain ⟨n1, hn1⟩ : ∃ n1, n1 = num <<< 63 := ⟨_, rfl⟩
  have hn1mul : n1 = num * 2 ^ 63 := hn1.trans (Nat.shiftLeft_eq ..)
  have hr1 := Nat.mod_lt n1 hdpos
  have hq1 : n1 / den < 2 ^ 64 := by
    rw [Nat.div_lt_iff_lt_mul hdpos]
    omega
  have hq1' : 2 ^ 62 ≤ n1 / den := by
    rw [Nat.le_div_iff_mul_le hdpos]
    omega
  obtain ⟨n2, hn2⟩ : ∃ n2, n2 = (n1 % den) <<< 8 := ⟨_, rfl⟩
  have hn2mul : n2 = n1 % den * 2 ^ 8 := hn2.trans (Nat.shiftLeft_eq ..)
  obtain ⟨q2, hq2def⟩ : ∃ q2, q2 = n2 / den := ⟨_, rfl⟩
  have hq2 : q2 < 2 ^ 8 := by
    rw [hq2def, Nat.div_lt_iff_lt_mul hdpos]
    omega
  obtain ⟨q1, hq⟩ : ∃ q1, q1 = (n1 / den) <<< 8 := ⟨_, rfl⟩
  -- the two quotients are the digits of one
  have hsplit : n1 * 2 ^ 8 = den * (n1 / den * 2 ^ 8) + n2 := by
    have := Nat.div_add_mod n1 den
    rw [hn2mul, ← Nat.mul_assoc, ← Nat.add_mul, this]
  have hdiv : n1 * 2 ^ 8 / den = q1 ||| q2 := by
    rw [hsplit, Nat.mul_add_div hdpos, hq, ← Nat.shiftLeft_add_eq_or_of_lt hq2, Nat.shiftLeft_eq,
      hq2def]
  have hmod : n1 * 2 ^ 8 % den = n2 % den := by
    rw [hsplit, Nat.mul_add_mod]
  have hsticky := sticky_div (n1 * 2 ^ 8) hdpos
  rw [hdiv, hmod] at hsticky
  have hor : q1 ||| q2 = q1 + q2 := by
    rw [hq, ← Nat.shiftLeft_add_eq_or_of_lt hq2]
  refine ⟨if n2 % den ≠ 0 then (q1 ||| q2) ||| 1 else q1 ||| q2, ?_, ?_, ?_, ?_⟩
  · unfold quotient
    rw [← hn1, u128_eq (by omega), Option.bind_some, ← hn2, u128_eq (by omega), Option.bind_some,
      ← hq, u128_eq (by omega), Option.map_some, hq2def]
  · rw [or_one, hor]
    split <;> omega
  · rw [or_one, hor]
    split <;> omega
  · have hval : ((n1 * 2 ^ 8 : Nat) : ℝ) / den = (num : ℝ) * 2 ^ 71 / den := by
      rw [hn1mul]
      push_cast
      ring
    rwa [hval] at hsticky

theorem signed_div (s t : Bool) (x y : ℝ) : signed (s ^^ t) (x / y) = signed s x / signed t y := by
  cases s <;> cases t <;> simp [signed, neg_div, div_neg]

theorem quotient_value (x : ℝ) {y : ℝ} (hy : y ≠ 0) (d e : Int) (n : Nat) :
    x * 2 ^ n / y * 2 ^ (d - e - n) = (x * 2 ^ d) / (y * 2 ^ e) := by
  have hpow : (2 : ℝ) ^ d = 2 ^ (d - e - n) * 2 ^ e * 2 ^ n := by
    rw [← zpow_natCast, ← two_zpow_add, ← two_zpow_add]
    congr 1
    ring
  rw [hpow]
  field_simp

theorem divFinite_real (hspec : spec.Sane) (ha : a.Numeric) (hb : b.Numeric) (hac : a.cls = .finite)
    (hbc : b.cls = .finite) (zeroSign : Bool) :
    divFinite a b spec env = some (settleReal zeroSign (a.value / b.value) spec env) := by
  obtain ⟨a', ha', han, has, hav⟩ := normalized_spec ha hac
  obtain ⟨b', hb', hbn, hbs, hbv⟩ := normalized_spec hb hbc
  have h1 := han.exp_ge
  have h2 := han.exp_le
  have h3 := hbn.exp_ge
  have h4 := hbn.exp_le
  obtain ⟨q, hq, hge, h128, hsticky⟩ :=
    quotient_spec ⟨han.frac_ge, han.frac_lt⟩ ⟨hbn.frac_ge, hbn.frac_lt⟩
  have hbpos : (0 : ℝ) < b'.frac := Nat.cast_pos.mpr (lt_of_lt_of_le (by decide) hbn.frac_ge)
  have hvalue : a.value / b.value =
      signed (a'.sign ^^ b'.sign) ((a'.frac : ℝ) * 2 ^ 71 / b'.frac * 2 ^ (a'.exp - b'.exp - 71)) := by
    have hmag := quotient_value (a'.frac : ℝ) hbpos.ne' a'.exp b'.exp 71
    rw [Nat.cast_ofNat] at hmag
    rw [hmag, signed_div, hav, hbv, has, hbs]
    rfl
  unfold divFinite
  rw [ha', Option.bind_some, hb', Option.bind_some, hq, Option.bind_some, i32_eq (by omega),
    Option.bind_some, i32_eq (by omega), Option.bind_some]
  exact roundExact_real hspec hsticky (by omega) h128 (Or.inr (room hspec hge)) (by omega) hvalue

theorem div_real (hspec : spec.Sane) (ha : a.Numeric) (hb : b.Numeric) (hne : b.value ≠ 0) :
    div a b spec env = some (settleReal (a.sign ^^ b.sign) (a.value / b.value) spec env) := by
  have hbc : b.cls = .finite := by
    rcases hb.cases with ⟨-, h⟩ | ⟨h, -⟩
    · exact absurd h hne
    · exact h
  unfold div
  rw [nanResult_none (by simp [ha.not_nan, hb.not_nan])]
  rcases ha.cases with ⟨hac, hav⟩ | ⟨hac, -⟩
  · simp only [hac, hbc]
    rw [hav, zero_div, settleReal_zero]
  · simp only [hac, hbc]
    exact divFinite_real hspec ha hb hac hbc _

/-! ## Square root -/

/-- The root of the bits of the radicand seen so far, and what is left of them. -/
structure RootOf (n : Nat) (s : Nat × Nat) : Prop where
  eq : n = s.2 * s.2 + s.1
  rem_le : s.1 ≤ 2 * s.2

theorem isqrtStep_spec (pair : Nat) {n : Nat} {s : Nat × Nat} (h : RootOf n s) (hpair : pair < 4)
    (hroot : s.2 < 2 ^ 100) :
    ∃ s', isqrtStep s pair = some s' ∧ RootOf (4 * n + pair) s' ∧ s'.2 ≤ 2 * s.2 + 1 := by
  obtain ⟨rem, root⟩ := s
  obtain ⟨heq, hle⟩ := h
  simp only at heq hle hroot
  have hrem : rem <<< 2 ||| pair = 4 * rem + pair := by
    rw [← Nat.shiftLeft_add_eq_or_of_lt (i := 2) hpair, Nat.shiftLeft_eq]
    omega
  have hroot1 : root <<< 1 = 2 * root := by
    omega
  have htrial : (2 * root) <<< 1 ||| 1 = 4 * root + 1 := by
    rw [or_one, Nat.shiftLeft_eq]
    omega
  have hodd : 2 * root ||| 1 = 2 * root + 1 := by
    rw [or_one]
    omega
  have hrem128 : rem <<< 2 < 2 ^ 128 := by
    omega
  have htrial128 : (2 * root) <<< 1 < 2 ^ 128 := by
    omega
  unfold isqrtStep
  rw [u128_eq hrem128, Option.bind_some, hroot1, u128_eq (by omega), Option.bind_some,
    u128_eq htrial128, Option.map_some]
  simp only [hrem, htrial, hodd]
  by_cases hfit : 4 * root + 1 ≤ 4 * rem + pair
  · rw [if_pos hfit]
    refine ⟨_, rfl, ⟨?_, ?_⟩, le_refl _⟩
    · rw [heq, show (2 * root + 1) * (2 * root + 1) = 4 * (root * root) + (4 * root + 1) by ring]
      omega
    · omega
  · rw [if_neg hfit]
    refine ⟨_, rfl, ⟨?_, ?_⟩, by simp⟩
    · rw [heq, show 2 * root * (2 * root) = 4 * (root * root) by ring]
      omega
    · omega

theorem RootOf.root_lt {n b : Nat} {s : Nat × Nat} (h : RootOf n s) (hn : n < 2 ^ (2 * b)) :
    s.2 < 2 ^ b := by
  by_contra hge
  have h1 := Nat.mul_le_mul (not_lt.mp hge) (not_lt.mp hge)
  have h2 := h.eq
  rw [← Nat.pow_add, ← Nat.two_mul] at h1
  omega

theorem isqrtPairs_spec {r : Nat} (hr : r < 2 ^ 128) : ∀ (n : Nat) (s : Nat × Nat),
    RootOf (r / 4 ^ (n + 1)) s → ∃ s', isqrtPairs r n s = some s' ∧ RootOf r s' := by
  have hand : ∀ k, r >>> (2 * k) &&& 3 = r / 4 ^ k % 4 := by
    intro k
    rw [show 3 = 2 ^ 2 - 1 from rfl, Nat.and_two_pow_sub_one_eq_mod, Nat.shiftRight_eq_div_pow,
      Nat.pow_mul]
  have hnext : ∀ k, 4 * (r / 4 ^ (k + 1)) + r / 4 ^ k % 4 = r / 4 ^ k := by
    intro k
    rw [Nat.pow_succ, ← Nat.div_div_eq_div_mul]
    omega
  have hbound : ∀ k s, RootOf (r / 4 ^ k) s → s.2 < 2 ^ 100 := by
    intro k s h
    refine h.root_lt (lt_of_le_of_lt (Nat.div_le_self _ _) (lt_trans hr ?_))
    exact Nat.pow_lt_pow_right (by decide) (by decide)
  intro n
  induction n with
  | zero =>
    intro s h
    obtain ⟨s', hs', hroot, -⟩ := isqrtStep_spec (r / 4 ^ 0 % 4) h (by omega) (hbound _ _ h)
    rw [hnext, Nat.pow_zero, Nat.div_one] at hroot
    refine ⟨s', ?_, hroot⟩
    rw [isqrtPairs, ← hs', ← hand 0]
    rfl
  | succ n ih =>
    intro s h
    obtain ⟨s', hs', hroot, -⟩ :=
      isqrtStep_spec (r / 4 ^ (n + 1) % 4) h (by omega) (hbound _ _ h)
    rw [hnext] at hroot
    obtain ⟨s'', hs'', hroot'⟩ := ih s' hroot
    refine ⟨s'', ?_, hroot'⟩
    rw [isqrtPairs, hand, hs', Option.bind_some, hs'']

theorem isqrtExtra_spec : ∀ (k n : Nat) (s : Nat × Nat), RootOf n s → n * 4 ^ k < 2 ^ 200 →
    ∃ s', isqrtExtra k s = some s' ∧ RootOf (n * 4 ^ k) s' := by
  intro k
  induction k with
  | zero =>
    intro n s h _
    exact ⟨s, rfl, by rwa [Nat.pow_zero, Nat.mul_one]⟩
  | succ k ih =>
    intro n s h hn
    have hle : n ≤ n * 4 ^ (k + 1) := Nat.le_mul_of_pos_right _ (Nat.pow_pos (by decide))
    obtain ⟨s', hs', hroot, -⟩ :=
      isqrtStep_spec 0 h (by decide) (h.root_lt (lt_of_le_of_lt hle hn))
    have hmul : n * 4 ^ (k + 1) = (4 * n + 0) * 4 ^ k := by
      ring
    rw [hmul] at hn ⊢
    obtain ⟨s'', hs'', hroot'⟩ := ih (4 * n + 0) s' hroot hn
    exact ⟨s'', by rw [isqrtExtra, hs', Option.bind_some, hs''], hroot'⟩

theorem isqrt_spec {r : Nat} (hpos : 0 < r) (hr : r < 2 ^ 65) :
    ∃ root rem, isqrt r extraPairs = some (root, rem != 0) ∧ RootOf (r * 4 ^ 40) (rem, root) := by
  have hstart : RootOf (r / 4 ^ (r.log2 / 2 + 1)) (0, 0) := by
    have hlt : r < 4 ^ (r.log2 / 2 + 1) := by
      calc r < 2 ^ (r.log2 + 1) := Nat.lt_log2_self
        _ ≤ 2 ^ (2 * (r.log2 / 2 + 1)) := Nat.pow_le_pow_right (by decide) (by omega)
        _ = 4 ^ (r.log2 / 2 + 1) := by rw [Nat.pow_mul]
    rw [Nat.div_eq_of_lt hlt]
    exact ⟨rfl, Nat.zero_le _⟩
  obtain ⟨s, hs, hroot⟩ := isqrtPairs_spec (lt_trans hr (by decide)) _ _ hstart
  have hbig : r * 4 ^ 40 < 2 ^ 200 :=
    calc r * 4 ^ 40 < 2 ^ 65 * 4 ^ 40 := Nat.mul_lt_mul_of_pos_right hr (by decide)
      _ < 2 ^ 200 := by decide
  obtain ⟨s', hs', hroot'⟩ := isqrtExtra_spec 40 r s hroot hbig
  refine ⟨s'.2, s'.1, ?_, hroot'⟩
  unfold isqrt
  rw [if_neg (by omega), hs, Option.bind_some, show extraPairs = 40 from rfl, hs', Option.map_some]

theorem sticky_sqrt {n rem root : Nat} (h : RootOf n (rem, root)) :
    Sticky (if rem != 0 then root ||| 1 else root) (Real.sqrt n) := by
  have heq : (n : ℝ) = root * root + rem := by exact_mod_cast h.eq
  have hroot : (0 : ℝ) ≤ root := Nat.cast_nonneg _
  split
  · rename_i hrem
    have hpos : (0 : ℝ) < rem := Nat.cast_pos.mpr (Nat.pos_of_ne_zero (by simpa using hrem))
    have hle : (rem : ℝ) ≤ 2 * root := by exact_mod_cast h.rem_le
    refine sticky_between ?_ ?_
    · rw [Real.lt_sqrt hroot, heq]
      nlinarith
    · rw [Real.sqrt_lt' (by linarith), heq]
      nlinarith
  · rename_i hrem
    have hzero : rem = 0 := by simpa using hrem
    refine Or.inl ?_
    rw [heq, hzero, Nat.cast_zero, add_zero, Real.sqrt_mul_self hroot]

theorem sqrt_value (r : ℝ) (hr : 0 ≤ r) (e : Int) (k : Nat) :
    Real.sqrt (r * 4 ^ k) * 2 ^ (e - k) = Real.sqrt (r * 2 ^ (2 * e)) := by
  have h4 : (4 : ℝ) ^ k = (2 ^ k) ^ 2 := by
    rw [← pow_mul, Nat.mul_comm, pow_mul]
    norm_num
  have h2 : (2 : ℝ) ^ (2 * e) = (2 ^ e) ^ 2 := by
    rw [Int.mul_comm, zpow_mul]
    norm_cast
  have hsplit : (2 : ℝ) ^ e = 2 ^ k * 2 ^ (e - k) := by
    rw [← zpow_natCast, ← two_zpow_add]
    congr 1
    ring
  rw [h4, h2, Real.sqrt_mul hr, Real.sqrt_mul hr, Real.sqrt_sq (by positivity),
    Real.sqrt_sq (two_zpow_pos e).le, hsplit, mul_assoc]

theorem evenExp_spec {frac : Nat} {exp : Int} (hf : 2 ^ 63 ≤ frac ∧ frac < 2 ^ 64)
    (he : -2 ^ 21 ≤ exp ∧ exp ≤ 2 ^ 20) :
    ∃ r e, evenExp frac exp = some (r, 2 * e) ∧ 2 ^ 63 ≤ r ∧ r < 2 ^ 65 ∧
      (-2 ^ 21 ≤ e ∧ e ≤ 2 ^ 20) ∧ (r : ℝ) * 2 ^ (2 * e) = frac * 2 ^ exp := by
  unfold evenExp
  by_cases hodd : exp % 2 ≠ 0
  · obtain ⟨e, hexp⟩ : ∃ e, exp = 2 * e + 1 := ⟨exp / 2, by omega⟩
    have hshift : frac <<< 1 = 2 * frac := by
      omega
    rw [if_pos hodd, hshift, u128_eq (by omega), Option.bind_some, i32_eq (by omega),
      Option.map_some]
    refine ⟨2 * frac, e, ?_, by omega, by omega, by omega, ?_⟩
    · congr 2
      omega
    · rw [hexp, two_zpow_add]
      push_cast
      ring
  · obtain ⟨e, rfl⟩ : ∃ e, exp = 2 * e := ⟨exp / 2, by omega⟩
    rw [if_neg hodd]
    exact ⟨frac, e, rfl, hf.1, by omega, by omega, rfl⟩

theorem sqrtFinite_real (hspec : spec.Sane) (ha : a.Numeric) (hac : a.cls = .finite)
    (hsign : a.sign = false) (zeroSign : Bool) :
    sqrtFinite a spec env = some (settleReal zeroSign (Real.sqrt a.value) spec env) := by
  obtain ⟨a', ha', han, has, hav⟩ := normalized_spec ha hac
  obtain ⟨r, e, heven, hrge, hrlt, hebound, hrval⟩ :=
    evenExp_spec ⟨han.frac_ge, han.frac_lt⟩ ⟨han.exp_ge, han.exp_le⟩
  obtain ⟨root, rem, hisqrt, hroot⟩ := isqrt_spec (r := r) (by omega) hrlt
  have hsticky := sticky_sqrt hroot
  have hrootlt : root < 2 ^ 73 := hroot.root_lt (by
    calc r * 4 ^ 40 < 2 ^ 65 * 4 ^ 40 := Nat.mul_lt_mul_of_pos_right hrlt (by decide)
      _ < 2 ^ (2 * 73) := by decide)
  have hrootge : 2 ^ 67 ≤ root := by
    by_contra hlt
    have h1 : (root + 1) * (root + 1) ≤ 2 ^ 67 * 2 ^ 67 := Nat.mul_le_mul (by omega) (by omega)
    have h2 := hroot.eq
    have h3 := hroot.rem_le
    have h5 : (root + 1) * (root + 1) = root * root + 2 * root + 1 := by ring
    simp only at h2 h3
    omega
  have hvalue : Real.sqrt a.value =
      signed false (Real.sqrt ((r * 4 ^ 40 : Nat) : ℝ) * 2 ^ (e - (extraPairs : Nat))) := by
    have hreal := sqrt_value (r : ℝ) (Nat.cast_nonneg _) e extraPairs
    rw [hrval, hav] at hreal
    have hcast : ((r * 4 ^ 40 : Nat) : ℝ) = (r : ℝ) * 4 ^ extraPairs := by
      rw [show extraPairs = 40 from rfl, Nat.cast_mul, Nat.cast_pow, Nat.cast_ofNat]
    rw [hcast, hreal]
    unfold Parts.value
    rw [hsign]
    rfl
  have hpairs : ((extraPairs : Nat) : Int) = 40 := rfl
  unfold sqrtFinite
  rw [ha', Option.bind_some, heven, Option.bind_some]
  rw [hisqrt, Option.bind_some, Int.mul_ediv_cancel_left _ (by decide), i32_eq (by omega),
    Option.bind_some]
  have hor : root ||| 1 ≤ root + 1 ∧ root ≤ root ||| 1 := by
    rw [or_one]
    omega
  have hsig : 2 ^ 66 ≤ (if rem != 0 then root ||| 1 else root) ∧
      (if rem != 0 then root ||| 1 else root) < 2 ^ 128 := by
    split <;> omega
  exact roundExact_real hspec hsticky (lt_of_lt_of_le (by decide) hsig.1) hsig.2
    (Or.inr (room hspec hsig.1)) (by omega) hvalue

theorem sqrt_real (hspec : spec.Sane) (ha : a.Numeric) (hnonneg : 0 ≤ a.value) :
    sqrt a spec env = some (settleReal a.sign (Real.sqrt a.value) spec env) := by
  unfold sqrt
  rw [nanResult_none (by simp [ha.not_nan])]
  rcases ha.cases with ⟨hac, hav⟩ | ⟨hac, -⟩
  · simp only [hac]
    rw [hav, Real.sqrt_zero, settleReal_zero]
  · have hsign : a.sign = false := by
      have hpos : 0 < (a.frac : ℝ) * 2 ^ a.exp :=
        mul_pos (Nat.cast_pos.mpr (ha.frac_pos hac)) (two_zpow_pos _)
      cases h : a.sign with
      | false => rfl
      | true =>
        have : a.value < 0 := (signed_neg_iff hpos).mpr h
        linarith
    simp only [hac, hsign]
    exact sqrtFinite_real hspec ha hac hsign _

end Rsemu.Float
