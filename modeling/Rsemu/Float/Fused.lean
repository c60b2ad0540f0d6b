import Rsemu.Float.Exact

/-!
# The fused multiply-add

The exact product and the addend share one 256-bit window whose top is just above
whichever leads. The term that leads lies in the window whole; the other is shifted
into it, and only loses bits when it is so far below that what is left of the sum is
still wider than any format.

The first half is about 256-bit integers in two halves: each operation is the one on
their values.
-/

namespace Rsemu.Float

open Rounding

attribute [local instance] atLeastTwo_two

namespace Wide

/-- Both halves are `u128`. -/
structure Valid (w : Wide) : Prop where
  hi_lt : w.hi < 2 ^ 128
  lo_lt : w.lo < 2 ^ 128

theorem Valid.toNat_lt {w : Wide} (h : w.Valid) : w.toNat < 2 ^ 256 := by
  have h1 := h.hi_lt
  have h2 := h.lo_lt
  unfold toNat
  omega

theorem valid_ofU128 {v : Nat} (h : v < 2 ^ 128) : (ofU128 v).Valid :=
  ⟨show 0 < 2 ^ 128 by decide, h⟩

theorem toNat_mk (hi lo : Nat) : (Wide.mk hi lo).toNat = hi * 2 ^ 128 + lo := rfl

theorem toNat_ofU128 (v : Nat) : (ofU128 v).toNat = v := by
  unfold toNat ofU128
  simp only
  omega

theorem eq_zero_iff {w : Wide} : w = zero ↔ w.toNat = 0 := by
  obtain ⟨hi, lo⟩ := w
  unfold zero toNat
  rw [Wide.mk.injEq]
  simp only
  omega

theorem shl_ofU128 {v n : Nat} (hv : v < 2 ^ 128) (hfit : v * 2 ^ n < 2 ^ 256) :
    ∃ w, (ofU128 v).shl n = some w ∧ w.Valid ∧ w.toNat = v * 2 ^ n := by
  unfold shl
  rw [toNat_ofU128, if_pos hfit]
  by_cases h0 : n = 0
  · rw [if_pos h0]
    refine ⟨_, rfl, valid_ofU128 hv, ?_⟩
    rw [toNat_ofU128, h0, Nat.pow_zero, Nat.mul_one]
  · rw [if_neg h0]
    by_cases h256 : 256 ≤ n
    · -- only zero can be moved that far
      rw [if_pos h256]
      have hzero : v = 0 := by
        by_contra hne
        have h1 : 2 ^ 256 ≤ 2 ^ n := Nat.pow_le_pow_right (by decide) h256
        have h2 : 2 ^ n ≤ v * 2 ^ n := Nat.le_mul_of_pos_left _ (Nat.pos_of_ne_zero hne)
        omega
      refine ⟨_, rfl, ⟨by decide, by decide⟩, ?_⟩
      rw [hzero, Nat.zero_mul]
      rfl
    · rw [if_neg h256]
      by_cases h128 : 128 ≤ n
      · obtain ⟨i, rfl⟩ : ∃ i, n = i + 128 := ⟨n - 128, by omega⟩
        have hsplit : v * 2 ^ (i + 128) = v * 2 ^ i * 2 ^ 128 := by rw [Nat.pow_add, Nat.mul_assoc]
        have hlt : v * 2 ^ i < 2 ^ 128 := by omega
        rw [if_pos h128, show i + 128 - 128 = i by omega]
        refine ⟨_, rfl, ⟨Nat.mod_lt _ (by decide), (by decide : 0 < 2 ^ 128)⟩, ?_⟩
        simp only [toNat, ofU128, Nat.shiftLeft_eq, Nat.mod_eq_of_lt hlt, Nat.add_zero]
        exact hsplit.symm
      · obtain ⟨i, hi⟩ : ∃ i, i + n = 128 := ⟨128 - n, by omega⟩
        rw [if_neg h128, show 128 - n = i by omega]
        have hpow : 2 ^ 128 = 2 ^ i * 2 ^ n := by rw [← Nat.pow_add, hi]
        have hdiv : v * 2 ^ n / 2 ^ 128 = v / 2 ^ i := by
          rw [hpow, Nat.mul_div_mul_right _ _ (Nat.two_pow_pos n)]
        have hhi : v / 2 ^ i < 2 ^ 128 := lt_of_le_of_lt (Nat.div_le_self _ _) hv
        have hval := Nat.div_add_mod (v * 2 ^ n) (2 ^ 128)
        refine ⟨_, rfl, ⟨?_, Nat.mod_lt _ (by decide)⟩, ?_⟩
        · simpa [ofU128, Nat.shiftRight_eq_div_pow] using hhi
        · rw [toNat_mk, show (ofU128 v).hi = 0 from rfl, show (ofU128 v).lo = v from rfl,
            Nat.zero_shiftLeft, Nat.zero_mod, Nat.zero_or, Nat.shiftRight_eq_div_pow,
            Nat.shiftLeft_eq, ← hdiv, Nat.mul_comm]
          exact hval

theorem bit_or (v : Nat) (b : Bool) : v ||| bit b = if b then v ||| 1 else v := by
  cases b <;> simp [bit]

theorem shrSticky_toNat {w : Wide} (h : w.Valid) (n : Nat) :
    (w.shrSticky n).Valid ∧ (w.shrSticky n).toNat = jam w.toNat n := by
  have h1 := h.hi_lt
  have h2 := h.lo_lt
  have hw := h.toNat_lt
  unfold shrSticky
  by_cases h0 : n = 0
  · rw [if_pos h0]
    exact ⟨h, by rw [h0, jam_zero]⟩
  rw [if_neg h0]
  by_cases h256 : 256 ≤ n
  · rw [if_pos h256]
    have hlt : w.toNat < 2 ^ n := lt_of_lt_of_le hw (Nat.pow_le_pow_right (by decide) h256)
    have hne : (w != zero) = decide (w.toNat ≠ 0) := by
      apply Bool.eq_iff_iff.mpr
      rw [bne_iff_ne, decide_eq_true_eq, ne_eq, eq_zero_iff]
    refine ⟨valid_ofU128 (by unfold bit; split <;> decide), ?_⟩
    rw [toNat_ofU128, hne, jam, Nat.mod_eq_of_lt hlt, Nat.div_eq_of_lt hlt]
    by_cases hz : w.toNat = 0 <;> simp [hz, bit]
  rw [if_neg h256]
  by_cases h128 : 128 ≤ n
  · obtain ⟨i, rfl⟩ : ∃ i, n = i + 128 := ⟨n - 128, by omega⟩
    rw [if_pos h128]
    simp only [show i + 128 - 128 = i by omega]
    have htop : w.toNat / 2 ^ 128 = w.hi := by
      unfold toNat
      omega
    have hbottom : w.toNat % 2 ^ 128 = w.lo := by
      unfold toNat
      omega
    have hdiv : w.toNat / 2 ^ (i + 128) = w.hi / 2 ^ i := by
      rw [Nat.add_comm, Nat.pow_add, ← Nat.div_div_eq_div_mul, htop]
    have hmod : w.toNat % 2 ^ (i + 128) = w.lo + 2 ^ 128 * (w.hi % 2 ^ i) := by
      rw [Nat.add_comm, Nat.pow_add, Nat.mod_mul, htop, hbottom]
    have hlost : (w.lo != 0 || (decide (128 < i + 128) && w.hi &&& (1 <<< i - 1) != 0)) =
        decide (w.toNat % 2 ^ (i + 128) ≠ 0) := by
      rw [hmod, Nat.one_shiftLeft, Nat.and_two_pow_sub_one_eq_mod]
      apply Bool.eq_iff_iff.mpr
      simp only [Bool.or_eq_true, bne_iff_ne, Bool.and_eq_true, decide_eq_true_eq, ne_eq]
      rcases Nat.eq_zero_or_pos i with rfl | hi
      · simp [Nat.mod_one]
      · omega
    have hbelow : w.hi >>> i < 2 ^ 128 := by
      rw [Nat.shiftRight_eq_div_pow]
      exact lt_of_le_of_lt (Nat.div_le_self _ _) h1
    rw [hlost]
    constructor
    · refine ⟨(by decide : 0 < 2 ^ 128), ?_⟩
      simp only [bit_or]
      split
      · exact Nat.or_lt_two_pow hbelow (by decide)
      · exact hbelow
    · unfold jam
      rw [hdiv, toNat_mk, bit_or, Nat.zero_mul, Nat.zero_add, Nat.shiftRight_eq_div_pow]
      by_cases hz : w.toNat % 2 ^ (i + 128) = 0
      · rw [if_neg (by simpa using hz), if_pos hz]
      · rw [if_pos (by simpa using hz), if_neg hz]
  · obtain ⟨i, hi⟩ : ∃ i, i + n = 128 := ⟨128 - n, by omega⟩
    rw [if_neg h128, show 128 - n = i by omega]
    have hpow : 2 ^ 128 = 2 ^ i * 2 ^ n := by rw [← Nat.pow_add, hi]
    have hn := Nat.two_pow_pos n
    -- the high half splits at bit `n`, and the lower part joins what is left of the low half
    have hhi := Nat.div_add_mod w.hi (2 ^ n)
    have hhilt := Nat.mod_lt w.hi hn
    have hlolt : w.lo / 2 ^ n < 2 ^ i := by
      rw [Nat.div_lt_iff_lt_mul hn, ← hpow]
      exact h2
    have hlow : w.hi <<< i % 2 ^ 128 = (w.hi % 2 ^ n) <<< i := by
      rw [Nat.shiftLeft_eq, Nat.shiftLeft_eq, hpow, Nat.mul_comm w.hi, Nat.mul_mod_mul_left,
        Nat.mul_comm]
    have hjoin : w.hi <<< i % 2 ^ 128 ||| w.lo >>> n = w.hi % 2 ^ n * 2 ^ i + w.lo / 2 ^ n := by
      rw [hlow, Nat.shiftRight_eq_div_pow, ← Nat.shiftLeft_add_eq_or_of_lt hlolt, Nat.shiftLeft_eq]
    have hjoinlt : w.hi % 2 ^ n * 2 ^ i + w.lo / 2 ^ n < 2 ^ 128 := by
      have : (w.hi % 2 ^ n + 1) * 2 ^ i ≤ 2 ^ n * 2 ^ i := Nat.mul_le_mul_right _ hhilt
      rw [Nat.add_mul, Nat.mul_comm (2 ^ n)] at this
      omega
    have hsplit : w.toNat = 2 ^ n * (w.hi * 2 ^ i) + w.lo := by
      unfold toNat
      rw [hpow]
      ring
    have hdiv : w.toNat / 2 ^ n =
        w.hi / 2 ^ n * 2 ^ 128 + (w.hi % 2 ^ n * 2 ^ i + w.lo / 2 ^ n) := by
      rw [hsplit, Nat.mul_add_div hn]
      have e1 : w.hi * 2 ^ i = (2 ^ n * (w.hi / 2 ^ n) + w.hi % 2 ^ n) * 2 ^ i := by rw [hhi]
      rw [e1, hpow]
      ring
    have hmod : w.toNat % 2 ^ n = w.lo % 2 ^ n := by rw [hsplit, Nat.mul_add_mod]
    have hhigh : w.hi >>> n < 2 ^ 128 := by
      rw [Nat.shiftRight_eq_div_pow]
      exact lt_of_le_of_lt (Nat.div_le_self _ _) h1
    simp only [hjoin, Nat.one_shiftLeft, Nat.and_two_pow_sub_one_eq_mod, ← hmod, bit_or]
    by_cases hz : w.toNat % 2 ^ n = 0
    · rw [if_neg (by simpa using hz)]
      refine ⟨⟨hhigh, hjoinlt⟩, ?_⟩
      rw [jam, if_pos hz, hdiv, toNat_mk, Nat.shiftRight_eq_div_pow]
    · rw [if_pos (by simpa using hz), or_one]
      refine ⟨⟨hhigh, by simp only; omega⟩, ?_⟩
      rw [jam, if_neg hz, hdiv, or_one, toNat_mk, Nat.shiftRight_eq_div_pow]
      omega

theorem add_toNat {a b : Wide} (h : a.toNat + b.toNat < 2 ^ 256) :
    ∃ w, a.add b = some w ∧ w.Valid ∧ w.toNat = a.toNat + b.toNat := by
  unfold add
  rw [if_pos h]
  refine ⟨_, rfl, ⟨Nat.mod_lt _ (by decide), Nat.mod_lt _ (by decide)⟩, ?_⟩
  unfold toNat at h ⊢
  simp only
  omega

theorem sub_toNat {a b : Wide} (ha : a.Valid) (hb : b.Valid) (h : b.toNat ≤ a.toNat) :
    ∃ w, a.sub b = some w ∧ w.Valid ∧ w.toNat = a.toNat - b.toNat := by
  have h1 := ha.hi_lt
  have h2 := ha.lo_lt
  have h4 := hb.lo_lt
  unfold sub
  rw [if_pos h]
  refine ⟨_, rfl, ⟨Nat.mod_lt _ (by decide), Nat.mod_lt _ (by decide)⟩, ?_⟩
  unfold toNat bit at *
  by_cases hlt : a.lo < b.lo
  · simp only [hlt, decide_true, if_true]
    omega
  · simp only [hlt, decide_false, Bool.false_eq_true, if_false]
    omega

theorem ge_iff {a b : Wide} (ha : a.Valid) (hb : b.Valid) : a.ge b = true ↔ b.toNat ≤ a.toNat := by
  have h2 := ha.lo_lt
  have h4 := hb.lo_lt
  unfold ge toNat
  simp only [Bool.or_eq_true, Bool.and_eq_true, decide_eq_true_eq, beq_iff_eq]
  omega

theorem narrow_spec {w : Wide} (h : w.Valid) :
    w.narrow.1 = jam w.toNat w.narrow.2 ∧ w.narrow.1 < 2 ^ 128 ∧ w.narrow.2 ≤ 128 ∧
      (w.narrow.2 = 0 ∨ 2 ^ 127 ≤ w.narrow.1) := by
  have h1 := h.hi_lt
  have h2 := h.lo_lt
  unfold narrow
  by_cases hz : w.hi = 0
  · rw [if_pos hz]
    refine ⟨?_, h2, Nat.zero_le _, Or.inl rfl⟩
    rw [jam_zero, toNat, hz, Nat.zero_mul, Nat.zero_add]
  · have hlog := log2_lt (Nat.pos_of_ne_zero hz) h1
    rw [if_neg hz]
    obtain ⟨hv, hjam⟩ := shrSticky_toNat h (w.hi.log2 + 1)
    have hlo : 2 ^ w.hi.log2 ≤ w.hi := Nat.log2_self_le hz
    have hhi : w.hi < 2 ^ (w.hi.log2 + 1) := Nat.lt_log2_self
    -- the value has `log2 hi + 1 + 128` bits, and `log2 hi + 1` of them go
    have hge : 2 ^ 127 ≤ w.toNat / 2 ^ (w.hi.log2 + 1) := by
      rw [Nat.le_div_iff_mul_le (Nat.two_pow_pos _), Nat.pow_succ]
      unfold toNat
      omega
    have hlt : w.toNat / 2 ^ (w.hi.log2 + 1) < 2 ^ 128 := by
      rw [Nat.div_lt_iff_lt_mul (Nat.two_pow_pos _)]
      unfold toNat
      omega
    have hjamge : w.toNat / 2 ^ (w.hi.log2 + 1) ≤ jam w.toNat (w.hi.log2 + 1) := by
      unfold jam
      split
      · exact le_refl _
      · rw [or_one]
        omega
    have hjamlt : jam w.toNat (w.hi.log2 + 1) < 2 ^ 128 := by
      unfold jam
      split
      · exact hlt
      · rw [or_one]
        omega
    have hhi0 : (w.shrSticky (w.hi.log2 + 1)).hi = 0 := by
      have hsplit : (w.shrSticky (w.hi.log2 + 1)).hi * 2 ^ 128 + (w.shrSticky (w.hi.log2 + 1)).lo =
          jam w.toNat (w.hi.log2 + 1) := hjam
      omega
    have hval : (w.shrSticky (w.hi.log2 + 1)).lo = jam w.toNat (w.hi.log2 + 1) := by
      rw [← hjam, toNat, hhi0, Nat.zero_mul, Nat.zero_add]
    simp only [hval]
    exact ⟨trivial, hjamlt, by omega, Or.inr (by omega)⟩

end Wide

variable {base : Int} {spec : Spec}

theorem place_up {exp : Int} {v n : Nat} (hv : v < 2 ^ 128) (hn : exp - base = n) (hlt : n < 256)
    (hfit : v * 2 ^ n < 2 ^ 256) :
    ∃ w, place base v exp = some w ∧ w.Valid ∧ w.toNat = v * 2 ^ n := by
  unfold place
  rw [hn, i32_eq (by omega), Option.bind_some, if_pos (Int.natCast_nonneg n), Int.toNat_natCast]
  exact Wide.shl_ofU128 hv hfit

theorem place_down {exp : Int} {v n : Nat} (hv : v < 2 ^ 128) (hn : exp - base = -(n : Int))
    (hpos : 0 < n) (hlt : n < 2 ^ 30) :
    ∃ w, place base v exp = some w ∧ w.Valid ∧ w.toNat = jam v n := by
  obtain ⟨hvalid, hval⟩ := Wide.shrSticky_toNat (Wide.valid_ofU128 hv) n
  rw [Wide.toNat_ofU128] at hval
  unfold place
  rw [hn, i32_eq (by omega), Option.bind_some, if_neg (by omega), neg_neg, Int.toNat_natCast]
  exact ⟨_, rfl, hvalid, hval⟩

theorem place_trailing (base exp : Int) {v : Nat} (hv : v < 2 ^ 128)
    (hrange : -2 ^ 29 ≤ exp - base ∧ exp - base < 256)
    (hfit : ∀ n : Nat, exp - base = n → v * 2 ^ n < 2 ^ 250) :
    ∃ w, place base v exp = some w ∧ w.Valid ∧ Sticky w.toNat ((v : ℝ) * 2 ^ (exp - base)) ∧
      w.toNat < 2 ^ 250 ∧ ((v : ℝ) * 2 ^ (exp - base) = w.toNat ∨ w.toNat ≤ 2 ^ 128) := by
  by_cases hneg : exp < base
  · obtain ⟨n, hn⟩ : ∃ n : Nat, exp - base = -(n : Int) := ⟨(base - exp).toNat, by omega⟩
    obtain ⟨w, hw, hvalid, hval⟩ := place_down hv hn (by omega) (by omega)
    have hle : w.toNat ≤ v := by
      rw [hval]
      exact jam_le v n
    refine ⟨w, hw, hvalid, ?_, by omega, Or.inr (by omega)⟩
    rw [hval, hn, zpow_neg, zpow_natCast, ← div_eq_mul_inv]
    exact (Sticky.exact v).jam n
  · obtain ⟨n, hn⟩ : ∃ n : Nat, exp - base = n := ⟨(exp - base).toNat, by omega⟩
    have hsmall := hfit n hn
    obtain ⟨w, hw, hvalid, hval⟩ := place_up hv hn (by omega) (by omega)
    have heq : (v : ℝ) * 2 ^ (exp - base) = w.toNat := by
      rw [hval, hn, zpow_natCast]
      push_cast
      rfl
    exact ⟨w, hw, hvalid, Or.inl heq, by omega, Or.inl heq⟩

theorem combineWide_spec (ps cs : Bool) {p c : Wide} (hp : p.Valid) (hc : c.Valid)
    (hfit : p.toNat + c.toNat < 2 ^ 256) :
    ∃ w, combineWide ps cs p c = some ((netSum ps cs p.toNat c.toNat).1, w) ∧ w.Valid ∧
      w.toNat = (netSum ps cs p.toNat c.toNat).2 := by
  unfold combineWide netSum
  by_cases hsign : ps = cs
  · obtain ⟨w, hw, hvalid, hval⟩ := Wide.add_toNat hfit
    rw [if_pos hsign, if_pos hsign, hw, Option.map_some]
    exact ⟨w, rfl, hvalid, hval⟩
  · rw [if_neg hsign, if_neg hsign]
    by_cases hge : c.toNat ≤ p.toNat
    · obtain ⟨w, hw, hvalid, hval⟩ := Wide.sub_toNat hp hc hge
      rw [if_pos ((Wide.ge_iff hp hc).mpr hge), if_pos hge, hw, Option.map_some]
      exact ⟨w, rfl, hvalid, hval⟩
    · obtain ⟨w, hw, hvalid, hval⟩ := Wide.sub_toNat hc hp (by omega)
      rw [if_neg ((Wide.ge_iff hp hc).not.mpr hge), if_neg hge, hw, Option.map_some]
      exact ⟨w, rfl, hvalid, hval⟩

def roundWindow (sign : Bool) (base : Int) (w : Wide) (spec : Spec) (env : Env) :
    Option (Outcome × Flags) :=
  if w = Wide.zero then some (.num (cancelledSign env) .zero, .none)
  else (i32 (base + w.narrow.2)).bind fun exp => roundExact sign exp w.narrow.1 spec env

theorem roundWindow_real {es ls sign zeroSign : Bool} {w : Wide} {e s : Nat} {y z : ℝ} {env : Env}
    (hspec : spec.Sane) (hw : w.Valid) (hbase : -2 ^ 28 ≤ base ∧ base ≤ 2 ^ 28) (heven : e % 2 = 0)
    (hlarge : 2 ^ 248 ≤ e) (hsticky : Sticky s y) (hlost : y = s ∨ s ≤ 2 ^ 128)
    (hval : w.toNat = (netSum es ls e s).2) (hsign : w.toNat ≠ 0 → sign = (netSum es ls e s).1)
    (hz : z = (signed es e + signed ls y) * 2 ^ base) (hzero : z = 0 → zeroSign = cancelledSign env)
    : roundWindow sign base w spec env = some (settleReal zeroSign z spec env) := by
  obtain ⟨v, hsv, hsum, hexact, hbig⟩ := netSum_spec es ls heven hsticky
  rw [← hval] at hsv hexact hbig
  rw [hsum, ← signed_mul] at hz
  unfold roundWindow
  by_cases hwz : w = Wide.zero
  · have h0 : w.toNat = 0 := Wide.eq_zero_iff.mp hwz
    have hv : v = 0 := by
      have := (hsv.eq_iff (m := 0) rfl).mpr h0
      simpa using this
    have hz0 : z = 0 := by
      rw [hz, hv, zero_mul]
      cases (netSum es ls e s).1 <;> simp [signed]
    rw [if_pos hwz, hz0, settleReal_zero, hzero hz0]
  · have hne : w.toNat ≠ 0 := Wide.eq_zero_iff.not.mp hwz
    obtain ⟨hnarrow, h128, hshift, hfull⟩ := Wide.narrow_spec hw
    obtain ⟨sig, hsig⟩ : ∃ sig, sig = w.narrow.1 := ⟨_, rfl⟩
    obtain ⟨n, hn⟩ : ∃ n, n = w.narrow.2 := ⟨_, rfl⟩
    rw [← hsig, ← hn] at hnarrow hfull
    rw [← hsig] at h128
    have hstick : Sticky sig (v / 2 ^ n) := hnarrow ▸ hsv.jam n
    have hroom : v / 2 ^ n = sig ∨ 2 ^ (spec.precision + 2) ≤ sig := by
      rcases hfull with h0 | hfull
      · -- nothing was narrowed away, so nothing was lost in the window either
        rw [h0, jam_zero] at hnarrow
        have hys : y = s := by
          refine hlost.resolve_right fun hs => ?_
          omega
        rw [h0, pow_zero, div_one, hnarrow]
        exact Or.inl (hexact hys)
      · exact Or.inr (room hspec (le_trans (by decide) hfull))
    have hpos : 0 < sig := by
      rcases hfull with h0 | hfull
      · rw [h0, jam_zero] at hnarrow
        omega
      · exact lt_of_lt_of_le (by decide) hfull
    rw [if_neg hwz, ← hsig, ← hn, i32_eq (by omega), Option.bind_some, hsign hne]
    refine roundExact_real hspec hstick hpos h128 hroom (by omega) ?_
    rw [hz, add_comm base, two_zpow_add, zpow_natCast]
    congr 1
    field_simp

theorem window_value (x : ℝ) (base exp : Int) : x * 2 ^ (exp - base) * 2 ^ base = x * 2 ^ exp := by
  rw [mul_assoc, ← two_zpow_add, Int.sub_add_cancel]

theorem place_leading {exp : Int} {v n b : Nat} (hlo : 2 ^ b ≤ v) (hhi : v < 2 ^ 128)
    (hn : exp - base = n) (hpos : 0 < n) (hlt : n < 256) (hb : 248 ≤ b + n)
    (hfit : v * 2 ^ n < 2 ^ 250) :
    ∃ w, place base v exp = some w ∧ w.Valid ∧ w.toNat < 2 ^ 250 ∧ w.toNat % 2 = 0 ∧
      2 ^ 248 ≤ w.toNat ∧ (w.toNat : ℝ) * 2 ^ base = v * 2 ^ exp := by
  obtain ⟨w, hw, hvalid, hval⟩ := place_up hhi hn hlt (by omega)
  refine ⟨w, hw, hvalid, by omega, ?_, ?_, ?_⟩
  · rw [hval]
    obtain ⟨k, rfl⟩ : ∃ k, n = k + 1 := ⟨n - 1, by omega⟩
    rw [Nat.pow_succ, ← Nat.mul_assoc, Nat.mul_mod_left]
  · calc 2 ^ 248 ≤ 2 ^ (b + n) := Nat.pow_le_pow_right (by decide) hb
      _ = 2 ^ b * 2 ^ n := Nat.pow_add ..
      _ ≤ v * 2 ^ n := Nat.mul_le_mul_right _ hlo
      _ = w.toNat := hval.symm
  · rw [← window_value (v : ℝ) base exp, hn, hval, zpow_natCast]
    push_cast
    rfl

def fuse (ps cs : Bool) (base : Int) (p c : Wide) (spec : Spec) (env : Env) :
    Option (Outcome × Flags) :=
  (combineWide ps cs p c).bind fun r => roundWindow r.1 base r.2 spec env

theorem fuse_product {ps cs zeroSign : Bool} {p c : Wide} {y z : ℝ} {env : Env} (hspec : spec.Sane)
    (hp : p.Valid) (hc : c.Valid) (hbase : -2 ^ 28 ≤ base ∧ base ≤ 2 ^ 28) (heven : p.toNat % 2 = 0)
    (hlarge : 2 ^ 248 ≤ p.toNat) (hplt : p.toNat < 2 ^ 250) (hclt : c.toNat < 2 ^ 250)
    (hsticky : Sticky c.toNat y) (hlost : y = c.toNat ∨ c.toNat ≤ 2 ^ 128)
    (hz : z = (signed ps p.toNat + signed cs y) * 2 ^ base)
    (hzero : z = 0 → zeroSign = cancelledSign env) :
    fuse ps cs base p c spec env = some (settleReal zeroSign z spec env) := by
  obtain ⟨w, hw, hvalid, hval⟩ := combineWide_spec ps cs hp hc (by omega)
  unfold fuse
  rw [hw, Option.bind_some]
  exact roundWindow_real hspec hvalid hbase heven hlarge hsticky hlost hval (fun _ => rfl) hz hzero

theorem fuse_addend {ps cs zeroSign : Bool} {p c : Wide} {y z : ℝ} {env : Env} (hspec : spec.Sane)
    (hp : p.Valid) (hc : c.Valid) (hbase : -2 ^ 28 ≤ base ∧ base ≤ 2 ^ 28) (heven : c.toNat % 2 = 0)
    (hlarge : 2 ^ 248 ≤ c.toNat) (hplt : p.toNat < 2 ^ 250) (hclt : c.toNat < 2 ^ 250)
    (hsticky : Sticky p.toNat y) (hlost : y = p.toNat ∨ p.toNat ≤ 2 ^ 128)
    (hz : z = (signed ps y + signed cs c.toNat) * 2 ^ base)
    (hzero : z = 0 → zeroSign = cancelledSign env) :
    fuse ps cs base p c spec env = some (settleReal zeroSign z spec env) := by
  obtain ⟨w, hw, hvalid, hval⟩ := combineWide_spec ps cs hp hc (by omega)
  obtain ⟨hmag, hsign⟩ := netSum_comm ps cs p.toNat c.toNat
  unfold fuse
  rw [hw, Option.bind_some]
  refine roundWindow_real hspec hvalid hbase heven hlarge hsticky hlost (hval.trans hmag) ?_ ?_ hzero
  · intro hne
    exact hsign (hval ▸ hne)
  · rw [hz, add_comm]

theorem fmaFinite_real {a b c : Parts} {env : Env} (hspec : spec.Sane) (ha : a.Numeric)
    (hb : b.Numeric) (hc : c.Numeric) (hac : a.cls = .finite) (hbc : b.cls = .finite)
    (hcc : c.cls = .finite) :
    fmaFinite a b c spec env =
      some (settleReal (sumZeroSign (a.sign ^^ b.sign) c.sign env) (a.value * b.value + c.value)
        spec env) := by
  obtain ⟨a', ha', han, has, hav⟩ := normalized_spec ha hac
  obtain ⟨b', hb', hbn, hbs, hbv⟩ := normalized_spec hb hbc
  obtain ⟨c', hc', hcn, hcs, hcv⟩ := normalized_spec hc hcc
  have hva : a'.value = a.value := by rw [Parts.value, hav, has]; rfl
  have hvb : b'.value = b.value := by rw [Parts.value, hbv, hbs]; rfl
  have hvc : c'.value = c.value := by rw [Parts.value, hcv, hcs]; rfl
  have h1 := han.exp_ge
  have h2 := han.exp_le
  have h3 := hbn.exp_ge
  have h4 := hbn.exp_le
  have h5 := hcn.exp_ge
  have h6 := hcn.exp_le
  have h7 := hcn.frac_ge
  have h8 := hcn.frac_lt
  have hP128 := mul_lt_128 han.frac_lt hbn.frac_lt
  have hP126 : 2 ^ 126 ≤ a'.frac * b'.frac :=
    le_trans (by decide) (Nat.mul_le_mul han.frac_ge hbn.frac_ge)
  have hprod := value_mul a' b'
  obtain ⟨P, hP⟩ : ∃ P, P = a'.frac * b'.frac := ⟨_, rfl⟩
  obtain ⟨e, he⟩ : ∃ e, e = a'.exp + b'.exp := ⟨_, rfl⟩
  rw [← hP] at hP128 hP126 hprod
  rw [← he] at hprod
  have hzero : a.value * b.value + c.value = 0 →
      sumZeroSign (a.sign ^^ b.sign) c.sign env = cancelledSign env := by
    intro h
    have hPpos : 0 < (P : ℝ) * 2 ^ e :=
      mul_pos (Nat.cast_pos.mpr (lt_of_lt_of_le (by decide) hP126)) (two_zpow_pos _)
    have hcpos : 0 < (c'.frac : ℝ) * 2 ^ c'.exp :=
      mul_pos (Nat.cast_pos.mpr (lt_of_lt_of_le (by decide) hcn.frac_ge)) (two_zpow_pos _)
    rw [← hva, ← hvb, hprod, ← hvc] at h
    have := sign_ne_of_sum_zero hPpos hcpos h
    rw [has, hbs, hcs] at this
    exact if_neg this
  have hvalue : a.value * b.value + c.value =
      signed (a'.sign ^^ b'.sign) (P * 2 ^ e) + signed c'.sign (c'.frac * 2 ^ c'.exp) := by
    rw [← hva, ← hvb, hprod, ← hvc]
    rfl
  unfold fmaFinite
  rw [ha', Option.bind_some, hb', Option.bind_some, hc', Option.bind_some, ← hP, ← he,
    u128_eq hP128, Option.bind_some, i32_eq (by omega), Option.bind_some, i32_eq (by omega),
    Option.bind_some, i32_eq (by omega), Option.bind_some, i32_eq (by omega), Option.bind_some]
  by_cases hlead : c'.exp + 64 ≤ e + 128
  · -- the product leads
    obtain ⟨base, hbase⟩ : ∃ base, base = e - 122 := ⟨_, rfl⟩
    rw [show max (e + 128) (c'.exp + 64) - 250 = base by omega]
    obtain ⟨p, hp, hpv, hplt, heven, hlarge, hpval⟩ :=
      place_leading (n := 122) hP126 hP128
        (show e - base = 122 by omega) (by decide) (by decide) (by decide)
        (show P * 2 ^ 122 < 2 ^ 250 by omega)
    obtain ⟨w, hw, hwv, hsticky, hwlt, hlost⟩ :=
      place_trailing base c'.exp (show c'.frac < 2 ^ 128 by omega) (by omega) (by
        intro n hn
        have h186 : n ≤ 186 := by omega
        calc c'.frac * 2 ^ n ≤ c'.frac * 2 ^ 186 :=
              Nat.mul_le_mul_left _ (Nat.pow_le_pow_right (by decide) h186)
          _ < 2 ^ 250 := by omega)
    rw [hp, Option.bind_some, hw, Option.bind_some]
    refine fuse_product hspec hpv hwv (by omega) heven hlarge hplt hwlt hsticky hlost ?_ hzero
    rw [hvalue, add_mul, ← signed_mul, ← signed_mul, hpval, window_value]
  · obtain ⟨base, hbase⟩ : ∃ base, base = c'.exp - 186 := ⟨_, rfl⟩
    rw [show max (e + 128) (c'.exp + 64) - 250 = base by omega]
    obtain ⟨w, hw, hwv, hwlt, heven, hlarge, hwval⟩ :=
      place_leading (n := 186) h7 (show c'.frac < 2 ^ 128 by omega)
        (show c'.exp - base = 186 by omega) (by decide) (by decide) (by decide)
        (show c'.frac * 2 ^ 186 < 2 ^ 250 by omega)
    obtain ⟨p, hp, hpv, hsticky, hplt, hlost⟩ :=
      place_trailing base e hP128 (by omega) (by
        intro n hn
        have h122 : n ≤ 122 := by omega
        calc P * 2 ^ n ≤ P * 2 ^ 122 :=
              Nat.mul_le_mul_left _ (Nat.pow_le_pow_right (by decide) h122)
          _ < 2 ^ 250 := by omega)
    rw [hp, Option.bind_some, hw, Option.bind_some]
    refine fuse_addend hspec hpv hwv (by omega) heven hlarge hplt hwlt hsticky hlost ?_ hzero
    rw [hvalue, add_mul, ← signed_mul, ← signed_mul, hwval, window_value]

theorem fma_real {a b c : Parts} {env : Env} (hspec : spec.Sane) (ha : a.Numeric) (hb : b.Numeric)
    (hc : c.Numeric) :
    fma a b c spec env =
      some (settleReal (sumZeroSign (a.sign ^^ b.sign) c.sign env) (a.value * b.value + c.value)
        spec env) := by
  have hnumbers : fma a b c spec env = fmaNumbers a b c spec env := by
    unfold fma
    rw [nanResult_none (by simp [ha.not_nan, hb.not_nan, hc.not_nan])]
    rcases ha.cases with ⟨hac, -⟩ | ⟨hac, -⟩ <;> rcases hb.cases with ⟨hbc, -⟩ | ⟨hbc, -⟩ <;>
      rcases hc.cases with ⟨hcc, -⟩ | ⟨hcc, -⟩ <;> simp [hac, hbc, hcc]
  rw [hnumbers]
  unfold fmaNumbers
  by_cases hzero : a.cls = .zero ∨ b.cls = .zero
  · have hprod : a.value * b.value = 0 := by
      rcases hzero with h | h
      · rcases ha.cases with ⟨-, h0⟩ | ⟨h', -⟩
        · rw [h0, zero_mul]
        · cases h.symm.trans h'
      · rcases hb.cases with ⟨-, h0⟩ | ⟨h', -⟩
        · rw [h0, mul_zero]
        · cases h.symm.trans h'
    rw [if_pos hzero, hprod, zero_add]
    rcases hc.cases with ⟨hcc, hcv⟩ | ⟨hcc, -⟩
    · rw [if_pos hcc, hcv, settleReal_zero]
      rfl
    · rw [if_neg (by rw [hcc]; decide)]
      exact roundExact_parts hspec hc hcc
  · rw [if_neg hzero]
    rw [not_or] at hzero
    have hac : a.cls = .finite := by
      rcases ha.cases with ⟨h, -⟩ | ⟨h, -⟩
      · exact absurd h hzero.1
      · exact h
    have hbc : b.cls = .finite := by
      rcases hb.cases with ⟨h, -⟩ | ⟨h, -⟩
      · exact absurd h hzero.2
      · exact h
    rcases hc.cases with ⟨hcc, hcv⟩ | ⟨hcc, -⟩
    · -- the addend is zero and the product is not: the sign of zero does not matter
      rw [if_pos hcc, hcv, add_zero, mul_real hspec ha hb]
      have hne : a.value * b.value ≠ 0 := by
        rcases ha.cases with ⟨h, -⟩ | ⟨-, h⟩
        · exact absurd h hzero.1
        · rcases hb.cases with ⟨h', -⟩ | ⟨-, h'⟩
          · exact absurd h' hzero.2
          · exact mul_ne_zero h h'
      unfold settleReal
      rw [if_neg hne, if_neg hne]
    · rw [if_neg (by rw [hcc]; decide)]
      exact fmaFinite_real hspec ha hb hc hac hbc hcc

end Rsemu.Float
