import Rsemu.Float.Encoding

/-!
# The arithmetic is correctly rounded

`correctlyRounded` says what an operation has to deliver for its exact real result: the result
rounded once on the grid of the destination, an infinity or the largest finite magnitude where
that overflows, and the sign of an exact zero. With subnormals left alone on both sides, every
operation on finite operands delivers just that, for the three interchange formats and for the
80-bit format at every precision control.
-/

namespace Rsemu.Float

open Rounding

attribute [local instance] atLeastTwo_two

noncomputable def overflowing (sign : Bool) (x : ℝ) (spec : Spec) (round : Round) : Datum :=
  if spec.largestValue < spec.rounded (round.mode sign) x then
    if round.mode sign = .down then .num sign spec.largestValue else .inf sign
  else .num sign (spec.rounded (round.mode sign) x)

open Classical in
noncomputable def correctlyRounded (zeroSign : Bool) (z : ℝ) (spec : Spec) (round : Round) : Datum :=
  if z = 0 then .num zeroSign 0 else overflowing (decide (z < 0)) |z| spec round

section Settling

variable {sign : Bool} {x : ℝ} {spec : Spec} {env : Env} {m : Mode}

theorem Spec.rounded_le_largest (hs : spec.Sane) (hx : 0 < x)
    (hrange : spec.rounded m x < 2 ^ (spec.emax + 1)) : spec.rounded m x ≤ spec.largestValue := by
  have hp := hs.two_le_precision
  have hgrid := hs.grid
  have hemax := hs.emax_pos
  have hemin : spec.emin = 1 - spec.emax := rfl
  obtain ⟨top, htop⟩ : ∃ top, top = spec.emax - ((spec.precision : Int) - 1) := ⟨_, rfl⟩
  have hpow : (2 : ℝ) ^ (spec.emax + 1) = 2 ^ spec.precision * 2 ^ top := by
    rw [← zpow_natCast, ← two_zpow_add]
    congr 1
    omega
  have hle := kept_le spec m x
  have hulp : spec.ulp x ≤ top := by
    by_contra hlt
    have hlog : spec.emax < Int.log 2 x := by
      unfold Spec.ulp at hlt
      omega
    have hulp : spec.ulp x ≤ Int.log 2 x := by
      unfold Spec.ulp
      omega
    have := le_onGrid (m := m) (x := x) (u := spec.ulp x) hulp (zpow_log_le hx)
    have hmono := two_zpow_le (show spec.emax + 1 ≤ Int.log 2 x by omega)
    rw [Spec.rounded_eq] at hrange
    linarith
  have hk : (spec.kept m x : ℝ) * 2 ^ spec.ulp x ≤ (2 ^ spec.precision - 1) * 2 ^ top := by
    rcases hulp.lt_or_eq with hlt | heq
    · -- a finer grid than the top one: a whole binade of room
      have hhalf : (2 : ℝ) ^ spec.ulp x ≤ 2 ^ (top - 1) := two_zpow_le (by omega)
      rw [half_place] at hhalf
      have hkle : (spec.kept m x : ℝ) ≤ 2 ^ spec.precision := by exact_mod_cast hle
      have h2 : (2 : ℝ) ≤ 2 ^ spec.precision := by
        calc (2 : ℝ) = 2 ^ 1 := (pow_one _).symm
          _ ≤ 2 ^ spec.precision := pow_le_pow_right₀ (by norm_num) (by omega)
      have htoppos := two_zpow_pos top
      calc (spec.kept m x : ℝ) * 2 ^ spec.ulp x ≤ 2 ^ spec.precision * (1 / 2 * 2 ^ top) :=
            mul_le_mul hkle hhalf (two_zpow_pos _).le (by positivity)
        _ ≤ (2 ^ spec.precision - 1) * 2 ^ top := by nlinarith
    · have hlt : spec.kept m x < 2 ^ spec.precision := by
        rw [Spec.rounded, heq, hpow, mul_lt_mul_iff_left₀ (two_zpow_pos top)] at hrange
        exact_mod_cast hrange
      have hcast : ((spec.kept m x + 1 : Nat) : ℝ) ≤ (2 ^ spec.precision : Nat) := by
        exact_mod_cast hlt
      push_cast at hcast
      rw [heq]
      exact mul_le_mul_of_nonneg_right (by linarith) (two_zpow_pos top).le
  rw [Spec.rounded, Spec.largestValue, ← htop]
  exact hk

theorem fits_largest (hs : spec.Sane) :
    ∃ exp frac, largest spec = .finite exp frac ∧ FitsFinite spec exp frac ∧
      (frac : ℝ) * 2 ^ exp = spec.largestValue := by
  have hp := hs.two_le_precision
  have hple := hs.precision_le
  have hgrid := hs.grid
  have hemax := hs.emax_pos
  have hemin : spec.emin = 1 - spec.emax := rfl
  have hval := largest_value hs.precision_le false
  obtain ⟨frac, hfrac⟩ : ∃ frac, frac = (2 ^ 64 - 1) >>> (64 - spec.precision) := ⟨_, rfl⟩
  have hlarge : largest spec = .finite (spec.emax - ((spec.precision : Int) - 1)) frac := by
    rw [largest, hfrac]
  rw [hlarge] at hval ⊢
  have hvalue : (frac : ℝ) * 2 ^ (spec.emax - ((spec.precision : Int) - 1)) = spec.largestValue :=
    Option.some.inj hval
  have heq : (frac : ℝ) = 2 ^ spec.precision - 1 := by
    exact mul_right_cancel₀ (two_zpow_pos _).ne' hvalue
  have hnat : frac + 1 = 2 ^ spec.precision := by
    have : (frac : ℝ) + 1 = 2 ^ spec.precision := by linarith
    exact_mod_cast this
  have hpow : 2 ^ spec.precision = 2 * 2 ^ (spec.precision - 1) := by
    rw [← Nat.pow_succ']
    congr 1
    omega
  have hlog : frac.log2 = spec.precision - 1 := by
    refine (Nat.log2_eq_iff (by omega)).mpr ⟨by omega, ?_⟩
    omega
  refine ⟨_, frac, rfl, ⟨by omega, by omega, by omega, ?_⟩, hvalue⟩
  omega

theorem settle_datum (hs : spec.Sane) (hx : 0 < x) (hflush : env.flushOutputs = false) :
    (settle sign x spec env).1.Fits spec ∧
      (settle sign x spec env).1.datum = overflowing sign x spec env.round := by
  have hp := hs.two_le_precision
  have hlargest := Spec.pow_le_largestValue hs
  by_cases hk : spec.kept (env.round.mode sign) x = 0
  · have hsettle : (settle sign x spec env).1 = .num sign .zero := by
      unfold settle settled
      rw [if_pos (carry_eq_zero.mpr hk)]
    have hzero : spec.rounded (env.round.mode sign) x = 0 := by
      rw [Spec.rounded, hk, Nat.cast_zero, zero_mul]
    rw [hsettle]
    refine ⟨.zero sign, ?_⟩
    rw [overflowing, hzero, if_neg (not_lt.mpr (le_trans (two_zpow_pos _).le hlargest))]
    rfl
  · set m := env.round.mode sign with hm
    obtain ⟨r, hr⟩ : ∃ r, r = carry spec.precision (spec.kept m x) (spec.ulp x) := ⟨_, rfl⟩
    have hr0 : r.1 ≠ 0 := hr ▸ carry_eq_zero.not.mpr hk
    have hvalue : (r.1 : ℝ) * 2 ^ r.2 = spec.rounded m x := by
      rw [hr, carry_value (by omega), Spec.rounded]
    have hv : 0 < spec.rounded m x :=
      mul_pos (Nat.cast_pos.mpr (Nat.pos_of_ne_zero hk)) (two_zpow_pos _)
    have hlead : r.2 + r.1.log2 = Int.log 2 (spec.rounded m x) := by
      rw [hr]
      exact carry_log (by omega) hk
    by_cases hover : spec.emax < r.2 + r.1.log2
    · have hsettle : (settle sign x spec env).1 =
          .num sign (if toInf env.round sign then .inf else largest spec) := by
        unfold settle settled report
        simp only [← hm, ← hr, if_neg hr0, if_pos hover]
      have hbig : spec.largestValue < spec.rounded m x := by
        rw [hlead] at hover
        exact lt_of_lt_of_le spec.largestValue_lt ((lt_log_iff hv _).mp hover)
      rw [hsettle, overflowing, ← hm, if_pos hbig]
      cases hinf : toInf env.round sign with
      | true =>
        have hdown : ¬ m = .down := by
          rw [hm, ← toInf_eq_false, hinf]
          decide
        rw [if_pos rfl, if_neg hdown]
        exact ⟨.inf sign, rfl⟩
      | false =>
        obtain ⟨exp, frac, hlarge, hfits, hval⟩ := fits_largest hs
        rw [if_neg (by decide), if_pos (toInf_eq_false.mp hinf), hlarge]
        refine ⟨.finite sign hfits, ?_⟩
        rw [Outcome.datum, hval]
    · have hsettle : (settle sign x spec env).1 = .num sign (.finite r.2 r.1) := by
        unfold settle settled report
        simp only [← hm, ← hr, if_neg hr0, if_neg hover, hflush, Bool.and_false,
          Bool.false_eq_true, if_false]
      have hsmall : spec.rounded m x ≤ spec.largestValue := by
        refine Spec.rounded_le_largest hs hx ?_
        rw [hlead] at hover
        exact not_le.mp ((lt_log_iff hv _).not.mp hover)
      rw [hsettle, overflowing, ← hm, if_neg (not_lt.mpr hsmall)]
      have hle := kept_le spec m x
      have hulp : spec.minUlp ≤ spec.ulp x := le_max_right _ _
      refine ⟨.finite sign ⟨Nat.pos_of_ne_zero hr0, ?_, ?_, not_lt.mp hover⟩, ?_⟩
      · rw [hr, carry]
        split
        · exact Nat.pow_lt_pow_right (by decide) (by omega)
        · rename_i hne
          exact lt_of_le_of_ne hle hne
      · rw [hr, carry]
        split
        · omega
        · exact hulp
      · rw [Outcome.datum, hvalue]

theorem settleReal_datum (hs : spec.Sane) (hflush : env.flushOutputs = false) (zeroSign : Bool)
    (z : ℝ) :
    (settleReal zeroSign z spec env).1.Fits spec ∧
      (settleReal zeroSign z spec env).1.datum = correctlyRounded zeroSign z spec env.round := by
  unfold settleReal correctlyRounded
  by_cases hz : z = 0
  · rw [if_pos hz, if_pos hz]
    exact ⟨.zero zeroSign, rfl⟩
  · rw [if_neg hz, if_neg hz]
    exact settle_datum hs (abs_pos.mpr hz) hflush

end Settling

/-- Neither an infinity nor a NaN. -/
def Parts.IsFinite (p : Parts) : Prop := p.cls = .zero ∨ p.cls = .finite

theorem value_negated (p : Parts) : (p.negateIf true).value = -p.value := value_negateIf p true

theorem admitOperand_fst {env : Env} (hin : env.subnormalInputs.flushes = false) (p : Parts)
    (subnormal : Bool) : (admitOperand p subnormal env).1 = p := by
  unfold admitOperand
  rw [hin]
  cases subnormal <;> rfl

theorem Format.numeric_decode {F : Format} {bits : Nat} (h : (F.decode bits).IsFinite) :
    (F.decode bits).Numeric := by
  obtain ⟨hs1, hs2, he1, hw⟩ := F.widths
  obtain ⟨hb1, hb2⟩ := F.bias_bounds
  have hmax := F.expFieldMax_eq
  have hmin := F.minUlp_eq
  have hemin : F.emin = 1 - F.bias := rfl
  have hpow : 2 ^ F.sigBits ≤ 2 ^ 52 := Nat.pow_le_pow_right (by decide) hs2
  unfold Format.decode at h ⊢
  simp only at h ⊢
  obtain ⟨field, hfield⟩ : ∃ f, f = (bits &&& F.mask) >>> F.sigBits &&& F.expFieldMax := ⟨_, rfl⟩
  obtain ⟨frac, hfrac⟩ : ∃ f, f = bits &&& F.mask &&& F.sigMask := ⟨_, rfl⟩
  have hfieldle : field ≤ F.expFieldMax := hfield ▸ Nat.and_le_right
  have hfraclt : frac < 2 ^ F.sigBits := by
    rw [hfrac, Format.sigMask, Nat.one_shiftLeft, Nat.and_two_pow_sub_one_eq_mod]
    exact Nat.mod_lt _ (Nat.two_pow_pos _)
  rw [← hfield, ← hfrac] at h ⊢
  unfold Format.ofFields at h ⊢
  by_cases htop : field = F.expFieldMax
  · -- all ones: an infinity or a NaN
    rw [if_pos htop] at h
    by_cases hz : frac = 0
    · rw [if_pos hz] at h
      exact absurd h (by simp [Parts.IsFinite])
    · rw [if_neg hz] at h
      exact absurd h (by simp [Parts.IsFinite])
  · rw [if_neg htop]
    by_cases h0 : field = 0
    · rw [if_pos h0]
      refine ⟨?_, by simp only; omega, by simp only; omega, by simp only; omega⟩
      by_cases hz : frac = 0
      · exact Or.inl ⟨if_pos hz, hz⟩
      · exact Or.inr ⟨if_neg hz, Nat.pos_of_ne_zero hz⟩
    · have hor : frac ||| 1 <<< F.sigBits = 2 ^ F.sigBits + frac := by
        rw [Nat.or_comm, or_fields hfraclt, Nat.one_mul]
      rw [if_neg h0, hor]
      exact ⟨Or.inr ⟨rfl, by simp only; omega⟩, by simp only; omega, by simp only; omega,
        by simp only; omega⟩

theorem Format.unpack_fst {F : Format} {env : Env} (hin : env.subnormalInputs.flushes = false)
    (bits : Nat) : (F.unpack bits env).1 = F.decode bits := admitOperand_fst hin _ _

theorem F80.numeric_decode {v : F80} {p : Parts} (hp : v.decode = some p) (h : p.IsFinite) :
    p.Numeric := by
  have hsig := v.sig_lt
  have hmin : F80.spec.minUlp = -16445 := by decide
  have hbias : F80.bias = 16383 := rfl
  have hfield : v.expField ≤ 0x7fff := Nat.and_le_right
  unfold F80.decode at hp
  by_cases htop : v.expField = F80.expFieldMax
  · -- all ones: an infinity, a NaN or no value
    rw [if_pos htop] at hp
    split at hp
    · cases hp
    · split at hp
      · exact absurd h (by rw [← Option.some.inj hp]; simp [Parts.IsFinite])
      · exact absurd h (by rw [← Option.some.inj hp]; simp [Parts.IsFinite])
  · rw [if_neg htop] at hp
    by_cases h0 : v.expField = 0
    · rw [if_pos h0] at hp
      rw [← Option.some.inj hp]
      refine ⟨?_, hsig, by simp only; omega, by simp only; omega⟩
      by_cases hz : v.sig = 0
      · exact Or.inl ⟨if_pos hz, hz⟩
      · exact Or.inr ⟨if_neg hz, Nat.pos_of_ne_zero hz⟩
    · rw [if_neg h0] at hp
      split at hp
      · cases hp
      · rename_i hint
        rw [← Option.some.inj hp]
        refine ⟨Or.inr ⟨rfl, Nat.pos_of_ne_zero ?_⟩, hsig, by simp only; omega, by simp only; omega⟩
        intro hz
        simp only at hz
        exact hint (by rw [hz]; rfl)

theorem F80.unpack_eq {env : Env} (hin : env.subnormalInputs.flushes = false) {v : F80} {p : Parts}
    (hp : v.decode = some p) : ∃ flags, v.unpack env = (some p, flags) := by
  unfold F80.unpack
  rw [hp]
  exact ⟨_, Prod.ext (congrArg some (admitOperand_fst hin _ _)) rfl⟩

theorem Precision.spec_sane (pc : Precision) : pc.spec.Sane := by
  cases pc <;> exact ⟨by decide, by decide, by decide, by decide, by decide, by decide⟩

theorem Precision.holds (pc : Precision) : F80.Holds pc.spec := by
  cases pc <;> exact ⟨by decide, by decide, by decide⟩

/-- An operation of an interchange format returned its exact result, correctly rounded. -/
def Format.Delivers (F : Format) (env : Env) (r : Option (Nat × Flags)) (zeroSign : Bool) (z : ℝ) :
    Prop :=
  ∃ bits flags, r = some (bits, flags) ∧
    (F.decode bits).datum = correctlyRounded zeroSign z F.spec env.round

/-- The six operations of an interchange format, on three operands. -/
structure Format.CorrectlyRounded (F : Format) (env : Env) (a b c : Nat) : Prop where
  add : F.Delivers env (F.add a b env) (sumZeroSign (F.decode a).sign (F.decode b).sign env)
    ((F.decode a).value + (F.decode b).value)
  sub : F.Delivers env (F.sub a b env) (sumZeroSign (F.decode a).sign (!(F.decode b).sign) env)
    ((F.decode a).value - (F.decode b).value)
  mul : F.Delivers env (F.mul a b env) ((F.decode a).sign ^^ (F.decode b).sign)
    ((F.decode a).value * (F.decode b).value)
  div : (F.decode b).value ≠ 0 →
    F.Delivers env (F.div a b env) ((F.decode a).sign ^^ (F.decode b).sign)
      ((F.decode a).value / (F.decode b).value)
  sqrt : 0 ≤ (F.decode a).value →
    F.Delivers env (F.sqrt a env) (F.decode a).sign (Real.sqrt (F.decode a).value)
  fma : F.Delivers env (F.fma a b c env)
    (sumZeroSign ((F.decode a).sign ^^ (F.decode b).sign) (F.decode c).sign env)
    ((F.decode a).value * (F.decode b).value + (F.decode c).value)

/-- An operation of the 80-bit format returned its exact result, correctly rounded. -/
def F80.Delivers (pc : Precision) (env : Env) (r : Option (F80 × Flags)) (zeroSign : Bool) (z : ℝ) :
    Prop :=
  ∃ v p flags, r = some (v, flags) ∧ v.decode = some p ∧
    p.datum = correctlyRounded zeroSign z pc.spec env.round

/-- The six operations of the 80-bit format, on three operands and their values. -/
structure F80.CorrectlyRounded (pc : Precision) (env : Env) (a b c : F80) (x y z : Parts) :
    Prop where
  add : F80.Delivers pc env (F80.add a b pc env) (sumZeroSign x.sign y.sign env) (x.value + y.value)
  sub : F80.Delivers pc env (F80.sub a b pc env) (sumZeroSign x.sign (!y.sign) env)
    (x.value - y.value)
  mul : F80.Delivers pc env (F80.mul a b pc env) (x.sign ^^ y.sign) (x.value * y.value)
  div : y.value ≠ 0 →
    F80.Delivers pc env (F80.div a b pc env) (x.sign ^^ y.sign) (x.value / y.value)
  sqrt : 0 ≤ x.value → F80.Delivers pc env (F80.sqrt a pc env) x.sign (Real.sqrt x.value)
  fma : F80.Delivers pc env (F80.fma a b c pc env) (sumZeroSign (x.sign ^^ y.sign) z.sign env)
    (x.value * y.value + z.value)

section Operations

variable {env : Env} (hout : env.flushOutputs = false) (hin : env.subnormalInputs.flushes = false)

include hout in
theorem Format.delivers {F : Format} {zeroSign : Bool} {z : ℝ} (operands : Flags) :
    F.Delivers env (F.deliver (some (settleReal zeroSign z F.spec env)) operands env) zeroSign z := by
  obtain ⟨hfits, hdatum⟩ := settleReal_datum F.spec_sane hout zeroSign z
  obtain ⟨bits, hbits, hread⟩ := decode_encodeOutcome env hfits
  refine ⟨bits, (settleReal zeroSign z F.spec env).2.union operands, ?_, hread.trans hdatum⟩
  unfold Format.deliver
  rw [Option.bind_some, hbits, Option.map_some]

include hout in
theorem F80.delivers {pc : Precision} {zeroSign : Bool} {z : ℝ} (operands : Flags) :
    F80.Delivers pc env (F80.deliver (some (settleReal zeroSign z pc.spec env)) operands env)
      zeroSign z := by
  obtain ⟨hfits, hdatum⟩ := settleReal_datum pc.spec_sane hout zeroSign z
  obtain ⟨v, p, hv, hp, hread⟩ := F80.decode_encode pc.holds env hfits
  refine ⟨v, p, (settleReal zeroSign z pc.spec env).2.union operands, ?_, hp, hread.trans hdatum⟩
  unfold F80.deliver
  rw [Option.bind_some, hv, Option.map_some]

include hin in
theorem F80.binop_eq (spec : Spec) (op : Parts → Parts → Spec → Env → Option (Outcome × Flags))
    {a b : F80} {x y : Parts} (ha : a.decode = some x) (hb : b.decode = some y) :
    ∃ operands, F80.binop a b spec env op = F80.deliver (op x y spec env) operands env := by
  obtain ⟨fa, hfa⟩ := F80.unpack_eq hin ha
  obtain ⟨fb, hfb⟩ := F80.unpack_eq hin hb
  unfold F80.binop
  rw [hfa, hfb]
  exact ⟨_, rfl⟩

include hout hin

theorem Format.correctly_rounded {F : Format} {a b c : Nat} (ha : (F.decode a).IsFinite)
    (hb : (F.decode b).IsFinite) (hc : (F.decode c).IsFinite) : F.CorrectlyRounded env a b c := by
  have hna := Format.numeric_decode ha
  have hnb := Format.numeric_decode hb
  have hnc := Format.numeric_decode hc
  have hspec := F.spec_sane
  refine ⟨?_, ?_, ?_, fun hne => ?_, fun hnonneg => ?_, ?_⟩
  · unfold Format.add
    simp only
    rw [Format.unpack_fst hin, Format.unpack_fst hin, add_real hspec hna hnb]
    exact Format.delivers hout _
  · unfold Format.sub
    simp only
    rw [Format.unpack_fst hin, Format.unpack_fst hin, add_real hspec hna hnb, value_negated,
      ← sub_eq_add_neg]
    exact Format.delivers hout _
  · unfold Format.mul
    simp only
    rw [Format.unpack_fst hin, Format.unpack_fst hin, mul_real hspec hna hnb]
    exact Format.delivers hout _
  · unfold Format.div
    simp only
    rw [Format.unpack_fst hin, Format.unpack_fst hin, div_real hspec hna hnb hne]
    exact Format.delivers hout _
  · unfold Format.sqrt
    simp only
    rw [Format.unpack_fst hin, sqrt_real hspec hna hnonneg]
    exact Format.delivers hout _
  · unfold Format.fma
    simp only
    rw [Format.unpack_fst hin, Format.unpack_fst hin, Format.unpack_fst hin,
      fma_real hspec hna hnb hnc]
    exact Format.delivers hout _

theorem F80.correctly_rounded (pc : Precision) {a b c : F80} {x y z : Parts}
    (ha : a.decode = some x) (hb : b.decode = some y) (hc : c.decode = some z) (hx : x.IsFinite)
    (hy : y.IsFinite) (hz : z.IsFinite) : F80.CorrectlyRounded pc env a b c x y z := by
  have hnx := F80.numeric_decode ha hx
  have hny := F80.numeric_decode hb hy
  have hnz := F80.numeric_decode hc hz
  have hspec := pc.spec_sane
  refine ⟨?_, ?_, ?_, fun hne => ?_, fun hnonneg => ?_, ?_⟩
  · obtain ⟨operands, hop⟩ := F80.binop_eq hin pc.spec
      (fun x y s e => Float.add x y false s e) ha hb
    rw [add_real hspec hnx hny] at hop
    unfold F80.add F80.addTo
    rw [hop]
    exact F80.delivers hout operands
  · obtain ⟨operands, hop⟩ := F80.binop_eq hin pc.spec
      (fun x y s e => Float.add x y true s e) ha hb
    rw [add_real hspec hnx hny, value_negated, ← sub_eq_add_neg] at hop
    unfold F80.sub F80.subTo
    rw [hop]
    exact F80.delivers hout operands
  · obtain ⟨operands, hop⟩ := F80.binop_eq hin pc.spec Float.mul ha hb
    rw [mul_real hspec hnx hny] at hop
    unfold F80.mul F80.mulTo
    rw [hop]
    exact F80.delivers hout operands
  · obtain ⟨operands, hop⟩ := F80.binop_eq hin pc.spec Float.div ha hb
    rw [div_real hspec hnx hny hne] at hop
    unfold F80.div F80.divTo
    rw [hop]
    exact F80.delivers hout operands
  · obtain ⟨fa, hfa⟩ := F80.unpack_eq hin ha
    unfold F80.sqrt F80.sqrtTo
    rw [hfa]
    simp only
    rw [sqrt_real hspec hnx hnonneg]
    exact F80.delivers hout fa
  · obtain ⟨fa, hfa⟩ := F80.unpack_eq hin ha
    obtain ⟨fb, hfb⟩ := F80.unpack_eq hin hb
    obtain ⟨fc, hfc⟩ := F80.unpack_eq hin hc
    unfold F80.fma
    rw [hfa, hfb, hfc]
    simp only
    rw [fma_real hspec hnx hny hnz]
    exact F80.delivers hout _

end Operations

/--
**Soft-float arithmetic is correctly rounded.** With subnormals left alone, every operation
on finite operands returns, and what it returns is the exact real result rounded once: for
binary16, binary32 and binary64, and for the 80-bit format at every precision control.
-/
theorem arithmetic_correctly_rounded {env : Env} (hout : env.flushOutputs = false)
    (hin : env.subnormalInputs.flushes = false) :
    (∀ (F : Format) (a b c : Nat), (F.decode a).IsFinite → (F.decode b).IsFinite →
      (F.decode c).IsFinite → F.CorrectlyRounded env a b c) ∧
    ∀ (pc : Precision) (a b c : F80) (x y z : Parts), a.decode = some x → b.decode = some y →
      c.decode = some z → x.IsFinite → y.IsFinite → z.IsFinite →
      F80.CorrectlyRounded pc env a b c x y z :=
  ⟨fun _ _ _ _ ha hb hc => Format.correctly_rounded hout hin ha hb hc,
    fun pc _ _ _ _ _ _ ha hb hc hx hy hz => F80.correctly_rounded hout hin pc ha hb hc hx hy hz⟩

/-- One third in binary32: one divided by three. -/
theorem third_correctly_rounded :
    Format.b32.decode 0x40400000 = ⟨false, -22, 12582912, .finite, false⟩ ∧
      Format.b32.CorrectlyRounded .riscv 0x3f800000 0x40400000 0x3f800000 :=
  ⟨by decide, (@arithmetic_correctly_rounded .riscv rfl rfl).1 .b32 _ _ _
    (Or.inr (by decide)) (Or.inr (by decide)) (Or.inr (by decide))⟩

end Rsemu.Float
