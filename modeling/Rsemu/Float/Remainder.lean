import Rsemu.Float.Correct

/-!
# The partial remainder

`FPREM` and `FPREM1` of the 80-bit format. Both significands are brought up to bit 63, so that
the difference of the exponents is the difference of the binades. Less than 64 binades apart
the reduction is done in one step; further apart it takes away 63 of them and says that it is
incomplete, for software to execute the instruction again on its own result.

One step is exact (`remainder_step`): what it delivers is the dividend less a multiple of the
divisor, which the format can hold, so nothing is rounded and no exception but the one for a
denormal operand is raised.
-/

namespace Rsemu.Float

open Rounding

attribute [local instance] atLeastTwo_two

def leadingZeros (v : Nat) : Nat := if v = 0 then 64 else 63 - v.log2

def norm (p : Parts) : Option (Int × Nat) :=
  let n := leadingZeros p.frac
  (i32 (p.exp - n)).bind fun exp => (shl64 p.frac n).map fun frac => (exp, frac)

/-- The outcome of one partial step. -/
structure Remainder where
  value : F80
  flags : Flags
  /-- The low three bits of the quotient; meaningless when the reduction is incomplete. -/
  quotient : Nat
  /-- The reduction is only partial: `C2` in the status word. -/
  incomplete : Bool
  deriving DecidableEq

def assemble (r : Option (Outcome × Flags)) (operands : Flags) (quotient : Nat) (incomplete : Bool)
    (env : Env) : Option Remainder :=
  r.bind fun r => (F80.encode r.1 env).map fun v => ⟨v, r.2.union operands, quotient, incomplete⟩

/--
Under `ieee` the quotient is rounded to nearest, ties to even, which turns the remainder
negative when it was more than half the divisor: the sign, the quotient and the remainder.
-/
def roundQuotient (ieee sign : Bool) (q r den : Nat) : Option (Bool × Nat × Nat) :=
  if ieee then
    (u128 (r * 2)).bind fun twice =>
      if den < twice ∨ twice = den ∧ q &&& 1 = 1 then
        (u128 (q + 1)).map fun q => (!sign, q, den - r)
      else some (sign, q, r)
  else some (sign, q, r)

def alignOperands (d : Int) (na nb : Int × Nat) : Option (Nat × Nat × Int) :=
  if 0 ≤ d then (u128 (na.2 <<< d.toNat)).map fun n => (n, nb.2, nb.1)
  else (u128 (nb.2 <<< 1)).map fun den => (na.2, den, na.1)

def reducePartly (sign : Bool) (d : Int) (na nb : Int × Nat) (operands : Flags) (env : Env) :
    Option Remainder :=
  (i32 (d - 63)).bind fun k =>
    (u128 (na.2 <<< 63)).bind fun n =>
      (i32 (nb.1 + k)).bind fun exp =>
        assemble (roundExact sign exp (n % nb.2) F80.spec env) operands 0 true env

/-- The last step, with the bits of the quotient. -/
def reduceFully (ieee sign : Bool) (d : Int) (na nb : Int × Nat) (operands : Flags) (env : Env) :
    Option Remainder :=
  (alignOperands d na nb).bind fun s =>
    (roundQuotient ieee sign (s.1 / s.2.1) (s.1 % s.2.1) s.2.1).bind fun q =>
      assemble (roundExact q.1 s.2.2 q.2.2 F80.spec env) operands (q.2.1 &&& 7) false env

namespace F80

/-- The remainder of `a / b`, as `FPREM` (`ieee` clear) or `FPREM1` (set). -/
def remainder (a b : F80) (ieee : Bool) (env : Env) : Option Remainder :=
  let ua := unpack a env
  let ub := unpack b env
  let operands := ua.2.union ub.2
  match ua.1, ub.1 with
  | some pa, some pb =>
    match nanResult [pa, pb] env with
    | some r => assemble (some r) operands 0 false env
    | none =>
      if pa.cls = .inf ∨ pb.cls = .zero then
        assemble (some (.defaultNan, { invalid := true })) operands 0 false env
      else if pa.cls = .zero ∨ pb.cls = .inf then some ⟨a, operands, 0, false⟩
      else
        (norm pa).bind fun na =>
          (norm pb).bind fun nb =>
            (i32 (na.1 - nb.1)).bind fun d =>
              if 64 ≤ d then reducePartly pa.sign d na nb operands env
              -- the dividend is less than half the divisor
              else if d ≤ -2 then some ⟨a, operands, 0, false⟩
              else reduceFully ieee pa.sign d na nb operands env
  | _, _ => assemble (some (.defaultNan, { invalid := true })) operands 0 false env

end F80

/-- Nothing is raised but, it may be, the flag of a denormal operand. -/
structure Flags.Quiet (f : Flags) : Prop where
  invalid : f.invalid = false
  divByZero : f.divByZero = false
  overflow : f.overflow = false
  underflow : f.underflow = false
  inexact : f.inexact = false

namespace F80

/-- The value decodes to the number `x` with this sign. -/
def Is (v : F80) (sign : Bool) (x : ℝ) : Prop := ∃ p, v.decode = some p ∧ p.datum = .num sign x

/-- A magnitude on the grid of the format and in its range. -/
structure Magnitude (x : ℝ) : Prop where
  grid : ∃ n : ℕ, x = n * 2 ^ spec.minUlp
  lt : x < 2 ^ (spec.emax + 1)

end F80

variable {p : Parts}

theorem Parts.datum_eq (h : p.IsFinite) : p.datum = .num p.sign (p.frac * 2 ^ p.exp) := by
  unfold Parts.datum
  rcases h with h | h <;> rw [h]

theorem Parts.of_datum {sign : Bool} {x : ℝ} (h : p.datum = .num sign x) :
    p.IsFinite ∧ p.sign = sign ∧ (p.frac : ℝ) * 2 ^ p.exp = x := by
  have hfin : p.IsFinite := by
    unfold Parts.datum at h
    unfold Parts.IsFinite
    cases hc : p.cls <;> rw [hc] at h <;> simp at h ⊢
  rw [Parts.datum_eq hfin] at h
  injection h with hs hx
  exact ⟨hfin, hs, hx⟩

namespace F80

theorem exp_decode {v : F80} (hp : v.decode = some p) (h : p.IsFinite) :
    spec.minUlp ≤ p.exp ∧ p.exp + 64 ≤ spec.emax + 1 := by
  have hmin : spec.minUlp = -16445 := by decide
  have hmax : spec.emax = 16383 := rfl
  have hbias : bias = 16383 := rfl
  have hfield : v.expField ≤ 0x7fff := Nat.and_le_right
  have htop : expFieldMax = 0x7fff := rfl
  unfold decode at hp
  simp only at hp
  split at hp
  · -- all ones: an infinity, a NaN or no value
    split at hp
    · cases hp
    · split at hp <;> exact absurd h (by rw [← Option.some.inj hp]; simp [Parts.IsFinite])
  · split at hp
    · rw [← Option.some.inj hp]
      simp only
      omega
    · split at hp
      · cases hp
      · rw [← Option.some.inj hp]
        simp only
        omega

theorem Is.magnitude {v : F80} {sign : Bool} {x : ℝ} (h : v.Is sign x) : Magnitude x := by
  obtain ⟨p, hp, hd⟩ := h
  obtain ⟨hfin, -, rfl⟩ := Parts.of_datum hd
  obtain ⟨hge, hle⟩ := exp_decode hp hfin
  have hlt := (numeric_decode hp hfin).frac_lt
  obtain ⟨n, hn⟩ : ∃ n : ℕ, p.exp - spec.minUlp = n := ⟨_, (Int.toNat_of_nonneg (by omega)).symm⟩
  refine ⟨⟨p.frac * 2 ^ n, (shifted_value p.exp (by omega)).symm⟩, ?_⟩
  have hfrac : (p.frac : ℝ) < 2 ^ (64 : Int) := by exact_mod_cast hlt
  calc (p.frac : ℝ) * 2 ^ p.exp < 2 ^ (64 : Int) * 2 ^ p.exp :=
        mul_lt_mul_of_pos_right hfrac (two_zpow_pos _)
    _ = 2 ^ (64 + p.exp) := (two_zpow_add _ _).symm
    _ ≤ 2 ^ (spec.emax + 1) := two_zpow_le (by omega)

theorem Magnitude.of_sub {x y z : ℝ} (hx : Magnitude x) (hy : Magnitude y) (m : ℕ) (h0 : 0 ≤ z)
    (hle : z ≤ x) (hz : z = x - m * y ∨ z = m * y - x) : Magnitude z := by
  obtain ⟨i, hi⟩ := hx.grid
  obtain ⟨j, hj⟩ := hy.grid
  have hu := two_zpow_pos spec.minUlp
  refine ⟨?_, lt_of_le_of_lt hle hx.lt⟩
  have hnat : ∀ {p q : ℕ}, z = p * 2 ^ spec.minUlp - q * 2 ^ spec.minUlp →
      ∃ n : ℕ, z = n * 2 ^ spec.minUlp := by
    intro p q hpq
    have hqp : q ≤ p := by
      rw [hpq, ← sub_mul] at h0
      have := nonneg_of_mul_nonneg_left h0 hu
      exact_mod_cast sub_nonneg.mp this
    refine ⟨p - q, ?_⟩
    rw [hpq, Nat.cast_sub hqp]
    ring
  rcases hz with hz | hz
  · exact hnat (p := i) (q := m * j) (by rw [hz, hi, hj]; push_cast; ring)
  · exact hnat (p := m * j) (q := i) (by rw [hz, hi, hj]; push_cast; ring)

theorem Magnitude.fits {r : ℕ} {scale : Int} (h : Magnitude (r * 2 ^ scale)) (hpos : 0 < r)
    (hlt : r < 2 ^ 64) :
    ∃ exp frac, FitsFinite spec exp frac ∧ (r : ℝ) * 2 ^ scale = frac * 2 ^ exp := by
  have hp : spec.precision = 64 := rfl
  -- the exponent of the leading bit, from the bound on the value
  have hlead : ∀ {exp : Int} {frac : ℕ}, 0 < frac → (r : ℝ) * 2 ^ scale = frac * 2 ^ exp →
      exp + frac.log2 ≤ spec.emax := by
    intro exp frac hf hv
    have hle : ((2 ^ frac.log2 : ℕ) : ℝ) ≤ frac := by exact_mod_cast Nat.log2_self_le hf.ne'
    have hbelow : (2 : ℝ) ^ (exp + frac.log2) < 2 ^ (spec.emax + 1) := by
      calc (2 : ℝ) ^ (exp + frac.log2) = ((2 ^ frac.log2 : ℕ) : ℝ) * 2 ^ exp := by
            rw [add_comm, two_zpow_add, zpow_natCast]
            push_cast
            rfl
        _ ≤ frac * 2 ^ exp := mul_le_mul_of_nonneg_right hle (two_zpow_pos _).le
        _ < 2 ^ (spec.emax + 1) := hv ▸ h.lt
    have := (zpow_lt_zpow_iff_right₀ (by norm_num : (1 : ℝ) < 2)).mp hbelow
    omega
  by_cases hge : spec.minUlp ≤ scale
  · exact ⟨scale, r, ⟨hpos, hp ▸ hlt, hge, hlead hpos rfl⟩, rfl⟩
  · -- below the grid: the low bits are clear, and the grid's own integer is smaller
    obtain ⟨n, hn⟩ := h.grid
    obtain ⟨i, hi⟩ : ∃ i : ℕ, spec.minUlp - i = scale :=
      ⟨(spec.minUlp - scale).toNat, by rw [Int.toNat_of_nonneg (by omega)]; omega⟩
    have hr : r = n * 2 ^ i := by
      have hval : ((n * 2 ^ i : ℕ) : ℝ) * 2 ^ scale = n * 2 ^ spec.minUlp :=
        shifted_value spec.minUlp hi
      rw [← hn] at hval
      have := mul_right_cancel₀ (two_zpow_pos scale).ne' hval
      exact_mod_cast this.symm
    have hnpos : 0 < n := Nat.pos_of_ne_zero fun h0 => by
      rw [hr, h0, Nat.zero_mul] at hpos
      exact absurd hpos (lt_irrefl 0)
    have hnle : n ≤ r := hr ▸ Nat.le_mul_of_pos_right n (Nat.two_pow_pos i)
    exact ⟨spec.minUlp, n, ⟨hnpos, hp ▸ lt_of_le_of_lt hnle hlt, le_refl _, hlead hnpos hn⟩, hn⟩

end F80

theorem settle_exact {spec : Spec} {env : Env} {exp : Int} {frac : ℕ} (hs : spec.Sane)
    (hout : env.flushOutputs = false) (sign : Bool) (h : FitsFinite spec exp frac) :
    ∃ e f, settle sign (frac * 2 ^ exp) spec env = (.num sign (.finite e f), .none) ∧
      FitsFinite spec e f ∧ (f : ℝ) * 2 ^ e = frac * 2 ^ exp := by
  have hp := hs.two_le_precision
  have hge := h.exp_ge
  have hlog : frac.log2 < spec.precision := (Nat.log2_lt h.frac_pos.ne').mpr h.frac_lt
  obtain ⟨x, hx⟩ : ∃ x : ℝ, x = frac * 2 ^ exp := ⟨_, rfl⟩
  have hlead : Int.log 2 x = exp + frac.log2 := by
    obtain ⟨hlo, hhi⟩ := log2_bounds (Sticky.exact frac) h.frac_pos (Or.inl rfl)
    have hnext : exp + (frac.log2 : Int) + 1 = ((frac.log2 + 1 : ℕ) : Int) + exp := by
      push_cast
      ring
    refine log_eq ?_ ?_
    · rw [hx, add_comm, two_zpow_add, zpow_natCast]
      exact mul_le_mul_of_nonneg_right hlo (two_zpow_pos exp).le
    · rw [hx, hnext, two_zpow_add, zpow_natCast]
      exact mul_lt_mul_of_pos_right hhi (two_zpow_pos exp)
  obtain ⟨i, hi⟩ : ∃ i : ℕ, exp - i = spec.ulp x := by
    have hle : spec.ulp x ≤ exp := by
      unfold Spec.ulp
      omega
    exact ⟨(exp - spec.ulp x).toNat, by rw [Int.toNat_of_nonneg (by omega)]; omega⟩
  have hval : ((frac * 2 ^ i : ℕ) : ℝ) * 2 ^ spec.ulp x = x := by
    rw [shifted_value exp hi, hx]
  have hscaled : x / 2 ^ spec.ulp x = (frac * 2 ^ i : ℕ) :=
    (div_eq_iff (two_zpow_pos _).ne').mpr hval.symm
  have hkept : spec.kept (env.round.mode sign) x = frac * 2 ^ i := by
    rw [Spec.kept, hscaled, roundNat_natCast]
  have hpos : 0 < frac * 2 ^ i := Nat.mul_pos h.frac_pos (Nat.two_pow_pos i)
  have hlt : frac * 2 ^ i < 2 ^ spec.precision := by
    have := scaled_lt spec (x := x)
    rw [hscaled] at this
    exact_mod_cast this
  have hcarry : carry spec.precision (frac * 2 ^ i) (spec.ulp x) = (frac * 2 ^ i, spec.ulp x) :=
    if_neg hlt.ne
  have hlast : spec.ulp x + (frac * 2 ^ i).log2 = exp + frac.log2 := by
    have := carry_log (u := spec.ulp x) (p := spec.precision) (by omega) hpos.ne'
    rw [hcarry, hval, hlead] at this
    exact this
  have hfits : FitsFinite spec (spec.ulp x) (frac * 2 ^ i) :=
    ⟨hpos, hlt, le_max_right _ _, hlast ▸ h.lead_le⟩
  refine ⟨spec.ulp x, frac * 2 ^ i, ?_, hfits, hx ▸ hval⟩
  rw [← hx]
  unfold settle settled report
  simp only [hkept, hcarry, if_neg hpos.ne', if_neg (not_lt.mpr hfits.lead_le), hval, hout,
    ne_eq, not_true_eq_false, decide_false, Bool.and_false, Bool.false_eq_true, if_false]
  rfl

theorem F80.spec_sane : F80.spec.Sane :=
  ⟨by decide, by decide, by decide, by decide, by decide, by decide⟩

theorem F80.spec_holds : F80.Holds F80.spec := ⟨by decide, rfl, rfl⟩

theorem Flags.none_union (f : Flags) : Flags.none.union f = f := by
  simp [Flags.union, Flags.none]

theorem assemble_exact {env : Env} (hout : env.flushOutputs = false) (sign : Bool) {scale : Int}
    {r : ℕ} (hlt : r < 2 ^ 64) (hmag : F80.Magnitude (r * 2 ^ scale))
    (hscale : -2 ^ 29 ≤ scale ∧ scale ≤ 2 ^ 29) (operands : Flags) (quotient : Nat)
    (incomplete : Bool) :
    ∃ v, assemble (roundExact sign scale r F80.spec env) operands quotient incomplete env =
      some ⟨v, operands, quotient, incomplete⟩ ∧ v.Is sign (r * 2 ^ scale) := by
  have hdeliver : ∀ {out : Outcome}, out.Fits F80.spec →
      roundExact sign scale r F80.spec env = some (out, .none) →
      out.datum = .num sign (r * 2 ^ scale) →
      ∃ v, assemble (roundExact sign scale r F80.spec env) operands quotient incomplete env =
        some ⟨v, operands, quotient, incomplete⟩ ∧ v.Is sign (r * 2 ^ scale) := by
    intro out hfits hround hdatum
    obtain ⟨v, p, hv, hp, hread⟩ := F80.decode_encode F80.spec_holds env hfits
    refine ⟨v, ?_, p, hp, hread.trans hdatum⟩
    unfold assemble
    rw [hround, Option.bind_some, hv, Option.map_some, Flags.none_union]
  rcases Nat.eq_zero_or_pos r with rfl | hpos
  · exact hdeliver (.zero sign) rfl (by simp [Outcome.datum])
  · obtain ⟨exp, frac, hfits, hval⟩ := hmag.fits hpos hlt
    obtain ⟨e, f, hsettle, hfits', hval'⟩ := settle_exact F80.spec_sane hout sign hfits
    refine hdeliver (.finite sign hfits') ?_ ?_
    · rw [roundExact_settles F80.spec_sane (Sticky.exact r) hpos (by omega) (Or.inl rfl) hscale,
        hval, hsettle]
    · rw [Outcome.datum, hval', hval]

/-- A number other than zero, normalised. -/
structure Operand (v : F80) (sign : Bool) (x : ℝ) (p : Parts) (n : Int × Nat) : Prop where
  decode : v.decode = some p
  cls : p.cls = .finite
  sign_eq : p.sign = sign
  norm_eq : norm p = some n
  value : (n.2 : ℝ) * 2 ^ n.1 = x
  magnitude : F80.Magnitude x
  sig_ge : 2 ^ 63 ≤ n.2
  sig_lt : n.2 < 2 ^ 64
  exp_ge : -2 ^ 21 ≤ n.1
  exp_le : n.1 ≤ 2 ^ 20

theorem norm_normalized {q : Parts} (hcls : p.cls = .finite) (hpos : 0 < p.frac)
    (hq : p.normalized = some q) (hlt : q.frac < 2 ^ 64) : norm p = some (q.exp, q.frac) := by
  unfold Parts.normalized at hq
  rw [if_pos ⟨hcls, hpos.ne'⟩] at hq
  obtain ⟨e, he, rfl⟩ := Option.map_eq_some_iff.mp hq
  simp only [Nat.shiftLeft_eq] at hlt ⊢
  unfold norm leadingZeros
  rw [if_neg hpos.ne']
  simp only
  rw [he, Option.bind_some, shl64_eq rfl (by omega) hlt, Option.map_some]

theorem F80.Is.operand {v : F80} {sign : Bool} {x : ℝ} (h : v.Is sign x) (hx : 0 < x) :
    ∃ p n, Operand v sign x p n := by
  have hmag := h.magnitude
  obtain ⟨p, hp, hd⟩ := h
  obtain ⟨hfin, hsign, hval⟩ := Parts.of_datum hd
  have hnum := F80.numeric_decode hp hfin
  have hne : p.frac ≠ 0 := by
    intro h0
    rw [h0, Nat.cast_zero, zero_mul] at hval
    exact absurd hval hx.ne
  have hcls : p.cls = .finite := hnum.cls.resolve_left (fun h => hne h.2) |>.1
  obtain ⟨q, hq, hnorm, -, hqval⟩ := normalized_spec hnum hcls
  exact ⟨p, (q.exp, q.frac), hp, hcls, hsign,
    norm_normalized hcls (Nat.pos_of_ne_zero hne) hq hnorm.frac_lt,
    hqval.trans hval, hmag, hnorm.frac_ge, hnorm.frac_lt, hnorm.exp_ge, hnorm.exp_le⟩

theorem Operand.bounds {v : F80} {sign : Bool} {x : ℝ} {n : Int × Nat} (h : Operand v sign x p n) :
    (2 : ℝ) ^ (n.1 + 63) ≤ x ∧ x < 2 ^ (n.1 + 64) := by
  have hlo : (2 : ℝ) ^ (63 : Int) ≤ n.2 := by exact_mod_cast h.sig_ge
  have hhi : (n.2 : ℝ) < 2 ^ (64 : Int) := by exact_mod_cast h.sig_lt
  have hpos := two_zpow_pos n.1
  rw [← h.value, add_comm n.1, add_comm n.1, two_zpow_add, two_zpow_add]
  exact ⟨mul_le_mul_of_nonneg_right hlo hpos.le, mul_lt_mul_of_pos_right hhi hpos⟩

theorem F80.unpack_quiet {env : Env} (hin : env.subnormalInputs.flushes = false) {v : F80}
    (hp : v.decode = some p) : ∃ f : Flags, v.unpack env = (some p, f) ∧ f.Quiet := by
  unfold F80.unpack admitOperand
  rw [hp]
  simp only [hin, Bool.false_eq_true, if_false]
  split
  · exact ⟨_, rfl, rfl, rfl, rfl, rfl, rfl⟩
  · exact ⟨_, rfl, rfl, rfl, rfl, rfl, rfl⟩

theorem Flags.Quiet.union {f g : Flags} (hf : f.Quiet) (hg : g.Quiet) : (f.union g).Quiet :=
  ⟨by simp [Flags.union, hf.invalid, hg.invalid],
    by simp [Flags.union, hf.divByZero, hg.divByZero],
    by simp [Flags.union, hf.overflow, hg.overflow],
    by simp [Flags.union, hf.underflow, hg.underflow],
    by simp [Flags.union, hf.inexact, hg.inexact]⟩

def quotientMode (ieee : Bool) : Mode := if ieee then .even else .down

/-- The last step: what is left of the magnitude `x` by the rounded quotient times `y`. -/
structure Completes (ieee sign : Bool) (x y : ℝ) (r : Remainder) : Prop where
  incomplete : r.incomplete = false
  quiet : r.flags.Quiet
  quotient : r.quotient = roundNat (quotientMode ieee) (x / y) % 8
  value : ∃ s m, r.value.Is s m ∧
    signed s m = signed sign (x - roundNat (quotientMode ieee) (x / y) * y) ∧ (m = 0 → s = sign)

/-- A partial step: an even multiple `m` of `y` is taken from `x`, and less than `2^k y` is left. -/
structure Shortens (sign : Bool) (x y : ℝ) (k m : ℕ) (r : Remainder) : Prop where
  incomplete : r.incomplete = true
  quiet : r.flags.Quiet
  value : r.value.Is sign (x - m * y)
  nonneg : 0 ≤ x - m * y
  lt : x - m * y < 2 ^ k * y
  far : 2 ^ (62 + k) * y < x

theorem signed_congr {s t : Bool} {x y : ℝ} (h : s = t ∧ x = y ∨ s = !t ∧ x = -y) :
    signed s x = signed t y := by
  rcases h with ⟨rfl, rfl⟩ | ⟨rfl, rfl⟩
  · rfl
  · cases t <;> simp [signed]

theorem roundQuotient_spec (ieee sign : Bool) {n den : ℕ} (hden : 0 < den) (hn : n < 2 ^ 127)
    (hr : n % den < 2 ^ 64) :
    ∃ s q r, roundQuotient ieee sign (n / den) (n % den) den = some (s, q, r) ∧
      q = roundNat (quotientMode ieee) ((n : ℝ) / den) ∧ r ≤ n % den ∧
      (s = sign ∧ n = q * den + r ∨ s = !sign ∧ n + r = q * den) ∧ (r = 0 → s = sign) := by
  have hsplit := Nat.div_add_mod' n den
  have hmod := Nat.mod_lt n hden
  have hdiv : n / den ≤ n := Nat.div_le_self n den
  unfold roundQuotient quotientMode
  cases ieee with
  | false =>
    refine ⟨sign, n / den, n % den, rfl, ?_, le_refl _, Or.inl ⟨rfl, hsplit.symm⟩, fun _ => rfl⟩
    rw [if_neg (by decide), roundNat_down, Nat.floor_div_eq_div]
  | true =>
    rw [if_pos rfl, if_pos rfl, u128_eq (by omega), Option.bind_some, roundNat_even_div n hden,
      Nat.and_one_is_mod]
    by_cases hup : den < n % den * 2 ∨ n % den * 2 = den ∧ n / den % 2 = 1
    · rw [if_pos hup, if_pos hup, u128_eq (by omega), Option.map_some]
      refine ⟨!sign, n / den + 1, den - n % den, rfl, rfl, by omega, Or.inr ⟨rfl, ?_⟩, by omega⟩
      rw [Nat.add_mul, Nat.one_mul]
      omega
    · rw [if_neg hup, if_neg hup]
      exact ⟨sign, n / den, n % den, rfl, rfl, le_refl _, Or.inl ⟨rfl, hsplit.symm⟩, fun _ => rfl⟩

section Step

variable {a b : F80} {s t : Bool} {x y : ℝ} {pa pb : Parts} {na nb : Int × Nat} {env : Env}
  (ha : Operand a s x pa na) (hb : Operand b t y pb nb)

include ha hb

theorem alignOperands_spec {d : Int} (hd : d = na.1 - nb.1) (hlo : -1 ≤ d) (hhi : d < 64) :
    ∃ n den e, alignOperands d na nb = some (n, den, e) ∧ (n : ℝ) * 2 ^ e = x ∧
      (den : ℝ) * 2 ^ e = y ∧ n < 2 ^ 127 ∧ 0 < den ∧ n % den < 2 ^ 64 ∧
      -2 ^ 21 ≤ e ∧ e ≤ 2 ^ 20 := by
  have hage := ha.sig_ge
  have halt := ha.sig_lt
  have hbge := hb.sig_ge
  have hblt := hb.sig_lt
  unfold alignOperands
  by_cases h0 : 0 ≤ d
  · obtain ⟨i, hi⟩ : ∃ i : ℕ, d = i := ⟨_, (Int.toNat_of_nonneg h0).symm⟩
    have hfit : na.2 * 2 ^ i < 2 ^ 127 :=
      calc na.2 * 2 ^ i < 2 ^ 64 * 2 ^ i := Nat.mul_lt_mul_of_pos_right halt (Nat.two_pow_pos i)
        _ ≤ 2 ^ 64 * 2 ^ 63 := Nat.mul_le_mul_left _ (Nat.pow_le_pow_right (by decide) (by omega))
        _ = 2 ^ 127 := rfl
    rw [if_pos h0, hi, Int.toNat_natCast, Nat.shiftLeft_eq, u128_eq (by omega), Option.map_some]
    exact ⟨_, _, _, rfl, by rw [shifted_value na.1 (by omega), ha.value], hb.value, hfit, by omega,
      lt_trans (Nat.mod_lt _ (by omega)) hblt, hb.exp_ge, hb.exp_le⟩
  · rw [if_neg h0, Nat.shiftLeft_eq, u128_eq (by omega), Option.map_some]
    refine ⟨_, _, _, rfl, ha.value, ?_, by omega, by omega,
      lt_of_le_of_lt (Nat.mod_le _ _) halt, ha.exp_ge, ha.exp_le⟩
    rw [shifted_value nb.1 (by omega), hb.value]

theorem quotient_small (hd : na.1 - nb.1 ≤ -2) (m : Mode) (hm : m ≠ .up) :
    roundNat m (x / y) = 0 := by
  have hxlt := ha.bounds.2
  have hylo := hb.bounds.1
  have hx : 0 < x := lt_of_lt_of_le (two_zpow_pos _) ha.bounds.1
  have hy : 0 < y := lt_of_lt_of_le (two_zpow_pos _) hylo
  have hhalf : x / y < 1 / 2 := by
    rw [div_lt_div_iff₀ hy two_pos, one_mul]
    calc x * 2 < 2 ^ (na.1 + 64) * 2 := mul_lt_mul_of_pos_right hxlt two_pos
      _ = 2 ^ (na.1 + 65) := by
        rw [show na.1 + 65 = na.1 + 64 + 1 by ring, two_zpow_add (na.1 + 64) 1, zpow_one]
      _ ≤ 2 ^ (nb.1 + 63) := two_zpow_le (by omega)
      _ ≤ y := hylo
  rw [roundNat_small m (div_pos hx hy) hhalf, if_neg hm]

theorem remainder_operands (hin : env.subnormalInputs.flushes = false) (ieee : Bool) :
    ∃ operands : Flags, operands.Quiet ∧ F80.remainder a b ieee env =
      if 64 ≤ na.1 - nb.1 then reducePartly s (na.1 - nb.1) na nb operands env
      else if na.1 - nb.1 ≤ -2 then some ⟨a, operands, 0, false⟩
      else reduceFully ieee s (na.1 - nb.1) na nb operands env := by
  obtain ⟨fa, hfa, hqa⟩ := F80.unpack_quiet hin ha.decode
  obtain ⟨fb, hfb, hqb⟩ := F80.unpack_quiet hin hb.decode
  have hae := ha.exp_ge
  have hae' := ha.exp_le
  have hbe := hb.exp_ge
  have hbe' := hb.exp_le
  have hnan : nanResult [pa, pb] env = none := by
    refine nanResult_none ?_ env
    intro p hp
    rcases List.mem_pair.mp hp with rfl | rfl
    · rw [ha.cls]
      decide
    · rw [hb.cls]
      decide
  refine ⟨fa.union fb, hqa.union hqb, ?_⟩
  unfold F80.remainder
  simp only [hfa, hfb, hnan]
  rw [if_neg (by rw [ha.cls, hb.cls]; decide), if_neg (by rw [ha.cls, hb.cls]; decide),
    ha.norm_eq, Option.bind_some, hb.norm_eq, Option.bind_some, i32_eq (by omega),
    Option.bind_some, ha.sign_eq]

theorem reducePartly_spec (hout : env.flushOutputs = false) {k : ℕ} (hk : 1 ≤ k)
    (hd : na.1 - nb.1 = 63 + k) {operands : Flags} (hquiet : operands.Quiet) :
    ∃ r, reducePartly s (na.1 - nb.1) na nb operands env = some r ∧
      Shortens s x y k (na.2 * 2 ^ 63 / nb.2 * 2 ^ k) r := by
  have halt := ha.sig_lt
  have hbge := hb.sig_ge
  have hae := ha.exp_le
  have hbe := hb.exp_ge
  have hbe' := hb.exp_le
  obtain ⟨n, hn⟩ : ∃ n, n = na.2 * 2 ^ 63 := ⟨_, rfl⟩
  have hmod : n % nb.2 < nb.2 := Nat.mod_lt _ (by omega)
  have hu := two_zpow_pos (nb.1 + k)
  have hx : (n : ℝ) * 2 ^ (nb.1 + k) = x := by
    rw [← ha.value, hn]
    exact shifted_value na.1 (by omega)
  have hy : (nb.2 : ℝ) * 2 ^ (nb.1 + k) = 2 ^ k * y := by
    rw [← hb.value, two_zpow_add, zpow_natCast]
    ring
  -- what is left, as the code's own remainder
  have hleft : x - ((n / nb.2 * 2 ^ k : ℕ) : ℝ) * y = (n % nb.2 : ℕ) * 2 ^ (nb.1 + k) := by
    have hsplit : (n : ℝ) = (n / nb.2 : ℕ) * nb.2 + (n % nb.2 : ℕ) := by
      exact_mod_cast (Nat.div_add_mod' n nb.2).symm
    have hmul : ((n / nb.2 * 2 ^ k : ℕ) : ℝ) * y = (n / nb.2 : ℕ) * (nb.2 * 2 ^ (nb.1 + k)) := by
      rw [hy]
      push_cast
      ring
    rw [← hx, hmul, hsplit]
    ring
  have hnonneg : (0 : ℝ) ≤ (n % nb.2 : ℕ) * 2 ^ (nb.1 + k) := by positivity
  have hle : ((n % nb.2 : ℕ) : ℝ) * 2 ^ (nb.1 + k) ≤ x := by
    rw [← hx]
    exact mul_le_mul_of_nonneg_right (by exact_mod_cast Nat.mod_le n nb.2) hu.le
  have hmag := ha.magnitude.of_sub hb.magnitude _ hnonneg hle (Or.inl hleft.symm)
  obtain ⟨v, hv, his⟩ := assemble_exact hout s (lt_trans hmod hb.sig_lt) hmag (by omega) operands 0
    true
  refine ⟨⟨v, operands, 0, true⟩, ?_, rfl, hquiet, ?_, ?_, ?_, ?_⟩
  · unfold reducePartly
    rw [i32_eq (by omega), Option.bind_some, Nat.shiftLeft_eq, ← hn, u128_eq (by omega),
      Option.bind_some, show na.1 - nb.1 - 63 = k by omega, i32_eq (by omega), Option.bind_some, hv]
  · rw [← hn, hleft]
    exact his
  · rw [← hn, hleft]
    exact hnonneg
  · rw [← hn, hleft, ← hy]
    exact mul_lt_mul_of_pos_right (by exact_mod_cast hmod) hu
  · calc 2 ^ (62 + k) * y < 2 ^ (62 + k) * 2 ^ (nb.1 + 64) :=
          mul_lt_mul_of_pos_left hb.bounds.2 (by positivity)
      _ = 2 ^ (na.1 + 63) := by
        rw [← zpow_natCast, ← two_zpow_add]
        congr 1
        omega
      _ ≤ x := ha.bounds.1

theorem reduceFully_spec (hout : env.flushOutputs = false) (ieee : Bool)
    (hlo : -1 ≤ na.1 - nb.1) (hhi : na.1 - nb.1 < 64) {operands : Flags}
    (hquiet : operands.Quiet) :
    ∃ r, reduceFully ieee s (na.1 - nb.1) na nb operands env = some r ∧ Completes ieee s x y r := by
  obtain ⟨n, den, e, halign, hx, hy, hn, hden, hr, helo, hehi⟩ :=
    alignOperands_spec ha hb rfl hlo hhi
  obtain ⟨s', q, r, hround, hq, hrle, hsplit, hzero⟩ := roundQuotient_spec ieee s hden hn hr
  have hu := two_zpow_pos e
  have hquot : (n : ℝ) / den = x / y := by
    rw [← hx, ← hy, mul_div_mul_right _ _ hu.ne']
  rw [hquot] at hq
  -- what is left, as the code's own remainder and its sign
  have hleft : s' = s ∧ (r : ℝ) * 2 ^ e = x - q * y ∨ s' = !s ∧ (r : ℝ) * 2 ^ e = q * y - x := by
    refine hsplit.imp (And.imp_right fun h => ?_) (And.imp_right fun h => ?_)
    · have h' : (n : ℝ) = q * den + r := by exact_mod_cast h
      rw [← hx, ← hy, h']
      ring
    · have h' : (n : ℝ) + r = q * den := by exact_mod_cast h
      rw [← hx, ← hy, ← mul_assoc, ← h']
      ring
  have hnonneg : (0 : ℝ) ≤ r * 2 ^ e := by positivity
  have hle : (r : ℝ) * 2 ^ e ≤ x := by
    rw [← hx]
    exact mul_le_mul_of_nonneg_right (by exact_mod_cast le_trans hrle (Nat.mod_le n den)) hu.le
  have hmag := ha.magnitude.of_sub hb.magnitude q hnonneg hle (hleft.imp And.right And.right)
  obtain ⟨v, hv, his⟩ := assemble_exact hout s' (lt_of_le_of_lt hrle hr) hmag (by omega) operands
    (q &&& 7) false
  refine ⟨⟨v, operands, q &&& 7, false⟩, ?_, rfl, hquiet, ?_, s', _, his, ?_, ?_⟩
  · unfold reduceFully
    rw [halign, Option.bind_some, hround, Option.bind_some, hv]
  · rw [← hq]
    exact Nat.and_two_pow_sub_one_eq_mod q 3
  · rw [← hq]
    refine signed_congr (hleft.imp id (And.imp_right fun h => ?_))
    rw [h]
    ring
  · intro h0
    refine hzero ?_
    have := (mul_eq_zero.mp h0).resolve_right hu.ne'
    exact_mod_cast this

end Step

theorem remainder_zero {a b : F80} {s t : Bool} {y : ℝ} {pb : Parts} {nb : Int × Nat} {env : Env}
    (hin : env.subnormalInputs.flushes = false) (ha : a.Is s 0) (hb : Operand b t y pb nb)
    (ieee : Bool) : ∃ r, F80.remainder a b ieee env = some r ∧ Completes ieee s 0 y r := by
  have his := ha
  obtain ⟨p, hp, hd⟩ := ha
  obtain ⟨hfin, -, hval⟩ := Parts.of_datum hd
  have hcls : p.cls = .zero := by
    refine ((F80.numeric_decode hp hfin).cls.resolve_right fun h => ?_).1
    have : (0 : ℝ) < p.frac * 2 ^ p.exp := mul_pos (Nat.cast_pos.mpr h.2) (two_zpow_pos _)
    exact absurd hval this.ne'
  obtain ⟨fa, hfa, hqa⟩ := F80.unpack_quiet hin hp
  obtain ⟨fb, hfb, hqb⟩ := F80.unpack_quiet hin hb.decode
  have hnan : nanResult [p, pb] env = none := by
    refine nanResult_none ?_ env
    intro q hq
    rcases List.mem_pair.mp hq with rfl | rfl
    · rw [hcls]
      decide
    · rw [hb.cls]
      decide
  have hround : roundNat (quotientMode ieee) (0 / y) = 0 := by
    rw [zero_div]
    exact_mod_cast roundNat_natCast (quotientMode ieee) 0
  refine ⟨⟨a, fa.union fb, 0, false⟩, ?_, rfl, hqa.union hqb, by rw [hround], s, 0, his, ?_,
    fun _ => rfl⟩
  · unfold F80.remainder
    simp only [hfa, hfb, hnan]
    rw [if_neg (by rw [hcls, hb.cls]; decide), if_pos (Or.inl hcls)]
  · rw [hround, Nat.cast_zero, zero_mul, sub_zero]

def F80.operand (v : F80) : Option (Int × Nat) := v.decode.bind norm

theorem Operand.eq {v : F80} {sign : Bool} {x : ℝ} {n : Int × Nat} (h : Operand v sign x p n) :
    v.operand = some n := by
  rw [F80.operand, h.decode, Option.bind_some, h.norm_eq]

theorem remainder_step {a b : F80} {s t : Bool} {x y : ℝ} {env : Env}
    (hout : env.flushOutputs = false) (hin : env.subnormalInputs.flushes = false)
    (ha : a.Is s x) (hb : b.Is t y) (hx : 0 ≤ x) (hy : 0 < y) (ieee : Bool) :
    ∃ r, F80.remainder a b ieee env = some r ∧ (Completes ieee s x y r ∨
      ∃ na nb, ∃ k : ℕ, a.operand = some na ∧ b.operand = some nb ∧ 1 ≤ k ∧ na.1 - nb.1 = 63 + k ∧
        Shortens s x y k (na.2 * 2 ^ 63 / nb.2 * 2 ^ k) r) := by
  obtain ⟨pb, nb, hb'⟩ := hb.operand hy
  rcases hx.eq_or_lt with rfl | hx
  · obtain ⟨r, hr, hdone⟩ := remainder_zero hin ha hb' ieee
    exact ⟨r, hr, Or.inl hdone⟩
  obtain ⟨pa, na, ha'⟩ := ha.operand hx
  obtain ⟨operands, hquiet, hcode⟩ := remainder_operands ha' hb' hin ieee
  rw [hcode]
  by_cases hfar : 64 ≤ na.1 - nb.1
  · obtain ⟨k, hk⟩ : ∃ k : ℕ, na.1 - nb.1 - 63 = k := ⟨_, (Int.toNat_of_nonneg (by omega)).symm⟩
    obtain ⟨r, hr, hshort⟩ :=
      reducePartly_spec ha' hb' hout (k := k) (by omega) (by omega) hquiet
    rw [if_pos hfar, hr]
    exact ⟨r, rfl, Or.inr ⟨na, nb, k, ha'.eq, hb'.eq, by omega, by omega, hshort⟩⟩
  rw [if_neg hfar]
  by_cases hnear : na.1 - nb.1 ≤ -2
  · have hmode : quotientMode ieee ≠ .up := by cases ieee <;> decide
    have hq := quotient_small ha' hb' hnear (quotientMode ieee) hmode
    rw [if_pos hnear]
    refine ⟨_, rfl, Or.inl ⟨rfl, hquiet, by rw [hq], s, x, ha, ?_, fun _ => rfl⟩⟩
    rw [hq, Nat.cast_zero, zero_mul, sub_zero]
  · obtain ⟨r, hr, hdone⟩ := reduceFully_spec ha' hb' hout ieee (by omega) (by omega) hquiet
    rw [if_neg hnear, hr]
    exact ⟨r, rfl, Or.inl hdone⟩

end Rsemu.Float
