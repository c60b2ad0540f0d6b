import Rsemu.Float.Fused

/-!
# The encodings

The binary interchange formats and the 80-bit double extended format: a bit pattern is taken
apart into `Parts`, the environment's handling of subnormal operands is applied, an operation
is run, and its outcome is assembled into a bit pattern again.

An outcome on a format's grid comes back out of its encoding as what it was
(`decode_encodeOutcome`, `F80.decode_encode`).
-/

namespace Rsemu.Float

attribute [local instance] Rounding.atLeastTwo_two

def msb (v : Nat) : Option Nat := if v = 0 then none else some v.log2

def shl64 (v : Nat) (n : Int) : Option Nat :=
  if 0 ≤ n ∧ n < 64 then some ((v <<< n.toNat) % 2 ^ 64) else none

def admitOperand (p : Parts) (subnormal : Bool) (env : Env) : Parts × Flags :=
  if subnormal then
    let flags : Flags := { denormal := env.subnormalInputs.reports }
    if env.subnormalInputs.flushes then (Parts.zero p.sign, flags) else (p, flags)
  else (p, .none)

/-- The interchange formats. -/
inductive Format where
  | b16
  | b32
  | b64

namespace Format

def sigBits : Format → Nat
  | .b16 => 10
  | .b32 => 23
  | .b64 => 52

def expBits : Format → Nat
  | .b16 => 5
  | .b32 => 8
  | .b64 => 11

variable (F : Format)

def bits : Nat := F.sigBits + F.expBits + 1

def precision : Nat := F.sigBits + 1

def bias : Int := 2 ^ (F.expBits - 1) - 1

def emin : Int := 1 - F.bias

def mask : Nat := (2 ^ 64 - 1) >>> (64 - F.bits)

def sign : Nat := 1 <<< (F.bits - 1)

def sigMask : Nat := 1 <<< F.sigBits - 1

def expFieldMax : Nat := 1 <<< F.expBits - 1

def quiet : Nat := 1 <<< (F.sigBits - 1)

def inf : Nat := F.expFieldMax <<< F.sigBits

def quietNan : Nat := F.inf ||| F.quiet

def spec : Spec := .interchange F.precision F.bias

/-- What the three fields of a pattern stand for. -/
def ofFields (sign : Bool) (field frac : Nat) : Parts :=
  if field = F.expFieldMax then
    if frac = 0 then ⟨sign, 0, 0, .inf, false⟩
    else ⟨sign, 0, frac, .nan, frac &&& F.quiet == 0⟩
  else if field = 0 then
    ⟨sign, F.spec.minUlp, frac, if frac = 0 then .zero else .finite, false⟩
  else ⟨sign, field - F.bias - F.sigBits, frac ||| 1 <<< F.sigBits, .finite, false⟩

def decode (bits : Nat) : Parts :=
  let bits := bits &&& F.mask
  F.ofFields (bits &&& F.sign != 0) (bits >>> F.sigBits &&& F.expFieldMax) (bits &&& F.sigMask)

def unpack (bits : Nat) (env : Env) : Parts × Flags :=
  let p := F.decode bits
  admitOperand p (p.cls == .finite && decide (p.frac < 1 <<< F.sigBits)) env

def signBit (sign : Bool) : Nat := if sign then F.sign else 0

/-- Assemble a finite number: normal, or on the fixed grid of the subnormals. -/
def encodeFinite (sign : Bool) (exp : Int) (frac : Nat) : Option Nat :=
  (msb frac).bind fun top =>
    (i32 (exp + top)).bind fun lead =>
      if F.emin ≤ lead then
        (shl64 frac (F.sigBits - top)).bind fun frac =>
          (i32 (lead + F.bias)).bind fun field =>
            (shl64 field.toNat F.sigBits).map fun field =>
              F.signBit sign ||| field ||| (frac &&& F.sigMask)
      else
        (i32 (exp - F.spec.minUlp)).bind fun n =>
          (shl64 frac n).map fun frac => F.signBit sign ||| frac

/-- The pattern of an outcome. -/
def encodeOutcome (out : Outcome) (env : Env) : Option Nat :=
  match out with
  | .defaultNan => some (F.signBit env.nan.defaultSign ||| F.quietNan)
  | .nan sign payload => some (F.signBit sign ||| F.inf ||| F.quiet ||| (payload &&& F.sigMask))
  | .num sign .zero => some (F.signBit sign)
  | .num sign .inf => some (F.signBit sign ||| F.inf)
  | .num sign (.finite exp frac) => F.encodeFinite sign exp frac

def deliver (r : Option (Outcome × Flags)) (operands : Flags) (env : Env) : Option (Nat × Flags) :=
  r.bind fun r => (F.encodeOutcome r.1 env).map fun bits => (bits, r.2.union operands)

def add (a b : Nat) (env : Env) : Option (Nat × Flags) :=
  let pa := F.unpack a env
  let pb := F.unpack b env
  F.deliver (Float.add pa.1 pb.1 false F.spec env) (pa.2.union pb.2) env

def sub (a b : Nat) (env : Env) : Option (Nat × Flags) :=
  let pa := F.unpack a env
  let pb := F.unpack b env
  F.deliver (Float.add pa.1 pb.1 true F.spec env) (pa.2.union pb.2) env

def mul (a b : Nat) (env : Env) : Option (Nat × Flags) :=
  let pa := F.unpack a env
  let pb := F.unpack b env
  F.deliver (Float.mul pa.1 pb.1 F.spec env) (pa.2.union pb.2) env

def div (a b : Nat) (env : Env) : Option (Nat × Flags) :=
  let pa := F.unpack a env
  let pb := F.unpack b env
  F.deliver (Float.div pa.1 pb.1 F.spec env) (pa.2.union pb.2) env

def sqrt (a : Nat) (env : Env) : Option (Nat × Flags) :=
  let pa := F.unpack a env
  F.deliver (Float.sqrt pa.1 F.spec env) pa.2 env

/-- The fused operation, at a precision control. -/
def fma (a b c : Nat) (env : Env) : Option (Nat × Flags) :=
  let pa := F.unpack a env
  let pb := F.unpack b env
  let pc := F.unpack c env
  F.deliver (Float.fma pa.1 pb.1 pc.1 F.spec env) ((pa.2.union pb.2).union pc.2) env

end Format

/-- An 80-bit double extended value: sign and exponent, and a significand with its integer bit. -/
structure F80 where
  /-- The sign in bit 15, the biased exponent below it. -/
  signExp : Nat
  sig : Nat
  signExp_lt : signExp < 2 ^ 16
  sig_lt : sig < 2 ^ 64
  deriving DecidableEq

namespace F80

def new (signExp sig : Nat) : F80 :=
  ⟨signExp % 2 ^ 16, sig % 2 ^ 64, Nat.mod_lt _ (by decide), Nat.mod_lt _ (by decide)⟩

def bias : Int := 16383

def expFieldMax : Nat := 0x7fff

def integerBit : Nat := 1 <<< 63

def quietBit : Nat := 1 <<< 62

def fracMask : Nat := integerBit - 1

def spec : Spec := .interchange 64 16383

def sign (v : F80) : Bool := v.signExp &&& 0x8000 != 0

def expField (v : F80) : Nat := v.signExp &&& expFieldMax

/-- Take an encoding apart, or report that it is not a value. -/
def decode (v : F80) : Option Parts :=
  let sign := v.sign
  let field := v.expField
  let integer := v.sig &&& integerBit != 0
  let frac := v.sig &&& fracMask
  if field = expFieldMax then
    if !integer then none
    else if frac = 0 then some ⟨sign, 0, 0, .inf, false⟩
    else some ⟨sign, 0, frac, .nan, v.sig &&& quietBit == 0⟩
  else if field = 0 then
    some ⟨sign, spec.minUlp, v.sig, if v.sig = 0 then .zero else .finite, false⟩
  else if !integer then none
  else some ⟨sign, field - bias - 63, v.sig, .finite, false⟩

def unpack (v : F80) (env : Env) : Option Parts × Flags :=
  match decode v with
  | none => (none, { invalid := true })
  | some p =>
    let r := admitOperand p
      (p.cls == .finite && v.expField == 0 && v.sig &&& integerBit == 0) env
    (some r.1, r.2)

def signExpOf (sign : Bool) (field : Nat) : Nat := if sign then 0x8000 ||| field else field

/-- The pattern of a finite magnitude. -/
def encodeFinite (sign : Bool) (exp : Int) (frac : Nat) : Option F80 :=
  (msb frac).bind fun top =>
    (i32 (exp + top)).bind fun lead =>
      if spec.emin ≤ lead then
        (i32 (lead + bias)).bind fun field =>
          (shl64 frac (63 - top)).map fun sig => new (signExpOf sign field.toNat) sig
      else
        (i32 (exp - spec.minUlp)).bind fun n =>
          (shl64 frac n).map fun sig => new (signExpOf sign 0) sig

/-- The pattern of an outcome, with its leading bit. -/
def encode (out : Outcome) (env : Env) : Option F80 :=
  match out with
  | .defaultNan => some (new (signExpOf env.nan.defaultSign expFieldMax) (integerBit ||| quietBit))
  | .nan sign payload =>
    some (new (signExpOf sign expFieldMax) (integerBit ||| quietBit ||| (payload &&& fracMask)))
  | .num sign .zero => some (new (signExpOf sign 0) 0)
  | .num sign .inf => some (new (signExpOf sign expFieldMax) integerBit)
  | .num sign (.finite exp frac) => encodeFinite sign exp frac

def deliver (r : Option (Outcome × Flags)) (operands : Flags) (env : Env) : Option (F80 × Flags) :=
  r.bind fun r => (encode r.1 env).map fun v => (v, r.2.union operands)

def unsupported (operands : Flags) (env : Env) : Option (F80 × Flags) :=
  deliver (some (.defaultNan, { invalid := true })) operands env

/-- Unpack, operate, pack. -/
def binop (a b : F80) (spec : Spec) (env : Env)
    (op : Parts → Parts → Spec → Env → Option (Outcome × Flags)) : Option (F80 × Flags) :=
  let pa := unpack a env
  let pb := unpack b env
  match pa.1, pb.1 with
  | some x, some y => deliver (op x y spec env) (pa.2.union pb.2) env
  | _, _ => unsupported (pa.2.union pb.2) env

def addTo (a b : F80) (spec : Spec) (env : Env) : Option (F80 × Flags) :=
  binop a b spec env fun x y s e => Float.add x y false s e

def subTo (a b : F80) (spec : Spec) (env : Env) : Option (F80 × Flags) :=
  binop a b spec env fun x y s e => Float.add x y true s e

def mulTo (a b : F80) (spec : Spec) (env : Env) : Option (F80 × Flags) :=
  binop a b spec env Float.mul

def divTo (a b : F80) (spec : Spec) (env : Env) : Option (F80 × Flags) :=
  binop a b spec env Float.div

def sqrtTo (a : F80) (spec : Spec) (env : Env) : Option (F80 × Flags) :=
  let pa := unpack a env
  match pa.1 with
  | some x => deliver (Float.sqrt x spec env) pa.2 env
  | none => unsupported pa.2 env

end F80

/-- The x87 precision control. -/
inductive Precision where
  | single
  | double
  | extended

namespace Precision

def bits : Precision → Nat
  | .single => 24
  | .double => 53
  | .extended => 64

def spec (pc : Precision) : Spec := F80.spec.withPrecision pc.bits

end Precision

namespace F80

def add (a b : F80) (pc : Precision) (env : Env) : Option (F80 × Flags) := addTo a b pc.spec env

def sub (a b : F80) (pc : Precision) (env : Env) : Option (F80 × Flags) := subTo a b pc.spec env

def mul (a b : F80) (pc : Precision) (env : Env) : Option (F80 × Flags) := mulTo a b pc.spec env

def div (a b : F80) (pc : Precision) (env : Env) : Option (F80 × Flags) := divTo a b pc.spec env

def sqrt (a : F80) (pc : Precision) (env : Env) : Option (F80 × Flags) := sqrtTo a pc.spec env

def fma (a b c : F80) (pc : Precision) (env : Env) : Option (F80 × Flags) :=
  let pa := unpack a env
  let pb := unpack b env
  let pc' := unpack c env
  let operands := (pa.2.union pb.2).union pc'.2
  match pa.1, pb.1, pc'.1 with
  | some x, some y, some z => deliver (Float.fma x y z pc.spec env) operands env
  | _, _, _ => unsupported operands env

end F80

/-- What an encoding stands for. -/
inductive Datum where
  | num (sign : Bool) (x : ℝ)
  | inf (sign : Bool)
  | nan

noncomputable def Parts.datum (p : Parts) : Datum :=
  match p.cls with
  | .zero | .finite => .num p.sign (p.frac * 2 ^ p.exp)
  | .inf => .inf p.sign
  | .nan => .nan

noncomputable def Outcome.datum : Outcome → Datum
  | .num sign .zero => .num sign 0
  | .num sign (.finite exp frac) => .num sign (frac * 2 ^ exp)
  | .num sign .inf => .inf sign
  | .defaultNan => .nan
  | .nan _ _ => .nan

/-- A finite result that lies on a format's grid and in its range. -/
structure FitsFinite (spec : Spec) (exp : Int) (frac : Nat) : Prop where
  frac_pos : 0 < frac
  frac_lt : frac < 2 ^ spec.precision
  exp_ge : spec.minUlp ≤ exp
  lead_le : exp + frac.log2 ≤ spec.emax

/-- An outcome that is a number and fits. -/
inductive Outcome.Fits (spec : Spec) : Outcome → Prop
  | zero (sign : Bool) : Fits spec (.num sign .zero)
  | inf (sign : Bool) : Fits spec (.num sign .inf)
  | finite (sign : Bool) {exp : Int} {frac : Nat} (h : FitsFinite spec exp frac) :
      Fits spec (.num sign (.finite exp frac))

theorem msb_eq {v : Nat} (h : 0 < v) : msb v = some v.log2 := if_neg (by omega)

theorem shl64_eq {v n : Nat} {i : Int} (hi : i = n) (hn : n < 64) (h : v * 2 ^ n < 2 ^ 64) :
    shl64 v i = some (v * 2 ^ n) := by
  unfold shl64
  rw [hi, if_pos (by omega), Int.toNat_natCast, Nat.shiftLeft_eq, Nat.mod_eq_of_lt h]

theorem full_width {frac s n : Nat} (hpos : 0 < frac) (hn : frac.log2 + n = s) :
    2 ^ s ≤ frac * 2 ^ n ∧ frac * 2 ^ n < 2 ^ (s + 1) := by
  have hlo : 2 ^ frac.log2 ≤ frac := Nat.log2_self_le hpos.ne'
  have hhi : frac < 2 ^ (frac.log2 + 1) := Nat.lt_log2_self
  constructor
  · calc 2 ^ s = 2 ^ frac.log2 * 2 ^ n := by rw [← Nat.pow_add, hn]
      _ ≤ frac * 2 ^ n := Nat.mul_le_mul_right _ hlo
  · calc frac * 2 ^ n < 2 ^ (frac.log2 + 1) * 2 ^ n :=
          Nat.mul_lt_mul_of_pos_right hhi (Nat.two_pow_pos n)
      _ = 2 ^ (s + 1) := by rw [← Nat.pow_add, ← hn]; congr 1; omega

theorem shifted_value {frac n : Nat} (exp : Int) {e : Int} (h : exp - n = e) :
    ((frac * 2 ^ n : Nat) : ℝ) * 2 ^ e = frac * 2 ^ exp := by
  rw [← h, sub_eq_add_neg, two_zpow_add, zpow_neg, zpow_natCast]
  push_cast
  field_simp

theorem or_fields {a b n : Nat} (hb : b < 2 ^ n) : a <<< n ||| b = a * 2 ^ n + b := by
  rw [← Nat.shiftLeft_add_eq_or_of_lt hb, Nat.shiftLeft_eq]

theorem and_top_bit (b : Bool) {v n : Nat} (hv : v < 2 ^ n) :
    ((b.toNat * 2 ^ n + v) &&& 1 <<< n != 0) = b := by
  have hdiv : (b.toNat * 2 ^ n + v) / 2 ^ n = b.toNat := by
    rw [Nat.mul_comm, Nat.mul_add_div (Nat.two_pow_pos n), Nat.div_eq_of_lt hv, Nat.add_zero]
  have htest : (b.toNat * 2 ^ n + v).testBit n = b := by
    rw [Nat.testBit_eq_decide_div_mod_eq, hdiv]
    cases b <;> rfl
  rw [Nat.one_shiftLeft, Nat.and_two_pow, htest]
  cases b <;> simp

namespace Format

variable (F : Format)

theorem widths : 10 ≤ F.sigBits ∧ F.sigBits ≤ 52 ∧ 5 ≤ F.expBits ∧
    F.sigBits + F.expBits + 1 ≤ 64 := by
  cases F <;> decide

theorem expFieldMax_eq : (F.expFieldMax : Int) = 2 * F.bias + 1 := by
  cases F <;> decide

theorem bias_bounds : 15 ≤ F.bias ∧ F.bias ≤ 1023 := by
  cases F <;> decide

theorem minUlp_eq : F.spec.minUlp = F.emin - F.sigBits := by
  cases F <;> decide

theorem spec_sane : F.spec.Sane := by
  cases F <;> exact ⟨by decide, by decide, by decide, by decide, by decide, by decide⟩

def assemble (sign : Bool) (field frac : Nat) : Nat :=
  (sign.toNat * 2 ^ F.expBits + field) * 2 ^ F.sigBits + frac

theorem mask_eq : F.mask = 2 ^ F.bits - 1 := by
  cases F <;> decide

variable {F}

theorem decode_assemble {sign : Bool} {field frac : Nat} (hfield : field < 2 ^ F.expBits)
    (hfrac : frac < 2 ^ F.sigBits) :
    F.decode (F.assemble sign field frac) = F.ofFields sign field frac := by
  have hs := Nat.two_pow_pos F.sigBits
  have hsplit : F.assemble sign field frac =
      sign.toNat * 2 ^ (F.expBits + F.sigBits) + (field * 2 ^ F.sigBits + frac) := by
    unfold assemble
    ring
  have hrest : field * 2 ^ F.sigBits + frac < 2 ^ (F.expBits + F.sigBits) := by
    have : (field + 1) * 2 ^ F.sigBits ≤ 2 ^ F.expBits * 2 ^ F.sigBits :=
      Nat.mul_le_mul_right _ hfield
    rw [Nat.pow_add]
    rw [Nat.add_mul, Nat.one_mul] at this
    omega
  have hbits : F.assemble sign field frac < 2 ^ F.bits := by
    rw [hsplit, bits, Nat.pow_succ, Nat.add_comm F.sigBits]
    cases sign <;> simp only [Bool.toNat_true, Bool.toNat_false] <;> omega
  have hmask : F.assemble sign field frac &&& F.mask = F.assemble sign field frac := by
    rw [mask_eq, Nat.and_two_pow_sub_one_eq_mod, Nat.mod_eq_of_lt hbits]
  have hsign : (F.assemble sign field frac &&& F.sign != 0) = sign := by
    rw [hsplit, Format.sign, show F.bits - 1 = F.expBits + F.sigBits by unfold bits; omega]
    exact and_top_bit sign hrest
  have hexp : F.assemble sign field frac >>> F.sigBits &&& F.expFieldMax = field := by
    rw [expFieldMax, Nat.one_shiftLeft, Nat.and_two_pow_sub_one_eq_mod, Nat.shiftRight_eq_div_pow]
    unfold assemble
    rw [Nat.mul_comm, Nat.mul_add_div hs, Nat.div_eq_of_lt hfrac, Nat.add_zero,
      Nat.mul_add_mod_self_right, Nat.mod_eq_of_lt hfield]
  have hsig : F.assemble sign field frac &&& F.sigMask = frac := by
    rw [sigMask, Nat.one_shiftLeft, Nat.and_two_pow_sub_one_eq_mod]
    unfold assemble
    rw [Nat.mul_add_mod_self_right, Nat.mod_eq_of_lt hfrac]
  unfold decode
  simp only [hmask, hsign, hexp, hsig]

theorem signBit_eq (sign : Bool) : F.signBit sign = sign.toNat <<< F.expBits <<< F.sigBits := by
  have hpow : F.sign = 1 <<< F.expBits <<< F.sigBits := by
    cases F <;> decide
  cases sign with
  | true => exact hpow
  | false => rw [signBit, Bool.toNat_false, Nat.zero_shiftLeft, Nat.zero_shiftLeft]; rfl

theorem or_assemble (sign : Bool) {field frac : Nat} (hfield : field < 2 ^ F.expBits)
    (hfrac : frac < 2 ^ F.sigBits) :
    F.signBit sign ||| field * 2 ^ F.sigBits ||| frac = F.assemble sign field frac := by
  rw [signBit_eq, ← Nat.shiftLeft_eq field, ← Nat.shiftLeft_or_distrib, or_fields hfield,
    or_fields hfrac]
  rfl

theorem decode_encodeFinite {sign : Bool} {exp : Int} {frac : Nat}
    (h : FitsFinite F.spec exp frac) :
    ∃ bits, F.encodeFinite sign exp frac = some bits ∧
      (F.decode bits).datum = .num sign (frac * 2 ^ exp) := by
  obtain ⟨hpos, hlt, hge, hle⟩ := h
  obtain ⟨hs1, hs2, he1, hw⟩ := F.widths
  obtain ⟨hb1, hb2⟩ := F.bias_bounds
  have hmax := F.expFieldMax_eq
  have hmin := F.minUlp_eq
  have hemin : F.emin = 1 - F.bias := rfl
  have hle : exp + frac.log2 ≤ F.bias := hle
  have hlog : frac.log2 ≤ F.sigBits := Nat.lt_succ_iff.mp ((Nat.log2_lt hpos.ne').mpr hlt)
  have hfield : F.expFieldMax < 2 ^ F.expBits := by
    have := Nat.two_pow_pos F.expBits
    rw [expFieldMax, Nat.one_shiftLeft]
    omega
  unfold encodeFinite
  rw [msb_eq hpos, Option.bind_some, i32_eq (by omega), Option.bind_some]
  by_cases hnormal : F.emin ≤ exp + frac.log2
  · obtain ⟨n, hn⟩ : ∃ n, frac.log2 + n = F.sigBits := ⟨F.sigBits - frac.log2, by omega⟩
    obtain ⟨f, hf⟩ : ∃ f : Nat, exp + frac.log2 + F.bias = f :=
      ⟨_, (Int.toNat_of_nonneg (by omega)).symm⟩
    obtain ⟨hfull, hfull'⟩ := full_width hpos hn
    have hfit : frac * 2 ^ n < 2 ^ 64 :=
      lt_of_lt_of_le hfull' (Nat.pow_le_pow_right (by decide) (by omega))
    have hf' : f < 2 ^ F.expBits := by omega
    have hshift : f * 2 ^ F.sigBits < 2 ^ 64 :=
      calc f * 2 ^ F.sigBits < 2 ^ F.expBits * 2 ^ F.sigBits :=
            Nat.mul_lt_mul_of_pos_right hf' (Nat.two_pow_pos _)
        _ = 2 ^ (F.expBits + F.sigBits) := (Nat.pow_add ..).symm
        _ ≤ 2 ^ 64 := Nat.pow_le_pow_right (by decide) (by omega)
    obtain ⟨g, hg⟩ : ∃ g, g = frac * 2 ^ n := ⟨_, rfl⟩
    have hlow : g &&& F.sigMask = g - 2 ^ F.sigBits := by
      rw [sigMask, Nat.one_shiftLeft, Nat.and_two_pow_sub_one_eq_mod, Nat.mod_eq_sub_mod (by omega),
        Nat.mod_eq_of_lt (by rw [Nat.pow_succ] at hfull'; omega)]
    have hg' : g - 2 ^ F.sigBits < 2 ^ F.sigBits := by
      omega
    rw [if_pos hnormal, shl64_eq (n := n) (by omega) (by omega) hfit, Option.bind_some,
      i32_eq (by omega), Option.bind_some, hf, Int.toNat_natCast,
      shl64_eq rfl (by omega) hshift, Option.map_some, ← hg, hlow, or_assemble sign hf' hg']
    refine ⟨_, rfl, ?_⟩
    have hint : g - 2 ^ F.sigBits ||| 1 <<< F.sigBits = g := by
      rw [Nat.or_comm, or_fields hg']
      omega
    rw [decode_assemble hf' hg', ofFields, if_neg (by omega), if_neg (by omega), hint]
    simp only [Parts.datum]
    rw [hg, shifted_value exp (by omega)]
  · obtain ⟨n, hn⟩ : ∃ n : Nat, exp - F.spec.minUlp = n := ⟨_, (Int.toNat_of_nonneg (by omega)).symm⟩
    obtain ⟨-, hfull⟩ := full_width hpos (n := n) rfl
    have hsmall : frac * 2 ^ n < 2 ^ F.sigBits :=
      lt_of_lt_of_le hfull (Nat.pow_le_pow_right (by decide) (by omega))
    have hfit : frac * 2 ^ n < 2 ^ 64 :=
      lt_of_lt_of_le hsmall (Nat.pow_le_pow_right (by decide) (by omega))
    have hne : frac * 2 ^ n ≠ 0 := (Nat.mul_pos hpos (Nat.two_pow_pos n)).ne'
    have hpow := Nat.two_pow_pos F.expBits
    rw [if_neg hnormal, i32_eq (by omega), Option.bind_some, shl64_eq hn (by omega) hfit,
      Option.map_some]
    have hor := or_assemble (F := F) sign hpow hsmall
    rw [Nat.zero_mul, Nat.or_zero] at hor
    refine ⟨_, rfl, ?_⟩
    rw [hor, decode_assemble hpow hsmall, ofFields, if_neg (by omega), if_pos rfl, if_neg hne]
    simp only [Parts.datum]
    rw [shifted_value exp (by omega)]

theorem decode_encodeOutcome {out : Outcome} (env : Env) (h : out.Fits F.spec) :
    ∃ bits, F.encodeOutcome out env = some bits ∧ (F.decode bits).datum = out.datum := by
  have hmax := F.expFieldMax_eq
  have hpow := Nat.two_pow_pos F.expBits
  have hsig := Nat.two_pow_pos F.sigBits
  cases h with
  | zero sign =>
    have hor := or_assemble (F := F) sign hpow hsig
    rw [Nat.zero_mul, Nat.or_zero, Nat.or_zero] at hor
    refine ⟨_, rfl, ?_⟩
    rw [hor, decode_assemble hpow hsig, ofFields, if_neg (by omega), if_pos rfl]
    simp [Parts.datum, Outcome.datum]
  | inf sign =>
    have hlt : F.expFieldMax < 2 ^ F.expBits := by
      rw [expFieldMax, Nat.one_shiftLeft]
      omega
    have hor := or_assemble (F := F) sign hlt hsig
    rw [Nat.or_zero, ← Nat.shiftLeft_eq] at hor
    refine ⟨_, rfl, ?_⟩
    rw [inf, hor, decode_assemble hlt hsig, ofFields, if_pos rfl, if_pos rfl]
    rfl
  | finite sign hfits => exact decode_encodeFinite hfits

end Format

namespace F80

/-- The 80-bit format at a precision it can be asked for. -/
structure Holds (spec : Spec) : Prop where
  precision_le : spec.precision ≤ 64
  minUlp_eq : spec.minUlp = F80.spec.minUlp
  emax_eq : spec.emax = 16383

theorem expField_signExpOf (sign : Bool) (sig : Nat) {field : Nat} (h : field < 2 ^ 15) :
    (new (signExpOf sign field) sig).sign = sign ∧
      (new (signExpOf sign field) sig).expField = field := by
  have hval : signExpOf sign field = sign.toNat * 2 ^ 15 + field := by
    cases sign with
    | true =>
      rw [signExpOf, if_pos rfl, show 0x8000 = 1 <<< 15 by decide, or_fields h]
      rfl
    | false => simp [signExpOf]
  have hnew : (new (signExpOf sign field) sig).signExp = sign.toNat * 2 ^ 15 + field := by
    rw [← hval]
    refine Nat.mod_eq_of_lt ?_
    rw [hval]
    cases sign <;> simp only [Bool.toNat_true, Bool.toNat_false] <;> omega
  constructor
  · unfold F80.sign
    rw [hnew, show 0x8000 = 1 <<< 15 by decide]
    exact and_top_bit sign h
  · unfold expField
    rw [hnew, show expFieldMax = 2 ^ 15 - 1 by decide,
      Nat.and_two_pow_sub_one_eq_mod, Nat.mul_add_mod_self_right, Nat.mod_eq_of_lt h]

theorem integer_set {v : Nat} (hlo : 2 ^ 63 ≤ v) (hhi : v < 2 ^ 64) :
    (v &&& integerBit != 0) = true := by
  have := and_top_bit true (v := v - 2 ^ 63) (n := 63) (by omega)
  rwa [show true.toNat * 2 ^ 63 + (v - 2 ^ 63) = v by
    simp only [Bool.toNat_true]
    omega] at this

theorem decode_encodeFinite {spec : Spec} (hspec : Holds spec) {sign : Bool} {exp : Int}
    {frac : Nat} (h : FitsFinite spec exp frac) :
    ∃ v p, encodeFinite sign exp frac = some v ∧ decode v = some p ∧
      p.datum = .num sign (frac * 2 ^ exp) := by
  obtain ⟨hpos, hlt, hge, hle⟩ := h
  rw [hspec.minUlp_eq] at hge
  rw [hspec.emax_eq] at hle
  have hmin : F80.spec.minUlp = -16445 := by decide
  have hemin : F80.spec.emin = -16382 := by decide
  have hbias : bias = 16383 := rfl
  have hlt64 : frac < 2 ^ 64 :=
    lt_of_lt_of_le hlt (Nat.pow_le_pow_right (by decide) hspec.precision_le)
  have hlog : frac.log2 ≤ 63 := Nat.lt_succ_iff.mp ((Nat.log2_lt hpos.ne').mpr hlt64)
  unfold encodeFinite
  rw [msb_eq hpos, Option.bind_some, i32_eq (by omega), Option.bind_some, hemin, hmin, hbias]
  by_cases hnormal : -16382 ≤ exp + frac.log2
  · obtain ⟨n, hn⟩ : ∃ n, frac.log2 + n = 63 := ⟨63 - frac.log2, by omega⟩
    obtain ⟨f, hf⟩ : ∃ f : Nat, exp + frac.log2 + 16383 = f :=
      ⟨_, (Int.toNat_of_nonneg (by omega)).symm⟩
    obtain ⟨hlo, hhi⟩ := full_width hpos hn
    rw [if_pos hnormal, i32_eq (by omega), Option.bind_some, hf, Int.toNat_natCast,
      shl64_eq (n := n) (by omega) (by omega) hhi, Option.map_some]
    obtain ⟨hs, he⟩ := expField_signExpOf sign (frac * 2 ^ n)
      (show f < 2 ^ 15 by omega)
    have hsig : (new (signExpOf sign f) (frac * 2 ^ n)).sig = frac * 2 ^ n := Nat.mod_eq_of_lt hhi
    refine ⟨_, ⟨sign, f - bias - 63, frac * 2 ^ n, .finite, false⟩, rfl, ?_, ?_⟩
    · unfold decode
      simp only [hs, he, hsig, integer_set hlo hhi]
      rw [if_neg (by unfold expFieldMax; omega), if_neg (by omega)]
      rfl
    · simp only [Parts.datum]
      rw [shifted_value exp (by omega)]
  · obtain ⟨n, hn⟩ : ∃ n : Nat, exp - -16445 = n := ⟨_, (Int.toNat_of_nonneg (by omega)).symm⟩
    obtain ⟨-, hfull⟩ := full_width hpos (n := n) rfl
    have hfit : frac * 2 ^ n < 2 ^ 64 :=
      lt_of_lt_of_le hfull (Nat.pow_le_pow_right (by decide) (by omega))
    have hne : frac * 2 ^ n ≠ 0 := (Nat.mul_pos hpos (Nat.two_pow_pos n)).ne'
    rw [if_neg hnormal, i32_eq (by omega), Option.bind_some, shl64_eq hn (by omega) hfit,
      Option.map_some]
    obtain ⟨hs, he⟩ := expField_signExpOf sign (frac * 2 ^ n)
      (show 0 < 2 ^ 15 by decide)
    have hsig : (new (signExpOf sign 0) (frac * 2 ^ n)).sig = frac * 2 ^ n := Nat.mod_eq_of_lt hfit
    refine ⟨_, ⟨sign, F80.spec.minUlp, frac * 2 ^ n, .finite, false⟩, rfl, ?_, ?_⟩
    · unfold decode
      simp only [hs, he, hsig]
      rw [if_neg (by decide), if_pos trivial, if_neg hne]
    · simp only [Parts.datum]
      rw [shifted_value exp (by omega)]

theorem decode_encode {spec : Spec} (hspec : Holds spec) {out : Outcome} (env : Env)
    (h : out.Fits spec) :
    ∃ v p, encode out env = some v ∧ decode v = some p ∧ p.datum = out.datum := by
  cases h with
  | zero sign =>
    obtain ⟨hs, he⟩ := expField_signExpOf sign 0 (show 0 < 2 ^ 15 by decide)
    refine ⟨_, ⟨sign, F80.spec.minUlp, 0, .zero, false⟩, rfl, ?_, ?_⟩
    · unfold decode
      simp only [hs, he]
      rfl
    · simp [Parts.datum, Outcome.datum]
  | inf sign =>
    obtain ⟨hs, he⟩ := expField_signExpOf sign integerBit
      (show expFieldMax < 2 ^ 15 by decide)
    have hsig : (new (signExpOf sign expFieldMax) integerBit).sig = integerBit :=
      Nat.mod_eq_of_lt (by decide)
    refine ⟨_, ⟨sign, 0, 0, .inf, false⟩, rfl, ?_, rfl⟩
    unfold decode
    simp only [hs, he, hsig]
    rw [if_pos trivial, if_neg (by decide), if_pos (by decide)]
  | finite sign hfits => exact decode_encodeFinite hspec hfits

end F80

end Rsemu.Float
