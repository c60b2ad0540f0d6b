import Rsemu.Ir.Interp

/-!
# Words at a width

The interpreter computes on 128-bit words and masks at the width of a type. Two words are the
same at a width when they have the same low bits: then masking them gives one word, and so
does sign-extending them, and what is computed from them by wrapping arithmetic, by logic or
by a shift to the left is the same at that width again.
-/

namespace Rsemu.Ir

theorem Ty.bits_pos (ty : Ty) : 0 < ty.bits := by cases ty <;> decide

theorem Ty.bits_le (ty : Ty) : ty.bits ≤ 128 := by cases ty <;> decide

end Rsemu.Ir

namespace Rsemu.Ir.Interp

variable {w : Nat} {x x' y y' : Val}

def maskBits (bits : Nat) : Val :=
  if 128 ≤ bits then BitVec.allOnes 128 else (1#128 <<< bits) - 1#128

def sext (value : Val) (bits : Nat) : Val :=
  if 128 ≤ bits then value else (value <<< (128 - bits)).sshiftRight (128 - bits)

theorem getLsbD_maskBits (w j : Nat) :
    (maskBits w).getLsbD j = (decide (j < w) && decide (j < 128)) := by
  unfold maskBits
  split
  · rename_i h
    rw [BitVec.getLsbD_allOnes]
    by_cases hj : j < 128
    · simp [hj, Nat.lt_of_lt_of_le hj h]
    · simp [hj]
  · have hmask : 1#128 <<< w - 1#128 = (BitVec.allOnes w).setWidth 128 := by
      apply BitVec.eq_of_toNat_eq
      have h2 : 0 < 2 ^ w := Nat.two_pow_pos w
      simp [BitVec.toNat_sub, BitVec.toNat_shiftLeft, Nat.shiftLeft_eq, BitVec.toNat_allOnes]
      omega
    rw [hmask, BitVec.getLsbD_setWidth, BitVec.getLsbD_allOnes, Bool.and_comm]

/-- A shift by an amount, out of range too. -/
def shifted (op : Opcode) (w : Nat) (x amount : Val) : Val :=
  if w ≤ amount.toNat then
    if op = .sar ∧ (sext x w).msb then maskBits w else 0#128
  else if op = .shl then x <<< amount.toNat
  else if op = .shr then x >>> amount.toNat
  else (sext x w).sshiftRight amount.toNat

namespace Checked

theorem add_ok {a b : Nat} (h : a + b < 2 ^ 32) : add a b = .ok (a + b) := if_pos h

theorem sub_ok {a b : Nat} (h : b ≤ a) : sub a b = .ok (a - b) := if_pos h

theorem mul_ok {a b : Nat} (h : a * b < 2 ^ 32) : mul a b = .ok (a * b) := if_pos h

theorem rem_ok {a b : Nat} (h : 0 < b) : rem a b = .ok (a % b) := if_neg (by omega)

theorem shl_ok {n : Nat} (h : n < 128) : shl x n = .ok (x <<< n) := if_pos h

theorem shr_ok {n : Nat} (h : n < 128) : shr x n = .ok (x >>> n) := if_pos h

theorem sar_ok {n : Nat} (h : n < 128) : sar x n = .ok (x.sshiftRight n) := if_pos h

theorem maskBits_ok (bits : Nat) : maskBits bits = .ok (Interp.maskBits bits) := by
  unfold maskBits Interp.maskBits
  split
  · rfl
  · have hone : (1#128 <<< bits).toNat = 2 ^ bits := by
      have : 2 ^ bits < 2 ^ 128 := Nat.pow_lt_pow_right (by decide) (by omega)
      rw [BitVec.toNat_shiftLeft, Nat.shiftLeft_eq, BitVec.toNat_ofNat, Nat.mod_eq_of_lt (by omega)]
      omega
    have hle : 1 ≤ (1#128 <<< bits).toNat := hone ▸ Nat.two_pow_pos bits
    have hsub : BitVec.ofNat 128 ((1#128 <<< bits).toNat - 1) = 1#128 <<< bits - 1#128 := by
      apply BitVec.eq_of_toNat_eq
      rw [BitVec.toNat_ofNat, BitVec.toNat_sub, BitVec.toNat_ofNat]
      omega
    rw [shl_ok (by omega)]
    show (sub (1#128 <<< bits).toNat 1).bind _ = _
    rw [sub_ok hle, ← hsub]
    rfl

theorem sext_ok (hw : 0 < w) : sext x w = .ok (Interp.sext x w) := by
  unfold sext Interp.sext
  split
  · rfl
  · rw [sub_ok (by omega)]
    show (shl x (128 - w)).bind _ = _
    rw [shl_ok (by omega)]
    exact sar_ok (by omega)

theorem fieldMask_ok {pos len : Nat} (hpos : pos < 2 ^ 16) (hlen : len < 2 ^ 16) (hw : w ≤ 128) :
    fieldMask pos len w =
      .ok (if len = 0 ∨ w < pos + len then none else some (Interp.maskBits len <<< pos)) := by
  unfold fieldMask
  by_cases h0 : len = 0
  · rw [if_pos h0, if_pos (.inl h0)]
  · rw [if_neg h0, add_ok (by omega)]
    show (if w < pos + len then _ else _) = _
    by_cases hout : w < pos + len
    · rw [if_pos hout, if_pos (.inr hout)]
      rfl
    · rw [if_neg hout, if_neg (by omega), maskBits_ok]
      show (shl (Interp.maskBits len) pos).bind _ = _
      rw [shl_ok (by omega)]
      rfl

/-- A value, whatever it is. -/
abbrev Ok {α : Type} (r : Except Error α) : Prop := ∃ v, r = .ok v

theorem Ok.bind {α β : Type} {r : Except Error α} {f : α → Except Error β} (hr : Ok r)
    (hf : ∀ v, r = .ok v → Ok (f v)) : Ok (r >>= f) := by
  obtain ⟨v, rfl⟩ := hr
  exact hf v rfl

theorem Ok.foldlM {α β : Type} {f : β → α → Except Error β} {xs : List α} (b : β)
    (h : ∀ b, ∀ x ∈ xs, Ok (f b x)) : Ok (xs.foldlM f b) := by
  induction xs generalizing b with
  | nil => exact ⟨b, rfl⟩
  | cons x xs ih =>
    exact (h b x List.mem_cons_self).bind fun c _ => ih c fun b y hy =>
      h b y (List.mem_cons_of_mem x hy)

theorem ok_swapLane {bytes : Nat} (h : bytes ≤ 16) : Ok (swapLane x bytes) := by
  refine .foldlM _ fun out k hk => ?_
  have hlt := List.mem_range.mp hk
  rw [mul_ok (by omega), sub_ok (by omega : 1 ≤ bytes)]
  show Ok ((shr x (8 * k)).bind _)
  rw [shr_ok (by omega)]
  show Ok ((sub (bytes - 1) k).bind _)
  rw [sub_ok (by omega)]
  show Ok ((mul 8 (bytes - 1 - k)).bind _)
  rw [mul_ok (by omega)]
  show Ok ((shl _ (8 * (bytes - 1 - k))).bind _)
  rw [shl_ok (by omega)]
  exact ⟨_, rfl⟩

theorem ok_bswap {lane : Nat} (hlane : 8 ≤ lane) (hw : 0 < w) (hw' : w ≤ 128)
    (hdvd : w % lane = 0) : Ok (bswap x w lane) := by
  have hle : lane ≤ w := Nat.le_of_dvd hw (Nat.dvd_of_mod_eq_zero hdvd)
  unfold bswap
  rw [maskBits_ok]
  refine .foldlM _ fun out k hk => ?_
  -- the lane begins inside the type
  have hlt : lane * k < 128 := by
    have hk := List.mem_range.mp hk
    rw [Nat.lt_div_iff_mul_lt (by omega)] at hk
    rw [Nat.mul_comm]
    omega
  rw [shr_ok hlt]
  refine (ok_swapLane (by omega)).bind fun swapped _ => ?_
  rw [shl_ok hlt]
  show Ok ((add (lane * k) lane).bind _)
  rw [add_ok (by omega)]
  exact ⟨_, rfl⟩

theorem ok_compare (cond : Cond) (hw : 0 < w) : Ok (compare cond w x y) := by
  cases cond with
  | ltS | leS | gtS | geS =>
    simp only [compare, sext_ok hw]
    exact ⟨_, rfl⟩
  | eq | ne | ltU | leU | gtU | geU => exact ⟨_, rfl⟩

theorem ok_sextIf (signed : Prop) [Decidable signed] (hw : 0 < w) : Ok (sextIf signed x w) := by
  unfold sextIf
  split
  · exact ⟨_, sext_ok hw⟩
  · exact ⟨_, rfl⟩

theorem ok_addc (op : Opcode) (c : Val) : Ok (addc op w x y c) := by
  have hcarry : Ok (carryOut w x y c) := by
    unfold carryOut
    split
    · exact ⟨_, rfl⟩
    · rw [shr_ok (by omega)]
      exact ⟨_, rfl⟩
  refine .bind ⟨_, maskBits_ok w⟩ fun m _ => ?_
  split
  · exact hcarry.bind fun p _ => ⟨_, rfl⟩
  · exact ⟨_, rfl⟩

theorem ok_mul2 (op : Opcode) (hw : 0 < w) (hw' : w < 128) : Ok (mul2 op w x y) :=
  .bind ⟨_, maskBits_ok w⟩ fun _ _ => (ok_sextIf _ hw).bind fun _ _ =>
    (ok_sextIf _ hw).bind fun _ _ => .bind ⟨_, shr_ok hw'⟩ fun _ _ => ⟨_, rfl⟩

theorem rotateBy_ok (op : Opcode) (amount : Val) (hw : 0 < w) (hw' : w ≤ 128) :
    ∃ n, rotateBy op w amount = .ok n ∧ n < w := by
  have hlt : amount.toNat % w < w := Nat.mod_lt _ hw
  have hmod : amount.toNat % w % 2 ^ 32 = amount.toNat % w := Nat.mod_eq_of_lt (by omega)
  unfold rotateBy
  rw [rem_ok hw]
  show ∃ n, (if op = .rotl then _ else sub w (amount.toNat % w % 2 ^ 32) >>= _) = .ok n ∧ n < w
  rw [hmod]
  split
  · exact ⟨_, rfl, hlt⟩
  · rw [sub_ok hlt.le]
    exact ⟨_, rem_ok hw, Nat.mod_lt _ hw⟩

theorem ok_rotate (op : Opcode) (hw : 0 < w) (hw' : w ≤ 128) : Ok (rotate op w x y) := by
  obtain ⟨n, hn, hlt⟩ := rotateBy_ok op y hw hw'
  unfold rotate
  rw [hn]
  show Ok (if n = 0 then _ else _)
  split
  · exact ⟨_, rfl⟩
  · exact .bind ⟨_, shl_ok (by omega)⟩ fun _ _ => .bind ⟨_, sub_ok hlt.le⟩ fun k hk => by
      cases (sub_ok hlt.le).symm.trans hk
      exact .bind ⟨_, shr_ok (by omega)⟩ fun _ _ => .bind ⟨_, maskBits_ok w⟩ fun _ _ => ⟨_, rfl⟩

theorem rotateCarry_ok (op : Opcode) (c : Val) (hw : 0 < w) (hw' : w ≤ 128) :
    rotateCarry op w x c = .ok (if op = .rotlc
      then ((x <<< 1 ||| c) &&& Interp.maskBits w, x >>> (w - 1) &&& 1#128)
      else ((x >>> 1 ||| c <<< (w - 1)) &&& Interp.maskBits w, x &&& 1#128)) := by
  unfold rotateCarry
  rw [maskBits_ok, sub_ok (by omega), shl_ok (by decide), shr_ok (by decide)]
  show (if op = .rotlc then (shr x (w - 1)).bind _ else (shl c (w - 1)).bind _) = _
  rw [shr_ok (by omega), shl_ok (by omega)]
  split <;> rfl

theorem divide_panics {op : Opcode} (hw : 0 < w)
    (h : (op = .divS ∨ op = .remS) ∧ Interp.sext y w = 0#128) :
    ∃ what, divide op w x y = byZero what := by
  obtain ⟨hop, hy⟩ := h
  unfold divide sextIf
  rw [if_pos hop, if_pos hop, sext_ok hw, sext_ok hw, hy]
  rcases hop with rfl | rfl
  · exact ⟨_, rfl⟩
  · exact ⟨_, rfl⟩

theorem ok_divide {op : Opcode} (hw : 0 < w) (hy : y ≠ 0#128)
    (h : ¬ ((op = .divS ∨ op = .remS) ∧ Interp.sext y w = 0#128)) : Ok (divide op w x y) := by
  have hquot : ∀ {x y : Val}, y ≠ 0#128 → Ok (quotient op x y) := by
    intro x y hy
    unfold quotient
    split
    · exact ⟨_, rfl⟩
    · exact ⟨_, rfl⟩
  refine (ok_sextIf _ hw).bind fun x _ => (ok_sextIf _ hw).bind fun y' hy' => ?_
  refine (hquot ?_).bind fun q _ => .bind ⟨_, maskBits_ok w⟩ fun _ _ => ⟨_, rfl⟩
  rintro rfl
  unfold sextIf at hy'
  split at hy'
  · rename_i hop
    exact h ⟨hop, Except.ok.inj ((sext_ok hw).symm.trans hy')⟩
  · exact hy (Except.ok.inj hy')

theorem shift_ok (op : Opcode) (amount : Val) (hw : 0 < w) (hw' : w ≤ 128) :
    shift op w x amount = .ok (shifted op w x amount &&& Interp.maskBits w) := by
  have hvalue : shiftValue op w (Interp.maskBits w) x amount = .ok (shifted op w x amount) := by
    unfold shiftValue shifted
    rw [sext_ok hw]
    by_cases hlt : w ≤ amount.toNat
    · rw [if_pos hlt, if_pos hlt]
      by_cases hop : op = .sar
      · simp only [hop, if_true, true_and]
        rfl
      · simp only [hop, if_false, false_and]
    · rw [if_neg hlt, if_neg hlt, Nat.mod_eq_of_lt (by omega), shl_ok (by omega),
        shr_ok (by omega)]
      show _ = Except.ok _
      split
      · rfl
      · split
        · rfl
        · exact sar_ok (by omega)
  unfold shift
  rw [maskBits_ok]
  show (shiftValue op w (Interp.maskBits w) x amount).bind _ = _
  rw [hvalue]
  rfl

theorem ok_count (op : Opcode) (hw : w ≤ 128) : Ok (count op w x) := by
  unfold count
  rw [sub_ok hw]
  split
  · exact ⟨_, rfl⟩
  · exact ⟨_, rfl⟩

end Checked

/-- The low `w` bits agree. -/
def SameLow (w : Nat) (x y : Val) : Prop := ∀ j < w, x.getLsbD j = y.getLsbD j

theorem sameLow_iff_mask : SameLow w x y ↔ x &&& maskBits w = y &&& maskBits w := by
  constructor
  · intro h
    refine BitVec.eq_of_getLsbD_eq fun j _ => ?_
    rw [BitVec.getLsbD_and, BitVec.getLsbD_and, getLsbD_maskBits]
    by_cases hj : j < w
    · rw [h j hj]
    · simp [hj]
  · intro h j hj
    have hbit := congrArg (fun v => v.getLsbD j) h
    simp only [BitVec.getLsbD_and, getLsbD_maskBits, hj, decide_true, Bool.true_and] at hbit
    by_cases h128 : j < 128
    · simpa only [h128, decide_true, Bool.and_true] using hbit
    · rw [BitVec.getLsbD_of_ge x j (by omega), BitVec.getLsbD_of_ge y j (by omega)]

theorem sameLow_iff_setWidth : SameLow w x y ↔ x.setWidth w = y.setWidth w := by
  constructor
  · intro h
    refine BitVec.eq_of_getLsbD_eq fun j hj => ?_
    rw [BitVec.getLsbD_setWidth, BitVec.getLsbD_setWidth, h j hj]
  · intro h j hj
    have hbit := congrArg (fun v => v.getLsbD j) h
    simpa [BitVec.getLsbD_setWidth, hj] using hbit

theorem mask_mask_of_le {v : Nat} (h : v ≤ w) (x : Val) :
    x &&& maskBits v &&& maskBits w = x &&& maskBits v := by
  refine BitVec.eq_of_getLsbD_eq fun j hj => ?_
  simp only [BitVec.getLsbD_and, getLsbD_maskBits, hj, decide_true, Bool.and_true]
  by_cases hv : j < v
  · have hw : j < w := by omega
    simp [hv, hw]
  · simp [hv]

namespace SameLow

theorem refl (x : Val) : SameLow w x x := fun _ _ => rfl

theorem mask (x : Val) : SameLow w x (x &&& maskBits w) := by
  rw [sameLow_iff_mask, BitVec.and_assoc, BitVec.and_self]

theorem mono {v : Nat} (h : SameLow w x y) (hv : v ≤ w) : SameLow v x y :=
  fun j hj => h j (by omega)

theorem eq (h : SameLow w x y) (hw : 128 ≤ w) : x = y :=
  BitVec.eq_of_getLsbD_eq fun j hj => h j (by omega)

theorem add (hw : w ≤ 128) (hx : SameLow w x x') (hy : SameLow w y y') :
    SameLow w (x + y) (x' + y') := by
  rw [sameLow_iff_setWidth] at *
  rw [BitVec.setWidth_add x y hw, BitVec.setWidth_add x' y' hw, hx, hy]

theorem mul (hw : w ≤ 128) (hx : SameLow w x x') (hy : SameLow w y y') :
    SameLow w (x * y) (x' * y') := by
  rw [sameLow_iff_setWidth] at *
  rw [BitVec.setWidth_mul x y hw, BitVec.setWidth_mul x' y' hw, hx, hy]

theorem sub (hw : w ≤ 128) (hx : SameLow w x x') (hy : SameLow w y y') :
    SameLow w (x - y) (x' - y') := by
  rw [sameLow_iff_setWidth] at *
  rw [BitVec.sub_eq_add_neg, BitVec.sub_eq_add_neg, BitVec.setWidth_add _ _ hw,
    BitVec.setWidth_add _ _ hw, BitVec.setWidth_neg_of_le hw, BitVec.setWidth_neg_of_le hw, hx, hy]

theorem and (hx : SameLow w x x') (hy : SameLow w y y') : SameLow w (x &&& y) (x' &&& y') :=
  fun j hj => by rw [BitVec.getLsbD_and, BitVec.getLsbD_and, hx j hj, hy j hj]

theorem or (hx : SameLow w x x') (hy : SameLow w y y') : SameLow w (x ||| y) (x' ||| y') :=
  fun j hj => by rw [BitVec.getLsbD_or, BitVec.getLsbD_or, hx j hj, hy j hj]

theorem xor (hx : SameLow w x x') (hy : SameLow w y y') : SameLow w (x ^^^ y) (x' ^^^ y') :=
  fun j hj => by rw [BitVec.getLsbD_xor, BitVec.getLsbD_xor, hx j hj, hy j hj]

theorem not (hx : SameLow w x x') : SameLow w (~~~x) (~~~x') :=
  fun j hj => by rw [BitVec.getLsbD_not, BitVec.getLsbD_not, hx j hj]

theorem shiftLeft (hx : SameLow w x x') (n : Nat) : SameLow w (x <<< n) (x' <<< n) :=
  fun j hj => by rw [BitVec.getLsbD_shiftLeft, BitVec.getLsbD_shiftLeft, hx (j - n) (by omega)]

end SameLow

theorem getLsbD_sext (x : Val) {j : Nat} (hw : 0 < w) (hw' : w ≤ 128) (hj : j < 128) :
    (sext x w).getLsbD j = x.getLsbD (min j (w - 1)) := by
  unfold sext
  split
  · rw [Nat.min_eq_left (by omega)]
  · rw [BitVec.getLsbD_sshiftRight, BitVec.msb_eq_getLsbD_last]
    simp only [BitVec.getLsbD_shiftLeft]
    by_cases h : j < w
    · have h1 : 128 - w + j < 128 := by omega
      have h2 : 128 - w + j - (128 - w) = j := by omega
      have h3 : min j (w - 1) = j := by omega
      simp [h1, h2, h3, hj]
    · have h1 : ¬ 128 - w + j < 128 := by omega
      have h2 : 127 - (128 - w) = w - 1 := by omega
      have h3 : min j (w - 1) = w - 1 := by omega
      have h4 : ¬ 127 < 128 - w := by omega
      simp only [h1, h2, h3, h4, if_false, decide_false, Bool.not_false, Bool.and_true]
      simp [hj]

theorem SameLow.sext (h : SameLow w x y) (hw : 0 < w) (hw' : w ≤ 128) : sext x w = sext y w := by
  refine BitVec.eq_of_getLsbD_eq fun j hj => ?_
  rw [getLsbD_sext x hw hw' hj, getLsbD_sext y hw hw' hj, h _ (by omega)]

theorem sameLow_sext (x : Val) (hw : 0 < w) (hw' : w ≤ 128) : SameLow w (sext x w) x := by
  intro j hj
  rw [getLsbD_sext x hw hw' (by omega), Nat.min_eq_left (by omega)]

theorem sext_eq_zero (hw : 0 < w) (hw' : w ≤ 128) :
    sext x w = 0#128 ↔ x &&& maskBits w = 0#128 := by
  have hzero : (0#128) &&& maskBits w = 0#128 := BitVec.zero_and
  constructor
  · intro h
    have := sameLow_sext x hw hw'
    rw [h, sameLow_iff_mask, hzero] at this
    exact this.symm
  · intro h
    have hlow : SameLow w x 0#128 := by rw [sameLow_iff_mask, h, hzero]
    rw [hlow.sext hw hw']
    refine BitVec.eq_of_getLsbD_eq fun j hj => ?_
    rw [getLsbD_sext _ hw hw' hj, BitVec.getLsbD_zero, BitVec.getLsbD_zero]

end Rsemu.Ir.Interp
