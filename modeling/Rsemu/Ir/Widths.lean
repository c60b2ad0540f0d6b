import Rsemu.Ir.Linked

/-!
# Operands wider than their instruction

The verifier lists the operations whose answer depends on the width of their operands and
makes these be of the instruction's own type; for the others, it says, masking the result is
the whole difference. Here an instruction is compared with a copy of it that reads its value
operands masked. `Kind.exposed` are the operands that may not be wider, by what the
instruction does and where its result goes: the verifier's list is short by ten operations,
by half of the conditions of a comparison, and by the moves into a wider temporary.
-/

namespace Rsemu.Ir.Interp

open Fallible (exec Ensures)

variable {W : Type} {α : Type}

def maskedCopy (inst : Inst) (temps : List Val) (k : Nat) (t : Temp) : Val :=
  let v := temps[t]?.getD 0#128
  if inst.op.isValue k then v &&& maskBits inst.ty.bits else v

def maskedTemps (inst : Inst) (temps : List Val) : List Val :=
  temps ++ inst.srcs.mapIdx (maskedCopy inst temps)

def maskedBlock (b : Block) (inst : Inst) : Block :=
  { b with types := b.types ++ inst.srcs.map fun t => (b.typeOf t).getD .i128 }

def maskedInst (b : Block) (inst : Inst) : Inst :=
  inst.reading (List.range' b.tempCount inst.srcs.length)

/-- How a step ends: with a decision, with an error that it returns, or in a panic. -/
def ending : Except Error Step → Option (Option Step)
  | .ok x => some (some x)
  | .error (.panic _) => none
  | .error _ => some none

/-- **Masking changes nothing.** The instruction decides the same, or returns an error as
well, and leaves the same in every temporary of the block, its results included. -/
def SameMasked (host : IrHost W) (b : Block) (inst : Inst) (i : Nat) (c : Core W) : Prop :=
  let r := exec (coreStep host b inst i) c
  let r' := exec (coreStep host (maskedBlock b inst) (maskedInst b inst) i)
    { c with temps := maskedTemps inst c.temps }
  ending r'.1 = ending r.1 ∧ r'.2.temps.take b.tempCount = r.2.temps

/-- What the temporaries of a block can hold: a value of its own type each. -/
structure Assignment (b : Block) (temps : List Val) : Prop where
  length : temps.length = b.tempCount
  typed : ∀ t ty v, b.typeOf t = some ty → temps[t]? = some v → v &&& maskBits ty.bits = v

/-- No value operand is wider than the instruction, but at the positions `wide`. -/
def NarrowBut (wide : List Nat) (b : Block) (inst : Inst) : Prop :=
  ∀ p ∈ inst.srcs.zipIdx, p.2 ∈ wide ∨ inst.op.isValue p.2 = false ∨
    (b.typeOf p.1).all (fun ty => decide (ty.bits ≤ inst.ty.bits)) = true

instance (wide : List Nat) (b : Block) (inst : Inst) : Decidable (NarrowBut wide b inst) :=
  List.decidableBAll _ _

def unlisted : List Opcode :=
  [.mov, .extS, .extZ, .trunc, .deposit, .extract, .add, .sub, .mul, .neg, .divS, .divU, .remS,
    .remU, .addc, .subb, .mulhsu, .and, .or, .xor, .andc, .not, .shl, .shr, .sar, .rotlc, .rotrc,
    .setcond, .movcond, .brcond]

/-- Where the result goes: nowhere, to a temporary no wider than the type, or to a wider one. -/
inductive Room where
  | none | narrow | wide
  deriving DecidableEq

def roomOf (b : Block) (inst : Inst) : Room :=
  if inst.op = .brcond then .none
  else
    inst.dst.elim .none fun d =>
      if (b.typeOf d).all (fun ty => decide (ty.bits ≤ inst.ty.bits)) then .narrow else .wide

/-- A kind of instruction. The number of its operands is in the form. -/
structure Kind where
  op : Opcode
  ty : Ty
  form : Form
  room : Room

def kindOf (b : Block) (inst : Inst) : Kind := ⟨inst.op, inst.ty, inst.form, roomOf b inst⟩

/-- **The operands that may not be wider than the instruction.** -/
def Kind.exposed (kind : Kind) : List Nat :=
  if kind.ty = .i128 then []
  else
    match kind.form with
    | .broken => []
    | .compare c =>
      (if c.isSigned = true ∨ kind.op ∉ [.setcond, .brcond, .movcond] ∨
          kind.op = .movcond ∧ kind.room = .none then [] else [0, 1]) ++
        if kind.op = .movcond ∧ kind.room = .wide then [2, 3] else []
    | .plain =>
      match kind.op with
      | .mov | .extS | .extZ | .trunc | .deposit => if kind.room = .wide then [0] else []
      | .movcond => if kind.room = .wide then [1, 2] else []
      | .divS | .remS => [1]
      | .divU | .remU => if kind.room = .none then [] else if kind.ty = .i1 then [1] else [0, 1]
      | .addc | .subb => if kind.room = .none then [] else [0, 1]
      | .mulhsu => if kind.room = .none then [] else [1]
      | .shr => if kind.ty = .i1 ∨ kind.room = .none then [] else [0]
      | .rotrc => if kind.room = .none then [] else [0]
      | _ => []

/-- No verified block tells the instructions of a kind from their masked copies, when only
the operands `wide` are wider than they are. -/
def MaskingHarmless (kind : Kind) (wide : List Nat) : Prop :=
  ∀ (W : Type) (host : IrHost W) (b : Block) (inst : Inst) (i : Nat) (c : Core W),
    verify b = .ok () → b.insts[i]? = some inst → kindOf b inst = kind → NarrowBut wide b inst →
    Assignment b c.temps → SameMasked host b inst i c

section Masked

variable {host : IrHost W} {b : Block} {inst : Inst} {i : Nat} {c : Core W}

def Copied (inst : Inst) (temps : List Val) : TempRel := fun _ l l' =>
  l.length = temps.length ∧ l' = l ++ inst.srcs.mapIdx (maskedCopy inst temps) ∧
    ∀ t ∈ inst.srcs, l[t]? = temps[t]?

/-- `v'` is what a copy of operand `k` masked to its width would hold. -/
def CopyOf (inst : Inst) (temps : List Val) (k : Nat) (v v' : Val) : Prop :=
  ∃ t, inst.srcs[k]? = some t ∧ temps[t]? = some v ∧ v' = maskedCopy inst temps k t

theorem CopyOf.eq {temps : List Val} {k : Nat} {v v' : Val} (h : CopyOf inst temps k v v') :
    v' = if inst.op.isValue k then v &&& maskBits inst.ty.bits else v := by
  obtain ⟨t, -, hv, rfl⟩ := h
  simp [maskedCopy, hv]

theorem linked_masked (hb : Verified b) (hi : b.insts[i]? = some inst)
    (hc : Assignment b c.temps) :
    Linked b (maskedBlock b inst) inst (List.range' b.tempCount inst.srcs.length)
      (Copied inst c.temps) (CopyOf inst c.temps) := by
  have hread : ∀ t ∈ inst.srcs, t < b.tempCount ∧ t ∉ inst.dsts := by
    intro t ht
    obtain ⟨j, hj, ha⟩ := hb.reads i t ⟨inst, hi, ht⟩
    refine ⟨hb.allocated j t ha, fun hd => ?_⟩
    have := hb.once j i t ha ⟨inst, hi, hd⟩
    omega
  have hclen := hc.length
  have hwrite : ∀ d ∈ inst.dsts, d < b.tempCount := fun d hd => hb.allocated i d ⟨inst, hi, hd⟩
  have hcopy : ∀ {k : Nat} {t' : Temp},
      (List.range' b.tempCount inst.srcs.length)[k]? = some t' → t' = b.tempCount + k := by
    intro k t' h
    obtain ⟨hk, he⟩ := List.getElem?_eq_some_iff.mp h
    rw [← he]
    simp
  refine ⟨by simp, fun k v v' hV => ?_, ?_, ?_, ?_, ?_, ?_, fun _ _ _ _ h _ => h, ?_, ?_⟩
  · obtain ⟨t, ht, -⟩ := hV
    exact (List.getElem?_eq_some_iff.mp ht).1
  · intro l l' hT k t t' ht ht'
    obtain ⟨hlen, rfl, hkeep⟩ := hT
    have hmem := List.mem_of_getElem? ht
    obtain rfl := hcopy ht'
    have htl : t < c.temps.length := by rw [hc.length]; exact (hread t hmem).1
    refine .inr ⟨c.temps[t], maskedCopy inst c.temps k t, ?_, ?_, t, ht, ?_, rfl⟩
    · rw [hkeep t hmem]
      exact List.getElem?_eq_getElem htl
    · rw [List.getElem?_append_right (by omega), List.getElem?_mapIdx, hlen, hclen,
        Nat.add_sub_cancel_left, ht]
      rfl
    · exact List.getElem?_eq_getElem htl
  · intro t t' ht ht'
    obtain rfl := hcopy ht'
    have hlt := (hread t (List.mem_of_getElem? ht)).1
    have hty : b.types[t]? = some b.types[t] := List.getElem?_eq_getElem hlt
    simp only [Block.typeOf, maskedBlock, Block.tempCount, Nat.add_zero, Nat.le_refl,
      List.getElem?_append_right, Nat.sub_self, List.getElem?_map, ht, Option.map_some, hty,
      Option.getD_some]
  · intro d hd
    have hlt := hwrite d hd
    exact List.getElem?_append_left hlt
  · intro ws l l' hT d hd
    obtain ⟨hlen, rfl, -⟩ := hT
    have hlt : d < l.length := Nat.lt_of_lt_of_eq (hwrite d hd) (hclen.symm.trans hlen.symm)
    refine ⟨fun _ => hlt, fun _ => ?_⟩
    rw [List.length_append]
    exact Nat.lt_of_lt_of_le hlt (Nat.le_add_right _ _)
  · intro ws l l' hT d hd v
    obtain ⟨hlen, rfl, hkeep⟩ := hT
    have hlt : d < l.length := by rw [hlen, hc.length]; exact hwrite d hd
    refine ⟨by rw [List.length_set, hlen], List.set_append_left d v hlt, fun t ht => ?_⟩
    have hne : d ≠ t := by
      rintro rfl
      exact (hread d ht).2 hd
    rw [List.getElem?_set_ne hne]
    exact hkeep t ht
  · intro k v v' hV
    rw [hV.eq]
    split
    · exact .mask v
    · exact .refl v
  · intro k v v' hk hV
    rw [hV.eq, hk]
    rfl

theorem sameMasked_of_steady (hb : Verified b) (hi : b.insts[i]? = some inst)
    (hc : Assignment b c.temps) (h : Steady b inst (CopyOf inst c.temps)) :
    SameMasked host b inst i c := by
  have hT : Rel (Copied inst c.temps) [] c { c with temps := maskedTemps inst c.temps } :=
    ⟨⟨rfl, rfl, fun _ _ => rfl⟩, rfl⟩
  have hsim := coreStep_sim host i (linked_masked hb hi hc) h c _ hT
  have htake : ∀ {l l' : List Val}, Copied inst c.temps [] l l' → l'.take b.tempCount = l := by
    intro l l' hl
    obtain ⟨hlen, rfl, -⟩ := hl
    rw [← hc.length, ← hlen, List.take_left]
  unfold SameMasked
  revert hsim
  show Fallible.Alike _ _ (exec (coreStep host b inst i) c)
    (exec (coreStep host (maskedBlock b inst) (maskedInst b inst) i)
      { c with temps := maskedTemps inst c.temps }) → _
  generalize exec (coreStep host b inst i) c = x
  generalize exec (coreStep host (maskedBlock b inst) (maskedInst b inst) i)
    { c with temps := maskedTemps inst c.temps } = x'
  intro hsim
  cases hsim with
  | ok hq => exact ⟨by rw [hq.1], htake hq.2.1.1⟩
  | error he => exact ⟨rfl, htake he.1⟩

theorem sameWords_of_narrow (hc : Assignment b c.temps) (hb : Verified b)
    (hi : b.insts[i]? = some inst) {wide : List Nat} (h : NarrowBut wide b inst) {k : Nat}
    (hk : k ∉ wide) : SameWords (CopyOf inst c.temps) k := by
  intro v v' hV
  rw [hV.eq]
  split
  · rename_i hvalue
    obtain ⟨t, ht, hv, -⟩ := hV
    obtain ⟨j, hj, ha⟩ := hb.reads i t ⟨inst, hi, List.mem_of_getElem? ht⟩
    obtain ⟨ty, hty⟩ : ∃ ty, b.typeOf t = some ty :=
      ⟨_, List.getElem?_eq_getElem (hb.allocated j t ha)⟩
    have hfull := hc.typed t ty v hty hv
    have hle : ty.bits ≤ inst.ty.bits := by
      have hpos := h (t, k) (List.mk_mem_zipIdx_iff_getElem?.mpr ht)
      simpa [hk, hvalue, hty] using hpos
    rw [← hfull, mask_mask_of_le hle]
  · rfl

theorem fits_of_room (hop : inst.op ≠ .brcond) (h : roomOf b inst ≠ .wide) : b.Fits inst := by
  intro d ty hd hty
  by_contra hle
  simp [roomOf, hop, hd, hty, hle] at h

theorem room_none (hop : inst.op ≠ .brcond) : roomOf b inst = .none ↔ inst.dst = none := by
  unfold roomOf
  rw [if_neg hop]
  cases inst.dst with
  | none => simp
  | some d =>
    simp only [Option.elim_some, reduceCtorEq, iff_false]
    split
    · exact nofun
    · exact nofun

theorem divide_unsigned {op : Opcode} {w : Nat} {x y : Val} (hop : op = .divU ∨ op = .remU)
    (hy : y ≠ 0#128) : Checked.divide op w x y =
      .ok ((if op = .divU then x / y else x % y) &&& maskBits w) := by
  have hq : Checked.quotient op x y = .ok (if op = .divU then x / y else x % y) := by
    rcases hop with rfl | rfl
    all_goals simp [Checked.quotient, hy]
  have hs : ¬ (op = .divS ∨ op = .remS) := by
    rcases hop with rfl | rfl
    all_goals simp
  unfold Checked.divide Checked.sextIf
  rw [if_neg hs, if_neg hs, Checked.maskBits_ok]
  show (Checked.quotient op x y).bind _ = _
  rw [hq]
  rfl

theorem divide_steady (hb : Verified b) (hi : b.insts[i]? = some inst)
    (hc : Assignment b c.temps) (hop : inst.op ∈ [Opcode.divS, .divU, .remS, .remU])
    (h1 : SameWords (CopyOf inst c.temps) 1)
    (h0 : inst.op = .divU ∨ inst.op = .remU → inst.ty = .i1 ∨ SameWords (CopyOf inst c.temps) 0)
    (x x' y y' : Val) (hx : CopyOf inst c.temps 0 x x') (hy : CopyOf inst c.temps 1 y y') :
    y = y' ∧ (y ≠ 0#128 → Both (SameAt b inst) (Checked.divide inst.op inst.ty.bits x y)
      (Checked.divide inst.op inst.ty.bits x' y)) := by
  have hlow := (linked_masked hb hi hc).low 0 x x' hx
  have hpos := inst.ty.bits_pos
  obtain rfl := h1 y y' hy
  refine ⟨rfl, fun hzero => ?_⟩
  by_cases hsigned : inst.op = .divS ∨ inst.op = .remS
  · refine .inl ?_
    simp only [Checked.divide, Checked.sextIf, hsigned, if_true, Checked.sext_ok hpos,
      hlow.sext hpos inst.ty.bits_le]
  · have hunsigned : inst.op = .divU ∨ inst.op = .remU := by
      simp only [List.mem_cons, List.not_mem_nil, or_false] at hop
      tauto
    rcases h0 hunsigned with hty | hex
    · have hvalue : inst.op.isValue 1 = true := by
        rcases hunsigned with h | h
        all_goals rw [h]; rfl
      -- a bit that is not zero is one
      have hbit : y = 1#128 := by
        have hmask : y = y &&& 1#128 := by
          have := hy.eq
          rwa [hvalue, if_pos rfl, hty] at this
        have hmod := congrArg BitVec.toNat hmask
        rw [BitVec.toNat_and, BitVec.toNat_ofNat, Nat.one_mod_eq_one.mpr (by decide),
          Nat.and_one_is_mod] at hmod
        apply BitVec.eq_of_toNat_eq
        have hne : y.toNat ≠ 0 := fun h => hzero (BitVec.eq_of_toNat_eq h)
        rw [BitVec.toNat_ofNat]
        omega
      subst hbit
      refine .inr ⟨_, _, divide_unsigned hunsigned hzero, divide_unsigned hunsigned hzero,
        .of_mask ?_⟩
      rw [BitVec.udiv_one, BitVec.udiv_one, BitVec.umod_one, BitVec.umod_one]
      split
      · exact hlow
      · exact .refl _
    · rw [hex x x' hx]
      exact .inl rfl

theorem op_of_compare {c : Cond} (h : inst.form = .compare c) :
    inst.op ∈ [Opcode.setcond, .brcond, .movcond] := by
  unfold Inst.form at h
  dsimp only at h
  split at h
  all_goals first
    | simp [*]; done
    | split at h <;> cases h

theorem steady_of_exposed (hop : inst.op ∈ unlisted) (hb : Verified b)
    (hi : b.insts[i]? = some inst) (hc : Assignment b c.temps) (hty : inst.ty ≠ .i128)
    (hsame : ∀ k ∈ (kindOf b inst).exposed, SameWords (CopyOf inst c.temps) k)
    (hdst : inst.dst = none → inst.op ∉ [Opcode.movcond, .divU, .remU]) :
    Steady b inst (CopyOf inst c.temps) := by
  have hat : inst.op ≠ .brcond → ∀ k, (roomOf b inst = .wide → k ∈ (kindOf b inst).exposed) →
      ∀ v v', CopyOf inst c.temps k v v' → SameAt b inst v v' := by
    intro hne k hk v v' hV
    by_cases hroom : roomOf b inst = .wide
    · rw [hsame k (hk hroom) v v' hV]
      exact .of_eq _
    · exact .of_fits (fits_of_room hne hroom) ((linked_masked hb hi hc).low k v v' hV)
  unfold Steady
  split
  · trivial
  · rename_i hform
    have hor : ∀ {P : Prop}, (inst.dst ≠ none → P) → inst.dst = none ∨ P :=
      or_iff_not_imp_left.mpr
    have hone : ∀ {P : Prop}, (inst.ty ≠ .i1 → P) → inst.ty = .i1 ∨ P := or_iff_not_imp_left.mpr
    have hexp : inst.op = .divU ∨ inst.op = .remU →
        (kindOf b inst).exposed = if inst.ty = .i1 then [1] else [0, 1] := by
      rintro (heq | heq)
      all_goals
        have hd : inst.dst ≠ none := fun h => hdst h (by simp [heq])
        simp only [kindOf, Kind.exposed, hty, hform, heq, if_false, room_none, hd, ne_eq,
          reduceCtorEq, not_false_eq_true]
    have hexp' : inst.op = .divS ∨ inst.op = .remS → (kindOf b inst).exposed = [1] := by
      rintro (heq | heq)
      all_goals simp only [kindOf, Kind.exposed, hty, hform, heq, if_false]
    have hdiv : ∀ hd : inst.op ∈ [Opcode.divS, .divU, .remS, .remU], _ :=
      fun hd => divide_steady hb hi hc hd (hsame 1 (by
        by_cases hu : inst.op = .divU ∨ inst.op = .remU
        · rw [hexp hu]
          split
          · exact List.mem_singleton.mpr rfl
          · exact List.mem_cons_of_mem 0 (List.mem_singleton.mpr rfl)
        · rw [hexp' (by simp at hd; tauto)]
          exact List.mem_singleton.mpr rfl))
        fun hu => hone fun ht => hsame 0 (by rw [hexp hu, if_neg ht]; exact List.mem_cons_self)
    unfold SteadyPlain
    split
    -- One group of operations after the other.
    all_goals try
      rename_i heq
      simp only [kindOf, Kind.exposed, hty, hform, heq, if_false, room_none, ne_eq, reduceCtorEq,
        not_false_eq_true, forall_const] at hsame hat hdst
    all_goals first
      | trivial
      | exact hat 0 fun h => by simp [h]
      | exact fun k hk => hat k fun h => by simpa [h] using hk
      | exact hone fun ht => hor fun hd => hsame 0 (by simp [ht, hd])
      | exact hor fun hd => hsame 0 (by simp [hd])
      | exact hor fun hd => hsame 1 (by simp [hd])
      | exact hor fun hd => ⟨hsame 0 (by simp [hd]), hsame 1 (by simp [hd])⟩
      | exact hdiv (by simp [heq])
      | simp_all [unlisted]
  · rename_i c hform
    refine ⟨?_, fun hmov k hk => hat (by simp [hmov]) k fun hroom => ?_⟩
    · by_cases hs : c.isSigned = true
      · exact .inl hs
      have hop := op_of_compare hform
      have hmov : ¬ (inst.op = .movcond ∧ inst.dst = none) :=
        fun h => hdst h.2 (by simp [h.1])
      have hexp : ∀ k ∈ [0, 1], k ∈ (kindOf b inst).exposed := by
        intro k hk
        have hroom : ¬ (inst.op = .movcond ∧ roomOf b inst = .none) :=
          fun h => hmov ⟨h.1, (room_none (by simp [h.1])).mp h.2⟩
        simp only [kindOf, Kind.exposed, hty, hform, hs, hop, hroom, if_false,
          not_true_eq_false, or_self]
        exact List.mem_append.mpr (.inl hk)
      exact .inr (.inr ⟨hsame 0 (hexp 0 (by decide)), hsame 1 (hexp 1 (by decide))⟩)
    · simp only [kindOf, Kind.exposed, hty, hform, hmov, hroom, if_false, and_self, if_true]
      exact List.mem_append.mpr (.inr hk)

theorem ensures_write {P : Step → Prop} (hd : inst.dst = none) (v : Val) :
    Ensures (do writeDst b inst v i; pure .next : CoreM W Step) P := by
  unfold writeDst
  rw [hd]
  exact .throw_bind

theorem refused (host : IrHost W) (b : Block) {inst : Inst} (i : Nat) (c : Core W)
    (hop : inst.op ∈ [Opcode.movcond, .divU, .remU]) (hd : inst.dst = none) :
    ending (exec (coreStep host b inst i) c).1 = some none ∧
      (exec (coreStep host b inst i) c).2.temps = c.temps := by
  have hall : Ensures (coreStep host b inst i) (fun _ => False) ∧
      Touches False [] (coreStep host b inst i) := by
    have hdsts : ({ inst with dst2 := none } : Inst).dsts = [] := by simp [Inst.dsts, hd]
    have hdiv : inst.op ≠ .divS ∧ inst.op ≠ .remS →
        Ensures (stepDiv b inst i : CoreM W Step) (fun _ => False) ∧
          Touches False [] (stepDiv b inst i : CoreM W Step) := by
      refine fun hne => ⟨(Ensures.trivial _).bind fun _ _ => (Ensures.trivial _).bind fun x _ =>
        (Ensures.trivial _).bind fun y _ => ?_, ?_⟩
      · split
        · exact .throw
        · exact (Ensures.trivial _).bind fun v _ => ensures_write hd v
      · rw [← hdsts]
        exact (stays_div b { inst with dst2 := none } i fun h => h.elim hne.1 hne.2).toTouches
    simp only [List.mem_cons, List.not_mem_nil, or_false] at hop
    rcases hop with hop | hop | hop
    · simp only [coreStep, hop]
      refine ⟨(Ensures.trivial _).bind fun t _ => (Ensures.trivial _).bind fun v _ =>
        ensures_write hd v, ?_⟩
      rw [← hdsts]
      exact (stays_movcond b { inst with dst2 := none } i).toTouches
    · simp only [coreStep, hop]
      exact hdiv (by simp [hop])
    · simp only [coreStep, hop]
      exact hdiv (by simp [hop])
  refine ⟨?_, List.ext_getElem? fun t => hall.2.temps c t List.not_mem_nil⟩
  rcases hrun : exec (coreStep host b inst i) c with ⟨e | x, c'⟩
  · have hcalm := hall.2.calm c e (by rw [hrun])
    cases e with
    | panic message => exact (hcalm trivial).elim
    | ir _ | bus _ | helper _ => rfl
  · exact (hall.1 c x c' hrun).elim

theorem maskingHarmless_of_exposed {kind : Kind} {wide : List Nat} (hop : kind.op ∈ unlisted)
    (h : ∀ k ∈ kind.exposed, k ∉ wide) : MaskingHarmless kind wide := by
  intro W host b inst i c hv hi hkind hnarrow hc
  have hb := verify_ok hv
  subst hkind
  by_cases hdst : inst.dst = none ∧ inst.op ∈ [Opcode.movcond, .divU, .remU]
  · have hleft := refused host b i c hdst.2 hdst.1
    have hright := @refused _ host (maskedBlock b inst) (maskedInst b inst) i
      { c with temps := maskedTemps inst c.temps } hdst.2 hdst.1
    refine ⟨hright.1.trans hleft.1.symm, ?_⟩
    rw [hright.2, hleft.2]
    show (maskedTemps inst c.temps).take b.tempCount = c.temps
    rw [← hc.length]
    exact List.take_left
  · refine sameMasked_of_steady hb hi hc ?_
    by_cases hty : inst.ty = .i128
    · -- At the full width a word is its own low bits.
      refine .of_same fun k v v' hV => ?_
      have hlow := (linked_masked hb hi hc).low k v v' hV
      rw [hty] at hlow
      exact hlow.eq (Nat.le_refl _)
    · exact steady_of_exposed hop hb hi hc hty
        (fun k hk => sameWords_of_narrow hc hb hi hnarrow (h k hk))
        fun hd hmem => hdst ⟨hd, hmem⟩

end Masked

def above (ty : Ty) : Val := 1#128 <<< ty.bits

/-- What a comparison reads for its operand `k` to be wide, or for the condition to hold
(`k` is 2) or to fail. -/
def exhibitPair (c : Cond) : Nat → List Temp
  | 0 => [0, if c = .ltU ∨ c = .geU then 4 else 3]
  | 1 => [if c = .leU ∨ c = .gtU then 4 else 3, 0]
  | 2 =>
    match c with
    | .eq | .leS | .geS | .leU | .geU => [3, 3]
    | .ne | .gtS | .ltU => [3, 4]
    | .ltS | .gtU => [4, 3]
  | _ =>
    match c with
    | .eq | .leS | .geU => [3, 4]
    | .geS | .leU => [4, 3]
    | .ne | .ltS | .gtS | .ltU | .gtU => [3, 3]

/-- What an exhibit's instruction reads: `t0` holds the bit above the type, at 128 bits; `t1`,
`t3` and `t4` are one, zero and all ones at the type; `t2` is a carry. Only the operand `k` is
wide. -/
def exhibitSrcs (kind : Kind) (k : Nat) : List Temp :=
  match kind.form, kind.op with
  | .compare c, .movcond =>
    exhibitPair c k ++ if k = 2 then [0, 3] else if k = 3 then [3, 0] else [4, 3]
  | .compare c, _ => exhibitPair c k
  | _, .movcond => if k = 1 then [4, 0, 3] else [3, 3, 0]
  | _, .addc | _, .subb => if k = 0 then [0, 4, 2] else [4, 0, 2]
  | _, .mov | _, .extS | _, .extZ | _, .trunc => [0]
  | _, .shr => [0, 1]
  | _, .rotrc => [0, 2]
  | _, _ => if k = 0 then [0, 4] else [4, 0]

/-- An instruction of the kind. -/
def exhibitInst (kind : Kind) (srcs : List Temp) : Inst where
  op := kind.op
  ty := kind.ty
  dst := if kind.room = .none then none else some 5
  dst2 := if kind.op ∈ [.addc, .subb, .rotrc] then some 6 else none
  imm := none
  mem := none
  cond := match kind.form with
    | .compare c => some c
    | _ => none
  -- a branch past itself, or a field of one bit
  aux := if kind.op = .brcond then 6 else 2 ^ 16
  srcs := srcs

/-- A verified block that ends in an instruction of the kind. -/
def exhibitBlock (kind : Kind) (srcs : List Temp) : Block where
  entryPc := 0
  key := 0
  insts := (List.range 5).map (fun t => .plain .mov (some t) [] (some (.int 0#128)) 0) ++
    [exhibitInst kind srcs, .plain .exitTb none [] none 0]
  marks := []
  types := [.i128, kind.ty, .i1, kind.ty, kind.ty,
    if kind.op = .setcond then .i1 else if kind.room = .narrow then kind.ty else .i128, .i1]

def exhibitCore (ty : Ty) : Core Unit :=
  ⟨[above ty, 1#128, 0#128, 0#128, maskBits ty.bits, 0#128, 0#128], 0#64, none, 0#64, 0, 0#64,
    false, ()⟩

/-- The exhibit is a verified block, its instruction is of the kind, with the operand `k` alone
wide, and masking that changes what it does. -/
def exhibits (kind : Kind) (k : Nat) : Bool :=
  let srcs := exhibitSrcs kind k
  let b := exhibitBlock kind srcs
  let inst := exhibitInst kind srcs
  let r := exec (coreStep idleHost b inst 5) (exhibitCore kind.ty)
  let r' := exec (coreStep idleHost (maskedBlock b inst) (maskedInst b inst) 5)
    { exhibitCore kind.ty with temps := maskedTemps inst (exhibitCore kind.ty).temps }
  decide (verify b = .ok ()) && decide (inst.form = kind.form) &&
    decide (roomOf b inst = kind.room) && decide (NarrowBut [k] b inst) &&
    !(decide (ending r'.1 = ending r.1) && decide (r'.2.temps.take 7 = r.2.temps))

def conds : List Cond := [.eq, .ne, .ltS, .leS, .gtS, .geS, .ltU, .leU, .gtU, .geU]

def forms : List Form := .broken :: .plain :: conds.map .compare

theorem mem_forms (form : Form) : form ∈ forms := by
  cases form with
  | broken | plain => decide
  | compare c => cases c <;> decide

/-- The rooms of an operation: of a branch there is one, and the verifier knows that of a
comparison. -/
def roomsOf : Opcode → List Room
  | .brcond => [.none]
  | .setcond => [.narrow]
  | _ => [.none, .narrow, .wide]

theorem exhibits_of_mem : ∀ op ∈ unlisted, ∀ ty ∈ [Ty.i1, .i32, .i64], ∀ form ∈ forms,
    ∀ room ∈ roomsOf op, ∀ k ∈ (Kind.mk op ty form room).exposed,
      exhibits ⟨op, ty, form, room⟩ k = true := by
  decide +kernel

theorem exhibit_assignment (kind : Kind) (srcs : List Temp)
    (hty : kind.ty ∈ [Ty.i1, .i32, .i64]) :
    Assignment (exhibitBlock kind srcs) (exhibitCore kind.ty).temps := by
  have hzero : ∀ w, 0#128 &&& maskBits w = 0#128 := fun w => BitVec.zero_and
  have hone : ∀ t : Ty, 1#128 &&& maskBits t.bits = 1#128 := by
    intro t
    cases t <;> decide
  have habove : above kind.ty &&& maskBits 128 = above kind.ty := by
    rcases List.mem_cons.mp hty with h | hty
    · rw [h]; decide
    · rcases List.mem_cons.mp hty with h | hty
      · rw [h]; decide
      · rw [List.mem_singleton.mp hty]; decide
  refine ⟨rfl, fun t dty v ht hv => ?_⟩
  -- Seven temporaries, each with its type and its value.
  rcases t with _ | _ | _ | _ | _ | _ | _ | t
  · cases ht
    cases hv
    exact habove
  · cases ht
    cases hv
    exact hone _
  · cases ht
    cases hv
    exact hzero _
  · cases ht
    cases hv
    exact hzero _
  · cases ht
    cases hv
    exact BitVec.and_self
  · cases hv
    exact hzero _
  · cases hv
    exact hzero _
  · cases hv

theorem not_maskingHarmless {kind : Kind} {wide : List Nat} {k : Nat}
    (hty : kind.ty ∈ [Ty.i1, .i32, .i64]) (hk : k ∈ wide) (h : exhibits kind k = true) :
    ¬ MaskingHarmless kind wide := by
  intro hmask
  simp only [exhibits, Bool.and_eq_true, decide_eq_true_eq] at h
  obtain ⟨⟨⟨⟨hv, hform⟩, hroom⟩, hnarrow⟩, hdiff⟩ := h
  have hkind : kindOf (exhibitBlock kind (exhibitSrcs kind k))
      (exhibitInst kind (exhibitSrcs kind k)) = kind := by
    rw [kindOf, hform, hroom]
    rfl
  have hsame := hmask Unit idleHost _ (exhibitInst kind (exhibitSrcs kind k)) 5
    (exhibitCore kind.ty) hv rfl hkind ?_ (exhibit_assignment kind _ hty)
  · simp [hsame.1] at hdiff
    exact hdiff hsame.2
  · intro p hp
    refine (hnarrow p hp).imp_left fun hone => ?_
    rw [List.mem_singleton.mp hone]
    exact hk

theorem roomOf_mem {b : Block} {inst : Inst} {i : Nat} (hb : Verified b)
    (hi : b.insts[i]? = some inst) : roomOf b inst ∈ roomsOf inst.op := by
  by_cases hbr : inst.op = .brcond
  · simp [roomOf, roomsOf, hbr]
  by_cases hset : inst.op = .setcond
  · obtain ⟨d, hd, hty⟩ := hb.compares i inst hi hset
    have hle : Ty.i1.bits ≤ inst.ty.bits := inst.ty.bits_pos
    simp [roomOf, roomsOf, hset, hd, hty, hle]
  · have hall : roomsOf inst.op = [.none, .narrow, .wide] := by
      unfold roomsOf
      split
      · exact absurd ‹_› hbr
      · exact absurd ‹_› hset
      · rfl
    rw [hall]
    cases roomOf b inst <;> decide

/-- **Which operands the verifier leaves to be wider though it must not.** Of the operations
on integer temporaries outside its list, at an integer type, every instruction of a kind does
the same with its operands masked, in every verified block and for every assignment, if and
only if none of those wider than its type is exposed. -/
theorem masking_harmless_iff {b : Block} {inst : Inst} {i : Nat} (hv : verify b = .ok ())
    (hi : b.insts[i]? = some inst) (hop : inst.op ∈ unlisted) (hty : inst.ty.isInt = true)
    (wide : List Nat) :
    MaskingHarmless (kindOf b inst) wide ↔ ∀ k ∈ (kindOf b inst).exposed, k ∉ wide := by
  refine ⟨fun h k hk hwide => ?_, maskingHarmless_of_exposed hop⟩
  have hsmall : inst.ty ∈ [Ty.i1, .i32, .i64] := by
    have hne : inst.ty ≠ .i128 := by
      intro he
      simp [kindOf, Kind.exposed, he] at hk
    cases hint : inst.ty <;> simp_all [Ty.isInt]
  exact not_maskingHarmless hsmall hwide
    (exhibits_of_mem inst.op hop inst.ty hsmall inst.form (mem_forms _) (roomOf b inst)
      (roomOf_mem (verify_ok hv) hi) k hk) h

/-- A shift to the right with a wide operand, and an addition with two. -/
theorem masking_harmless_iff_shr :
    ¬ MaskingHarmless ⟨.shr, .i32, .plain, .narrow⟩ [0] ∧
      MaskingHarmless ⟨.add, .i32, .plain, .wide⟩ [0, 1] :=
  ⟨fun h => (masking_harmless_iff (b := exhibitBlock ⟨.shr, .i32, .plain, .narrow⟩ [0, 1])
      (i := 5) rfl rfl (by decide) rfl [0]).mp h 0 (by decide) (by decide),
    (masking_harmless_iff (b := exhibitBlock ⟨.add, .i32, .plain, .wide⟩ [0, 0]) (i := 5)
      rfl rfl (by decide) rfl [0, 1]).mpr (by decide)⟩

/-- A 32-bit shift to the right by one of 2³², in a block that the verifier accepts, is 2³¹;
of the operand's low 32 bits it is zero. -/
theorem wide_shift_differs :
    let b := exhibitBlock ⟨.shr, .i32, .plain, .narrow⟩ [0, 1]
    let inst := exhibitInst ⟨.shr, .i32, .plain, .narrow⟩ [0, 1]
    verify b = .ok () ∧ b.insts[5]? = some inst ∧ Assignment b (exhibitCore .i32).temps ∧
      (exec (coreStep idleHost b inst 5) (exhibitCore .i32)).2.temps[5]? =
        some 0x80000000#128 ∧
      ¬ SameMasked idleHost b inst 5 (exhibitCore .i32) := by
  refine ⟨rfl, rfl, exhibit_assignment _ _ (by decide), by decide +kernel, fun h => ?_⟩
  exact absurd h.2 (by decide +kernel)

end Rsemu.Ir.Interp
