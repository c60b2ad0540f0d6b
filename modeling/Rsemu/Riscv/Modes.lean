import Rsemu.Riscv.Trap

/-!
# A hart runs in modes it implements, when it has both

Three bits of `mstatus` and the current mode are all there is to it: `spp` in bit 8 and the
two bits of `mpp`. `Sound` says what they may be once user mode exists, and every instruction
keeps it but one: a write to `mstatus` may put supervisor mode into `mpp` of a hart that has
none, because only the reserved encoding is settled. Without user mode the reset state already
names it.
-/

namespace Rsemu.Riscv

def Extensions.implements (ext : Extensions) : Priv → Bool
  | .machine => true
  | .supervisor => ext.s
  | .user => ext.u

/-- **The hart names only modes it implements**: the one it is in, and the two a return
would go to. -/
structure Csrs.Implemented (c : Csrs) : Prop where
  mode : c.ext.implements c.privMode = true
  mpp : ∃ p, Priv.fromBits ((c.mstatus &&& Status.mpp) >>> Status.mppShift) = some p ∧
    c.ext.implements p = true
  spp : c.ext.implements c.supervisorPrevious = true

theorem mpp_bits : ∀ j < 64, Status.mpp.getLsbD j = decide (j = 11 ∨ j = 12) := by decide

theorem mppField_eq (m : U64) :
    (m &&& Status.mpp) >>> Status.mppShift = BitVec.ofNat 64 (2 * m[12].toNat + m[11].toNat) := by
  have hsmall : 2 * m[12].toNat + m[11].toNat < 2 ^ 2 := by
    have h12 := Bool.toNat_le m[12]
    have h11 := Bool.toNat_le m[11]
    omega
  apply BitVec.eq_of_getLsbD_eq
  intro i hi
  rw [BitVec.getLsbD_ushiftRight, BitVec.getLsbD_and, BitVec.getLsbD_ofNat, decide_eq_true hi,
    Bool.true_and]
  rcases i with _ | _ | i
  · rw [mpp_bits _ (by decide)]
    cases h12 : m[12] <;> cases h11 : m[11] <;> simp [Status.mppShift, h11]
  · cases h12 : m[12] <;> cases h11 : m[11] <;> simp [Status.mppShift, h12] <;> decide
  · -- past the field on both sides
    have hhigh : Status.mpp.getLsbD (Status.mppShift + (i + 1 + 1)) = false := by
      rcases Nat.lt_or_ge (Status.mppShift + (i + 1 + 1)) 64 with h | h
      · rw [mpp_bits _ h]
        refine decide_eq_false fun hor => ?_
        unfold Status.mppShift at hor
        omega
      · exact BitVec.getLsbD_of_ge _ _ h
    have hpow : 2 ^ 2 ≤ 2 ^ (i + 1 + 1) := Nat.pow_le_pow_right (by decide) (by omega)
    rw [hhigh, Bool.and_false]
    exact (Nat.testBit_lt_two_pow (Nat.lt_of_lt_of_le hsmall hpow)).symm

def namedBy : Bool → Bool → Option Priv
  | false, false => some .user
  | false, true => some .supervisor
  | true, false => none
  | true, true => some .machine

theorem fromBits_mpp (m : U64) :
    Priv.fromBits ((m &&& Status.mpp) >>> Status.mppShift) = namedBy m[12] m[11] := by
  rw [mppField_eq]
  cases m[12] <;> cases m[11] <;> rfl

theorem spp_bits : ∀ j < 64, Status.spp.getLsbD j = decide (j = 8) := by decide

theorem spp_ne_zero (m : U64) : m &&& Status.spp ≠ 0 ↔ m[8] = true := by
  constructor
  · intro hne
    by_contra hbit
    have h8 : m.getLsbD 8 = false := by simpa using hbit
    refine hne (BitVec.eq_of_getLsbD_eq fun i hi => ?_)
    rw [BitVec.getLsbD_and, spp_bits i hi]
    by_cases h : i = 8
    · rw [h, h8, Bool.false_and]
      rfl
    · rw [decide_eq_false h, Bool.and_false]
      exact BitVec.getLsbD_zero.symm
  · intro hbit hzero
    have h8 := congrArg (fun m : U64 => m[8]) hzero
    simp [Status.spp, hbit] at h8

theorem Csrs.supervisorPrevious_eq (c : Csrs) :
    c.supervisorPrevious = if c.mstatus[8] then .supervisor else .user := by
  unfold Csrs.supervisorPrevious
  simp only [spp_ne_zero]

/-- **What the registers may name where user mode exists**: supervisor mode only if it is
implemented, and never the reserved encoding. -/
structure Csrs.Sound (c : Csrs) : Prop where
  mode : c.privMode = .supervisor → c.ext.s = true
  reserved : c.mstatus[12] = true → c.mstatus[11] = true
  mpp : c.mstatus[12] = false → c.mstatus[11] = true → c.ext.s = true
  spp : c.mstatus[8] = true → c.ext.s = true

variable {c c' : Csrs}

theorem Csrs.sound_iff (hu : c.ext.u = true) : c.Sound ↔ c.Implemented := by
  constructor
  · intro h
    refine ⟨?_, ?_, ?_⟩
    · cases hp : c.privMode with
      | machine => rfl
      | supervisor => exact h.mode hp
      | user => exact hu
    · rw [fromBits_mpp]
      cases h12 : c.mstatus[12] <;> cases h11 : c.mstatus[11]
      · exact ⟨.user, rfl, hu⟩
      · exact ⟨.supervisor, rfl, h.mpp h12 h11⟩
      · exact absurd (h11.symm.trans (h.reserved h12)) Bool.false_ne_true
      · exact ⟨.machine, rfl, rfl⟩
    · rw [Csrs.supervisorPrevious_eq]
      split
      · exact h.spp ‹_›
      · exact hu
  · intro h
    obtain ⟨p, hp, hpi⟩ := h.mpp
    rw [fromBits_mpp] at hp
    refine ⟨?_, ?_, ?_, ?_⟩
    · intro hmode
      have hi := h.mode
      rwa [hmode] at hi
    · intro h12
      by_contra h11
      rw [h12, Bool.eq_false_iff.mpr h11] at hp
      cases hp
    · intro h12 h11
      rw [h12, h11] at hp
      cases hp
      exact hpi
    · intro h8
      have hi := h.spp
      rwa [Csrs.supervisorPrevious_eq, if_pos h8] at hi

theorem implemented_new_iff (xlen : Xlen) (ext : Extensions) (hartid : U64) (pmpCount : Nat) :
    (Csrs.new xlen ext hartid pmpCount).Implemented ↔ ext.u = true := by
  have hbits : (Csrs.new xlen ext hartid pmpCount).mstatus[8] = false ∧
      (Csrs.new xlen ext hartid pmpCount).mstatus[11] = false ∧
      (Csrs.new xlen ext hartid pmpCount).mstatus[12] = false := by
    cases xlen <;> cases hs : ext.s <;>
      simp [Csrs.new, hs, Status.uxlShift, Status.sxlShift]
  obtain ⟨h8, h11, h12⟩ := hbits
  constructor
  · intro h
    obtain ⟨p, hp, hpi⟩ := h.mpp
    rw [fromBits_mpp, h12, h11] at hp
    cases hp
    exact hpi
  · intro hu
    refine (Csrs.sound_iff hu).mp ⟨?_, ?_, ?_, ?_⟩
    · intro hmode
      cases hmode
    · intro h
      exact absurd (h12.symm.trans h) Bool.false_ne_true
    · intro _ h
      exact absurd (h11.symm.trans h) Bool.false_ne_true
    · intro h
      exact absurd (h8.symm.trans h) Bool.false_ne_true

/-- The same modes and the same three bits. -/
structure Csrs.SameModes (c c' : Csrs) : Prop where
  ext : c'.ext = c.ext
  mode : c'.privMode = c.privMode
  spp : c'.mstatus[8] = c.mstatus[8]
  mppLow : c'.mstatus[11] = c.mstatus[11]
  mppHigh : c'.mstatus[12] = c.mstatus[12]

theorem Csrs.SameModes.refl (c : Csrs) : c.SameModes c := ⟨rfl, rfl, rfl, rfl, rfl⟩

theorem Csrs.SameModes.sound (h : c.SameModes c') (hc : c.Sound) : c'.Sound := by
  refine ⟨?_, ?_, ?_, ?_⟩
  · rw [h.mode, h.ext]
    exact hc.mode
  · rw [h.mppHigh, h.mppLow]
    exact hc.reserved
  · rw [h.mppHigh, h.mppLow, h.ext]
    exact hc.mpp
  · rw [h.spp, h.ext]
    exact hc.spp

theorem Csrs.sameModes_of (hext : c'.ext = c.ext) (hmode : c'.privMode = c.privMode)
    (hstatus : c'.mstatus = c.mstatus) : c.SameModes c' :=
  ⟨hext, hmode, by rw [hstatus], by rw [hstatus], by rw [hstatus]⟩

theorem Csrs.sameModes_dirtyFp (c : Csrs) : c.SameModes c.dirtyFp := by
  refine ⟨rfl, rfl, ?_, ?_, ?_⟩ <;>
    simp [Csrs.dirtyFp, Status.fs, Status.fsShift, Status.fsDirty]

theorem Csrs.write_modes {num : Nat} {value pending : U64} {updated : Option U64}
    (h : c.write num value pending = some (c', updated)) :
    c.SameModes c' ∨
      (c.ext.s = true ∧ c' = c.writeSstatus (value &&& c.xmask)) ∨
      (num = Num.mstatus ∧ c.accessible num true = true ∧
        c' = c.writeMstatus (value &&& c.xmask)) := by
  rcases Csrs.write_cases h with hframe | hsstatus | hmstatus | ⟨-, hpmp⟩
  · refine .inl ?_
    rcases hframe.status with hsame | hdirty
    · exact Csrs.sameModes_of hframe.ext hframe.mode hsame
    · have hfp := c.sameModes_dirtyFp
      exact ⟨hframe.ext, hframe.mode, by rw [hdirty, hfp.spp], by rw [hdirty, hfp.mppLow],
        by rw [hdirty, hfp.mppHigh]⟩
  · exact .inr (.inl hsstatus)
  · exact .inr (.inr hmstatus)
  · exact .inl (Csrs.sameModes_of hpmp.ext hpmp.mode hpmp.status)

theorem Csrs.sameModes_bumpTranslation (c : Csrs) : c.SameModes c.bumpTranslation :=
  Csrs.sameModes_of rfl rfl rfl

theorem getElem_masked (m v w : U64) (k : Nat) (hk : k < 64) :
    (m &&& ~~~w ||| v &&& w)[k] = if w[k] then v[k] else m[k] := by
  rw [BitVec.getElem_or, BitVec.getElem_and, BitVec.getElem_and, BitVec.getElem_not]
  cases w[k] <;> simp

theorem Csrs.Sound.writeSstatus (h : c.Sound) (hs : c.ext.s = true) (value : U64) :
    (c.writeSstatus value).Sound := by
  have hlow : (c.writeSstatus value).mstatus[11] = c.mstatus[11] :=
    (getElem_masked ..).trans (if_neg (by decide))
  have hhigh : (c.writeSstatus value).mstatus[12] = c.mstatus[12] :=
    (getElem_masked ..).trans (if_neg (by decide))
  refine ⟨fun _ => hs, ?_, fun _ _ => hs, fun _ => hs⟩
  rw [hlow, hhigh]
  exact h.reserved

theorem Csrs.settleMpp_bits (m : U64) :
    (Csrs.settleMpp m)[11] = (m[11] || m[12]) ∧ (Csrs.settleMpp m)[12] = m[12] := by
  unfold Csrs.settleMpp
  rw [fromBits_mpp]
  cases h12 : m[12] <;> cases h11 : m[11] <;>
    simp [namedBy, h11, h12, Status.mpp, Status.mppShift]

theorem Csrs.writeMstatus_bits (c : Csrs) (value : U64) :
    (c.writeMstatus value).mstatus[11] = (value[11] || value[12]) ∧
      (c.writeMstatus value).mstatus[12] = value[12] ∧
      (c.ext.s = false → (c.writeMstatus value).mstatus[8] = false) := by
  obtain ⟨written, hwritten⟩ : ∃ m, m = c.mstatus &&& ~~~Status.mWritable |||
      value &&& Status.mWritable := ⟨_, rfl⟩
  have h11 : written[11] = value[11] := by
    subst hwritten
    exact (getElem_masked ..).trans (if_pos (by decide))
  have h12 : written[12] = value[12] := by
    subst hwritten
    exact (getElem_masked ..).trans (if_pos (by decide))
  obtain ⟨hlow, hhigh⟩ := Csrs.settleMpp_bits written
  have hmstatus : (c.writeMstatus value).mstatus =
      if c.ext.s then Csrs.settleMpp written
      else Csrs.settleMpp written &&&
        ~~~(Status.spp ||| Status.sie ||| Status.spie ||| Status.tvm) := by
    subst hwritten
    rfl
  obtain ⟨dropped, hdropped⟩ : ∃ m, m = Status.spp ||| Status.sie ||| Status.spie ||| Status.tvm :=
    ⟨_, rfl⟩
  have hd : dropped[8] = true ∧ dropped[11] = false ∧ dropped[12] = false := by
    subst hdropped
    decide
  rw [hmstatus, ← hdropped]
  cases c.ext.s <;> simp [hlow, hhigh, h11, h12, hd.1, hd.2.1, hd.2.2]

theorem Csrs.Sound.writeMstatus (h : c.Sound) {value : U64}
    (hvalue : value[12] = false → value[11] = true → c.ext.s = true) :
    (c.writeMstatus value).Sound := by
  obtain ⟨hlow, hhigh, hspp⟩ := c.writeMstatus_bits value
  refine ⟨h.mode, ?_, ?_, ?_⟩
  · rw [hlow, hhigh]
    intro h12
    rw [h12, Bool.or_true]
  · rw [hlow, hhigh]
    intro h12 h11
    rw [h12, Bool.or_false] at h11
    exact hvalue h12 h11
  · intro h8
    by_contra hs
    exact Bool.false_ne_true ((hspp (Bool.eq_false_iff.mpr hs)).symm.trans h8)

theorem Csrs.Sound.write {num : Nat} {value pending : U64} {updated : Option U64} (h : c.Sound)
    (hwrite : c.write num value pending = some (c', updated))
    (hvalue : num = Num.mstatus → value[12] = false → value[11] = true → c.ext.s = true) :
    c'.Sound := by
  rcases Csrs.write_modes hwrite with hsame | ⟨hs, rfl⟩ | ⟨hnum, -, rfl⟩
  · exact hsame.sound h
  · exact h.writeSstatus hs _
  · -- masking to the width leaves the field as it is
    have hmask : c.xmask[11] = true ∧ c.xmask[12] = true := by
      unfold Csrs.xmask
      cases c.xlen <;> simp
    refine h.writeMstatus ?_
    rw [BitVec.getElem_and, BitVec.getElem_and, hmask.1, hmask.2, Bool.and_true, Bool.and_true]
    exact hvalue hnum

theorem Csrs.Sound.enterSupervisor (h : c.Sound) (hs : c.ext.s = true) (pc coded tval : U64) :
    (c.enterSupervisor pc coded tval).Sound := by
  have hbits : (c.enterSupervisor pc coded tval).mstatus[11] = c.mstatus[11] ∧
      (c.enterSupervisor pc coded tval).mstatus[12] = c.mstatus[12] := by
    unfold Csrs.enterSupervisor
    cases c.mstatus &&& Status.sie != 0 <;> cases c.privMode <;>
      simp [Status.sie, Status.spie, Status.spp]
  refine ⟨fun _ => hs, ?_, fun _ _ => hs, fun _ => hs⟩
  rw [hbits.1, hbits.2]
  exact h.reserved

theorem Csrs.enterMachine_bits (c : Csrs) (pc coded tval : U64) :
    (c.enterMachine pc coded tval).mstatus[8] = c.mstatus[8] ∧
      namedBy (c.enterMachine pc coded tval).mstatus[12] (c.enterMachine pc coded tval).mstatus[11] =
        some c.privMode := by
  unfold Csrs.enterMachine
  cases c.mstatus &&& Status.mie != 0 <;> cases c.privMode <;>
    simp [Status.mie, Status.mpie, Status.mpp, Status.mppShift, Priv.bits, namedBy]

theorem Csrs.sound_of_named {p : Priv} (hmode : c.privMode = .supervisor → c.ext.s = true)
    (hspp : c.mstatus[8] = true → c.ext.s = true)
    (hnamed : namedBy c.mstatus[12] c.mstatus[11] = some p) (hp : p = .supervisor → c.ext.s = true) :
    c.Sound := by
  refine ⟨hmode, ?_, ?_, hspp⟩
  · intro h12
    by_contra h11
    rw [h12, Bool.eq_false_iff.mpr h11] at hnamed
    cases hnamed
  · intro h12 h11
    rw [h12, h11] at hnamed
    cases hnamed
    exact hp rfl

theorem Csrs.Sound.enterMachine (h : c.Sound) (pc coded tval : U64) :
    (c.enterMachine pc coded tval).Sound := by
  obtain ⟨hspp, hnamed⟩ := c.enterMachine_bits pc coded tval
  refine Csrs.sound_of_named ?_ ?_ hnamed h.mode
  · intro hmode
    cases hmode
  · rw [hspp]
    exact h.spp

theorem Csrs.Sound.previous (h : c.Sound) (hp : c.previous = .supervisor) : c.ext.s = true := by
  unfold Csrs.previous at hp
  rw [fromBits_mpp] at hp
  cases h12 : c.mstatus[12] <;> cases h11 : c.mstatus[11] <;> rw [h12, h11] at hp
  · cases hp
  · exact h.mpp h12 h11
  · cases hp
  · cases hp

theorem Csrs.Sound.machineReturn (h : c.Sound) : c.machineReturn.Sound := by
  have hbits : c.machineReturn.mstatus[8] = c.mstatus[8] ∧
      namedBy c.machineReturn.mstatus[12] c.machineReturn.mstatus[11] = some c.lowest := by
    unfold Csrs.machineReturn Csrs.returnTo Csrs.bumpTranslation Csrs.lowest
    cases c.mstatus &&& Status.mpie != 0 <;> cases c.previous <;> cases c.ext.u <;>
      simp [Status.mie, Status.mpie, Status.mpp, Status.mppShift, Status.mprv, Priv.bits, namedBy]
  refine Csrs.sound_of_named h.previous ?_ hbits.2 ?_
  · rw [hbits.1]
    exact h.spp
  · unfold Csrs.lowest
    intro hlowest
    split at hlowest <;> cases hlowest

theorem Csrs.Sound.supervisorReturn (h : c.Sound) (hs : c.ext.s = true) :
    c.supervisorReturn.Sound := by
  have hbits : c.supervisorReturn.mstatus[11] = c.mstatus[11] ∧
      c.supervisorReturn.mstatus[12] = c.mstatus[12] := by
    unfold Csrs.supervisorReturn Csrs.returnTo Csrs.bumpTranslation
    cases c.mstatus &&& Status.spie != 0 <;> cases c.supervisorPrevious <;>
      simp [Status.sie, Status.spie, Status.spp, Status.mprv]
  refine ⟨fun _ => hs, ?_, fun _ _ => hs, fun _ => hs⟩
  rw [hbits.1, hbits.2]
  exact h.reserved

/-- What happens to a hart: a line changes, or it takes a step. -/
inductive Event where
  | lines (mip : U64)
  | step (encoding length : U64) (insn : Insn)

def Hart.on (h : Hart) : Event → Hart
  | .lines mip => { h with mip := mip }
  | .step encoding length insn => h.step encoding length insn

def Hart.run (h : Hart) (events : List Event) : Hart := events.foldl Hart.on h

/-- A step would execute an instruction: no interrupt is taken, and the hart is awake. -/
def Hart.Executes (h : Hart) : Prop :=
  h.pendingInterrupt = none ∧ ¬ (h.wfi ∧ h.mip &&& h.csrs.mie = 0)

/-- **Machine mode writes supervisor mode into `mpp`.** -/
def CsrInsn.NamesSupervisor (insn : CsrInsn) (c : Csrs) : Prop :=
  insn.num = Num.mstatus ∧ c.privMode = .machine ∧ insn.willWrite = true ∧
    Priv.fromBits ((insn.value c.mstatus &&& Status.mpp) >>> Status.mppShift) = some .supervisor

/-- The event executes an instruction that asks for supervisor mode. -/
def Event.NamesSupervisor (h : Hart) : Event → Prop
  | .step _ _ (.csr insn) => h.Executes ∧ insn.NamesSupervisor h.csrs
  | _ => False

/-- No event of the run writes supervisor mode into `mpp`. -/
def Hart.Spares : Hart → List Event → Prop
  | _, [] => True
  | h, event :: events => ¬ event.NamesSupervisor h ∧ (h.on event).Spares events

theorem Hart.sameModes_retire (h : Hart) (next : U64) (wrote : Bool) :
    h.csrs.SameModes (h.retire next wrote).csrs := by
  unfold Hart.retire
  split
  · exact Csrs.sameModes_of rfl rfl rfl
  · exact .refl _

theorem Hart.ext_enterTrap (h : Hart) (trap : Trap) (interrupt : Bool) :
    (h.enterTrap trap interrupt).csrs.ext = h.csrs.ext := by
  unfold Hart.enterTrap
  dsimp only
  split <;> rfl

theorem Hart.sound_enterTrap {h : Hart} (hc : h.csrs.Sound) (trap : Trap) (interrupt : Bool) :
    (h.enterTrap trap interrupt).csrs.Sound := by
  unfold Hart.enterTrap
  dsimp only
  split
  · rename_i hto
    simp only [Csrs.toSupervisor, Bool.and_eq_true] at hto
    exact hc.enterSupervisor hto.1.2 _ _ _
  · exact hc.enterMachine _ _ _

theorem CsrInsn.sameModes_refreshTime (insn : CsrInsn) (c : Csrs) :
    c.SameModes (insn.refreshTime c) := by
  unfold CsrInsn.refreshTime
  split
  · exact Csrs.sameModes_of rfl rfl rfl
  · exact .refl c

theorem CsrInsn.value_bit (insn : CsrInsn) {a b : U64} {k : Nat} (hk : k < 64) (h : a[k] = b[k]) :
    (insn.value a)[k] = (insn.value b)[k] := by
  unfold CsrInsn.value
  cases insn.op
  · rfl
  · rw [BitVec.getElem_or, BitVec.getElem_or, h]
  · rw [BitVec.getElem_and, BitVec.getElem_and, h]

theorem Csrs.read_mstatus {mip current : U64} (h : c.read Num.mstatus mip = some current) :
    current[11] = c.mstatus[11] ∧ current[12] = c.mstatus[12] := by
  have hmask : c.xmask[11] = true ∧ c.xmask[12] = true := by
    unfold Csrs.xmask
    cases c.xlen <;> simp
  have hread : c.readMstatus[11] = c.mstatus[11] ∧ c.readMstatus[12] = c.mstatus[12] := by
    unfold Csrs.readMstatus
    cases hx : c.xlen <;> dsimp only <;> split <;> simp [hmask.1, hmask.2, Xlen.bits]
  unfold Csrs.read at h
  split at h
  · cases h
  · obtain ⟨value, hvalue, rfl⟩ := Option.map_eq_some_iff.mp h
    cases hvalue
    simp [hmask.1, hmask.2, hread.1, hread.2]

theorem Csrs.accessible_mstatus (h : c.accessible Num.mstatus true = true) :
    c.privMode = .machine := by
  unfold Csrs.accessible at h
  cases hp : c.privMode with
  | machine => rfl
  | supervisor =>
    rw [hp] at h
    cases h
  | user =>
    rw [hp] at h
    cases h

theorem namesSupervisor_bits (m : U64) :
    Priv.fromBits ((m &&& Status.mpp) >>> Status.mppShift) = some .supervisor ↔
      m[12] = false ∧ m[11] = true := by
  rw [fromBits_mpp]
  cases m[12] <;> cases m[11] <;> simp [namedBy]

theorem CsrInsn.access_cases {insn : CsrInsn} {mip mip' : U64}
    (h : insn.access c mip = some (c', mip')) :
    c.SameModes c' ∨ ∃ current updated,
      (insn.refreshTime c).read insn.num mip = some current ∧ insn.willWrite = true ∧
      (insn.refreshTime c).write insn.num (insn.value current) mip = some (c', updated) := by
  unfold CsrInsn.access at h
  dsimp only at h
  split at h
  · cases h
  rename_i current hread
  split at h
  · rename_i hwill
    split at h
    · cases h
    · rename_i csrs updated hwrite
      cases h
      exact .inr ⟨current, updated, hread, hwill, hwrite⟩
  · cases h
    exact .inl (insn.sameModes_refreshTime c)

theorem CsrInsn.sound_access {insn : CsrInsn} {mip mip' : U64} (hc : c.Sound)
    (h : insn.access c mip = some (c', mip')) (hspare : c.ext.s = true ∨ ¬ insn.NamesSupervisor c) :
    c'.Sound := by
  have hsame := insn.sameModes_refreshTime c
  rcases CsrInsn.access_cases h with hsame' | ⟨current, updated, hread, hwill, hwrite⟩
  · exact hsame'.sound hc
  refine (hsame.sound hc).write hwrite ?_
  intro hnum h12 h11
  rw [hsame.ext]
  rcases hspare with hs | hspare
  · exact hs
  exfalso
  rw [hnum] at hread hwrite
  obtain ⟨hlow, hhigh⟩ := Csrs.read_mstatus hread
  have hmode : c.privMode = .machine := by
    rw [← hsame.mode]
    refine Csrs.accessible_mstatus ?_
    by_contra hno
    unfold Csrs.write at hwrite
    rw [if_pos (by simpa using hno)] at hwrite
    cases hwrite
  refine hspare ⟨hnum, hmode, hwill, (namesSupervisor_bits _).mpr ⟨?_, ?_⟩⟩
  · rw [← h12]
    exact insn.value_bit (by decide) (hsame.mppHigh.symm.trans hhigh.symm)
  · rw [← h11]
    exact insn.value_bit (by decide) (hsame.mppLow.symm.trans hlow.symm)

theorem Hart.sound_step {h : Hart} {encoding length : U64} {insn : Insn} (hc : h.csrs.Sound)
    (hspare : h.csrs.ext.s = true ∨ ¬ (Event.step encoding length insn).NamesSupervisor h) :
    (h.step encoding length insn).csrs.Sound := by
  unfold Hart.step
  split
  · exact Hart.sound_enterTrap hc _ _
  rename_i hpending
  split
  · exact hc
  rename_i hawake
  cases insn with
  | plain target dirty =>
    refine (Hart.sameModes_retire _ _ _).sound ?_
    split
    · exact h.csrs.sameModes_dirtyFp.sound hc
    · exact hc
  | csr insn =>
    unfold Hart.execute
    dsimp only
    split
    · exact Hart.sound_enterTrap ((insn.sameModes_refreshTime _).sound hc) _ _
    · rename_i csrs mip haccess
      refine (Hart.sameModes_retire _ _ _).sound (CsrInsn.sound_access hc haccess ?_)
      exact hspare.imp_right fun hno hnames => hno ⟨⟨hpending, hawake⟩, hnames⟩
  | ecall => exact Hart.sound_enterTrap hc _ _
  | mret =>
    unfold Hart.execute
    dsimp only
    split
    · exact Hart.sound_enterTrap hc _ _
    · exact (Hart.sameModes_retire _ _ _).sound hc.machineReturn
  | sret =>
    unfold Hart.execute
    dsimp only
    split
    · exact Hart.sound_enterTrap hc _ _
    · rename_i hlegal
      have hs : h.csrs.ext.s = true := by
        by_contra hs
        exact hlegal (.inr (.inl hs))
      exact (Hart.sameModes_retire _ _ _).sound (hc.supervisorReturn hs)
  | wfi =>
    unfold Hart.execute
    dsimp only
    split
    · exact Hart.sound_enterTrap hc _ _
    · exact (Hart.sameModes_retire _ _ _).sound hc
  | sfenceVma =>
    unfold Hart.execute
    dsimp only
    split
    · exact Hart.sound_enterTrap hc _ _
    · exact (Hart.sameModes_retire _ _ _).sound (h.csrs.sameModes_bumpTranslation.sound hc)
  | fault trap => exact Hart.sound_enterTrap hc _ _

theorem CsrInsn.ext_access {insn : CsrInsn} {mip mip' : U64}
    (h : insn.access c mip = some (c', mip')) : c'.ext = c.ext := by
  have hsame := insn.sameModes_refreshTime c
  rcases CsrInsn.access_cases h with hsame' | ⟨current, updated, -, -, hwrite⟩
  · exact hsame'.ext
  rw [← hsame.ext]
  rcases Csrs.write_modes hwrite with hsame' | ⟨-, rfl⟩ | ⟨-, -, rfl⟩
  · exact hsame'.ext
  · rfl
  · rfl

theorem Hart.ext_on (h : Hart) (event : Event) : (h.on event).csrs.ext = h.csrs.ext := by
  cases event with
  | lines mip => rfl
  | step encoding length insn =>
    unfold Hart.on Hart.step
    dsimp only
    split
    · exact h.ext_enterTrap _ _
    split
    · rfl
    cases insn with
    | plain target dirty =>
      refine (Hart.sameModes_retire _ _ _).ext.trans ?_
      split <;> rfl
    | csr insn =>
      unfold Hart.execute
      dsimp only
      split
      · rw [Hart.ext_enterTrap]
        exact (insn.sameModes_refreshTime _).ext
      · rename_i csrs mip haccess
        exact (Hart.sameModes_retire _ _ _).ext.trans (CsrInsn.ext_access haccess)
    | ecall => exact Hart.ext_enterTrap _ _ _
    | mret =>
      unfold Hart.execute
      dsimp only
      split
      · exact Hart.ext_enterTrap _ _ _
      · exact (Hart.sameModes_retire _ _ _).ext
    | sret =>
      unfold Hart.execute
      dsimp only
      split
      · exact Hart.ext_enterTrap _ _ _
      · exact (Hart.sameModes_retire _ _ _).ext
    | wfi =>
      unfold Hart.execute
      dsimp only
      split
      · exact Hart.ext_enterTrap _ _ _
      · exact (Hart.sameModes_retire _ _ _).ext
    | sfenceVma =>
      unfold Hart.execute
      dsimp only
      split
      · exact Hart.ext_enterTrap _ _ _
      · exact (Hart.sameModes_retire _ _ _).ext
    | fault trap => exact Hart.ext_enterTrap _ _ _

theorem Hart.sound_on {h : Hart} {event : Event} (hc : h.csrs.Sound)
    (hspare : h.csrs.ext.s = true ∨ ¬ event.NamesSupervisor h) : (h.on event).csrs.Sound := by
  cases event with
  | lines mip => exact hc
  | step encoding length insn => exact Hart.sound_step hc hspare

theorem CsrInsn.NamesSupervisor.access {insn : CsrInsn} (hnames : insn.NamesSupervisor c)
    (mip : U64) :
    ∃ value mip', insn.access c mip = some (c.writeMstatus value, mip') ∧
      value[12] = false ∧ value[11] = true := by
  obtain ⟨hnum, hmode, hwill, hvalue⟩ := hnames
  obtain ⟨h12, h11⟩ := (namesSupervisor_bits _).mp hvalue
  have hrefresh : insn.refreshTime c = c := by
    unfold CsrInsn.refreshTime
    rw [hnum]
    exact if_neg fun h => absurd h.2 (by decide)
  have hreach (write : Bool) : c.accessible Num.mstatus write = true := by
    unfold Csrs.accessible
    rw [hmode]
    cases write <;> decide
  have hread : c.read Num.mstatus mip = some (c.readMstatus &&& c.xmask) := by
    unfold Csrs.read
    rw [hreach]
    rfl
  have hwrite (value : U64) : c.write Num.mstatus value mip =
      some (c.writeMstatus (value &&& c.xmask), none) := by
    unfold Csrs.write
    rw [hreach]
    rfl
  have hmask : c.xmask[11] = true ∧ c.xmask[12] = true := by
    unfold Csrs.xmask
    cases c.xlen <;> simp
  obtain ⟨hlow, hhigh⟩ := Csrs.read_mstatus hread
  refine ⟨insn.value (c.readMstatus &&& c.xmask) &&& c.xmask, mip, ?_, ?_, ?_⟩
  · unfold CsrInsn.access
    dsimp only
    rw [hrefresh, hnum, hread]
    dsimp only
    rw [if_pos hwill, hwrite]
    rfl
  · rw [BitVec.getElem_and, hmask.2, Bool.and_true, insn.value_bit (by decide) hhigh, h12]
  · rw [BitVec.getElem_and, hmask.1, Bool.and_true, insn.value_bit (by decide) hlow, h11]

theorem Hart.names_on {h : Hart} {event : Event} (hs : ¬ h.csrs.ext.s = true)
    (hnames : event.NamesSupervisor h) : ¬ (h.on event).csrs.Sound := by
  cases event with
  | lines mip => exact hnames.elim
  | step encoding length insn =>
    cases insn with
    | csr insn =>
      obtain ⟨⟨hpending, hawake⟩, hinsn⟩ := hnames
      obtain ⟨value, mip', haccess, h12, h11⟩ := CsrInsn.NamesSupervisor.access hinsn h.mip
      obtain ⟨hlow, hhigh, -⟩ := h.csrs.writeMstatus_bits value
      intro hsound
      have hstep : (h.on (.step encoding length (.csr insn))).csrs =
          (Hart.retire { h with csrs := h.csrs.writeMstatus value, mip := mip', wfi := false }
            (h.pc + length) (insn.willWrite &&
              (insn.num == Num.minstret || insn.num == Num.minstreth))).csrs := by
        unfold Hart.on Hart.step
        dsimp only
        rw [hpending]
        rw [if_neg hawake]
        unfold Hart.execute
        dsimp only
        rw [haccess]
      rw [hstep] at hsound
      have hsame := Hart.sameModes_retire
        { h with csrs := h.csrs.writeMstatus value, mip := mip', wfi := false } (h.pc + length)
        (insn.willWrite && (insn.num == Num.minstret || insn.num == Num.minstreth))
      refine hs ?_
      have hext := hsound.mpp (by rw [hsame.mppHigh, hhigh, h12])
        (by rw [hsame.mppLow, hlow, h12, h11, Bool.or_false])
      rwa [hsame.ext] at hext
    | _ => exact hnames.elim

theorem Hart.sound_run_iff {h : Hart} (hc : h.csrs.Sound) (events : List Event) :
    (∀ n, (h.run (events.take n)).csrs.Sound) ↔ h.csrs.ext.s = true ∨ h.Spares events := by
  induction events generalizing h with
  | nil =>
    refine ⟨fun _ => .inr trivial, fun _ n => ?_⟩
    rw [List.take_nil]
    exact hc
  | cons event events ih =>
    by_cases hs : h.csrs.ext.s = true
    · refine ⟨fun _ => .inl hs, fun _ n => ?_⟩
      cases n with
      | zero => exact hc
      | succ n =>
        have hon : (h.on event).csrs.Sound := Hart.sound_on hc (.inl hs)
        exact (ih hon).mpr (.inl (by rwa [Hart.ext_on])) n
    constructor
    · intro hall
      have hon : (h.on event).csrs.Sound := hall 1
      have hspare : ¬ event.NamesSupervisor h := fun hnames => Hart.names_on hs hnames hon
      have htail := (ih hon).mp fun n => hall (n + 1)
      rw [Hart.ext_on] at htail
      exact .inr ⟨hspare, htail.resolve_left hs⟩
    · intro hspares n
      obtain ⟨hspare, htail⟩ := hspares.resolve_left hs
      cases n with
      | zero => exact hc
      | succ n => exact (ih (Hart.sound_on hc (.inr hspare))).mpr (.inr htail) n

theorem Hart.ext_run (h : Hart) (events : List Event) : (h.run events).csrs.ext = h.csrs.ext := by
  induction events generalizing h with
  | nil => rfl
  | cons event events ih => exact (ih (h.on event)).trans (h.ext_on event)

/-- **A hart names only modes it implements, throughout a run from reset, exactly when it
has user mode** — the state a reset leaves names it — **and either has supervisor mode too
or never writes it into `mpp`.** -/
theorem modes_implemented_iff (xlen : Xlen) (ext : Extensions) (hartid : U64) (pmpCount : Nat)
    (resetVector mip : U64) (events : List Event) :
    (∀ n, ((Hart.reset xlen ext hartid pmpCount resetVector mip).run
        (events.take n)).csrs.Implemented) ↔
      ext.u = true ∧
        (ext.s = true ∨ (Hart.reset xlen ext hartid pmpCount resetVector mip).Spares events) := by
  obtain ⟨h, hh⟩ : ∃ h, h = Hart.reset xlen ext hartid pmpCount resetVector mip := ⟨_, rfl⟩
  have hext : h.csrs.ext = ext := by
    rw [hh]
    rfl
  have hreset : h.csrs.Implemented ↔ ext.u = true := by
    rw [hh]
    exact implemented_new_iff xlen ext hartid pmpCount
  rw [← hh]
  by_cases hu : ext.u = true
  · have hsound : h.csrs.Sound := (Csrs.sound_iff (by rwa [hext])).mpr (hreset.mpr hu)
    have hiff (n : Nat) : (h.run (events.take n)).csrs.Implemented ↔
        (h.run (events.take n)).csrs.Sound :=
      (Csrs.sound_iff (by rwa [Hart.ext_run, hext])).symm
    rw [forall_congr' hiff, Hart.sound_run_iff hsound, hext]
    exact ⟨fun hrun => ⟨hu, hrun⟩, fun hrun => hrun.2⟩
  · exact ⟨fun hall => absurd (hreset.mp (hall 0)) hu, fun hrun => absurd hrun.1 hu⟩

/-- **The first return of a machine-mode-only hart leaves machine mode**, for a mode it does
not have: the reset state's `mpp` names user mode. -/
theorem machine_only_leaves :
    ¬ ∀ n, ((Hart.reset .rv64 .i 0 16 0 0).run
      ([Event.step 0x30200073 4 .mret].take n)).csrs.Implemented := by
  intro hall
  have hone := (hall 1).mode
  have hmode : ((Hart.reset .rv64 .i 0 16 0 0).run
      ([Event.step 0x30200073 4 .mret].take 1)).csrs.privMode = .user := by decide
  have hext : ((Hart.reset .rv64 .i 0 16 0 0).run
      ([Event.step 0x30200073 4 .mret].take 1)).csrs.ext = .i := Hart.ext_run _ _
  rw [hmode, hext] at hone
  exact absurd hone (by decide)

end Rsemu.Riscv
