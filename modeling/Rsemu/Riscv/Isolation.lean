import Mathlib.Data.List.Induction
import Rsemu.Riscv.Modes
import Rsemu.Riscv.Pmp

/-!
# What a run cannot undo

`Hart.Effect` says once what a step can do to the control registers, and what any program may
do without privilege (`Csrs.veiled` hides exactly that) is told apart from the rest. A locked
protection entry keeps its configuration and its range until the hart is reset, so what the
locked entries decide stays decided (`locked_decides`), in machine mode too. And user mode
reaches the rest of the machine through a trap handler only, one that privileged software
installed (`user_confined`).
-/

namespace Rsemu.Riscv

open FirstMatch (Outcome firstMatch)

/-- The registers with what needs no privilege blotted out: the counters, and the state of the
floating-point unit. -/
def Csrs.veiled (c : Csrs) : Csrs :=
  { c with
    fcsr := 0
    mstatus := c.mstatus &&& ~~~Status.fs
    mcycle := 0
    minstret := 0
    mtime := 0
    translationGen := 0 }

theorem Csrs.of_veiled {α : Type} {c c' : Csrs} (h : c'.veiled = c.veiled) (f : Csrs → α)
    (hf : ∀ c : Csrs, f c.veiled = f c) : f c' = f c := by
  rw [← hf c', h, hf]

theorem Csrs.veiled_dirtyFp (c : Csrs) : c.dirtyFp.veiled = c.veiled := by
  have hbits : (c.mstatus &&& ~~~Status.fs ||| Status.fsDirty <<< Status.fsShift) &&&
      ~~~Status.fs = c.mstatus &&& ~~~Status.fs := by
    ext k hk
    have : (Status.fsDirty <<< Status.fsShift)[k] = true → Status.fs[k] = true := by
      revert k
      decide
    grind
  unfold Csrs.veiled Csrs.dirtyFp
  rw [hbits]

/-- The exceptions an instruction may raise in a mode: its own, or that it is illegal there. -/
def Insn.Raises (mode : Priv) (cause : Nat) : Insn → Prop
  | .plain _ _ => False
  | .ecall => cause = ecallCause mode
  | .fault trap => cause = trap.cause
  | _ => cause = Cause.illegalInsn

/-- **What an event may trap for**: an interrupt that is pending and enabled, or an exception of
its instruction. -/
def Hart.Raises (h : Hart) (cause : Nat) (interrupt : Bool) : Event → Prop
  | .lines _ => False
  | .step _ _ insn =>
    if interrupt then h.mip &&& h.csrs.mie &&& 1 <<< cause ≠ 0
    else insn.Raises h.csrs.privMode cause

/-- **What a step does to the control registers.** -/
inductive Hart.Effect (h : Hart) (event : Event) : Hart → Prop where
  | quiet {h' : Hart} (same : h'.csrs.veiled = h.csrs.veiled) : Effect h event h'
  | wrote {h' : Hart} {c c' : Csrs} {num : Nat} {value : U64} {updated : Option U64}
      (before : c.veiled = h.csrs.veiled) (write : c.write num value h.mip = some (c', updated))
      (after : h'.csrs.veiled = c'.veiled) : Effect h event h'
  | trapped {g : Hart} {trap : Trap} {interrupt : Bool} (same : g.csrs.veiled = h.csrs.veiled)
      (pc : g.pc = h.pc) (raised : h.Raises trap.cause interrupt event) :
      Effect h event (g.enterTrap trap interrupt)
  | machineReturn {h' : Hart} (legal : h.csrs.privMode = .machine)
      (after : h'.csrs.veiled = h.csrs.machineReturn.veiled) : Effect h event h'
  | supervisorReturn {h' : Hart} (legal : h.csrs.privMode ≠ .user)
      (after : h'.csrs.veiled = h.csrs.supervisorReturn.veiled) : Effect h event h'

theorem Hart.veiled_retire (h : Hart) (next : U64) (wrote : Bool) :
    (h.retire next wrote).csrs.veiled = h.csrs.veiled := by
  unfold Hart.retire
  split <;> rfl

theorem CsrInsn.veiled_refreshTime (insn : CsrInsn) (c : Csrs) :
    (insn.refreshTime c).veiled = c.veiled := by
  unfold CsrInsn.refreshTime
  split <;> rfl

variable {h : Hart}

theorem CsrInsn.access_effect {insn : CsrInsn} {h' : Hart} {c : Csrs} {mip : U64} {event : Event}
    (ha : insn.access h.csrs h.mip = some (c, mip)) (hc : h'.csrs.veiled = c.veiled) :
    h.Effect event h' := by
  unfold CsrInsn.access at ha
  dsimp only at ha
  split at ha
  · cases ha
  split at ha
  · split at ha
    · cases ha
    · rename_i hwrite
      cases ha
      exact .wrote (insn.veiled_refreshTime _) hwrite hc
  · cases ha
    exact .quiet (hc.trans (insn.veiled_refreshTime _))

theorem Hart.effect_execute (h : Hart) (encoding length : U64) (insn : Insn) :
    h.Effect (.step encoding length insn) (h.execute encoding length insn) := by
  cases insn with
  | plain target dirty =>
    refine .quiet ((Hart.veiled_retire ..).trans ?_)
    split
    · exact h.csrs.veiled_dirtyFp
    · rfl
  | csr insn =>
    unfold Hart.execute
    dsimp only
    split
    · exact .trapped (insn.veiled_refreshTime _) rfl rfl
    · rename_i haccess
      exact CsrInsn.access_effect haccess (Hart.veiled_retire ..)
  | ecall => exact .trapped rfl rfl rfl
  | mret =>
    unfold Hart.execute
    dsimp only
    split
    · exact .trapped rfl rfl rfl
    · rename_i hlegal
      exact .machineReturn (not_not.mp hlegal) (Hart.veiled_retire ..)
  | sret =>
    unfold Hart.execute
    dsimp only
    split
    · exact .trapped rfl rfl rfl
    · rename_i hlegal
      exact .supervisorReturn (fun hu => hlegal (.inl hu)) (Hart.veiled_retire ..)
  | wfi =>
    unfold Hart.execute
    dsimp only
    split
    · exact .trapped rfl rfl rfl
    · exact .quiet (Hart.veiled_retire ..)
  | sfenceVma =>
    unfold Hart.execute
    dsimp only
    split
    · exact .trapped rfl rfl rfl
    · exact .quiet (Hart.veiled_retire ..)
  | fault trap => exact .trapped rfl rfl rfl

theorem Hart.Effect.woken {h' : Hart} {event : Event} {wfi : Bool}
    (he : ({ h with wfi := wfi } : Hart).Effect event h') : h.Effect event h' := by
  cases he with
  | quiet same => exact .quiet same
  | wrote before write after => exact .wrote before write after
  | trapped same pc raised => exact .trapped (h := h) same pc raised
  | machineReturn legal after => exact .machineReturn legal after
  | supervisorReturn legal after => exact .supervisorReturn legal after

theorem Hart.raises_of_pending {code : Nat} (hp : h.pendingInterrupt = some code)
    (encoding length : U64) (insn : Insn) : h.Raises code true (.step encoding length insn) := by
  have hfound := List.find?_some hp
  rw [Bool.and_eq_true] at hfound
  exact bne_iff_ne.mp hfound.1

theorem Hart.effect_on (h : Hart) (event : Event) : h.Effect event (h.on event) := by
  cases event with
  | lines mip => exact .quiet rfl
  | step encoding length insn =>
    change h.Effect _ (h.step encoding length insn)
    unfold Hart.step
    split
    · rename_i hpending
      exact .trapped rfl rfl (Hart.raises_of_pending hpending encoding length insn)
    split
    · exact .quiet rfl
    · exact (Hart.effect_execute _ encoding length insn).woken

/-- An entry that machine mode too is held to. -/
def Csrs.Locked (c : Csrs) (i : Nat) : Prop := i < c.pmpCount ∧ c.pmpcfg i &&& 0x80 ≠ 0

/-- What is kept of the entries that are locked. -/
structure Csrs.KeepsLocked (c c' : Csrs) : Prop where
  count : c'.pmpCount = c.pmpCount
  cfg : ∀ i, c.Locked i → c'.pmpcfg i = c.pmpcfg i
  bounds : ∀ i, c.Locked i → c'.pmpBounds i = c.pmpBounds i

namespace Csrs

theorem keepsLocked_of {c c' : Csrs} (hcount : c'.pmpCount = c.pmpCount)
    (hcfg : c'.pmpcfg = c.pmpcfg) (haddr : c'.pmpaddr = c.pmpaddr) : c.KeepsLocked c' := by
  refine ⟨hcount, fun i _ => by rw [hcfg], fun i _ => ?_⟩
  unfold pmpBounds
  rw [hcfg, haddr]

theorem keepsLocked_of_veiled {c c' : Csrs} (h : c'.veiled = c.veiled) : c.KeepsLocked c' :=
  keepsLocked_of (of_veiled h (·.pmpCount) fun _ => rfl) (of_veiled h (·.pmpcfg) fun _ => rfl)
    (of_veiled h (·.pmpaddr) fun _ => rfl)

theorem KeepsLocked.trans {a b c : Csrs} (hab : a.KeepsLocked b) (hbc : b.KeepsLocked c) :
    a.KeepsLocked c := by
  have hlocked : ∀ i, a.Locked i → b.Locked i := fun i hi =>
    ⟨hab.count.symm ▸ hi.1, by rw [hab.cfg i hi]; exact hi.2⟩
  exact ⟨hbc.count.trans hab.count, fun i hi => (hbc.cfg i (hlocked i hi)).trans (hab.cfg i hi),
    fun i hi => (hbc.bounds i (hlocked i hi)).trans (hab.bounds i hi)⟩

theorem keepsLocked_writePmpcfg {c c' : Csrs} {index : Nat} {value : U64}
    (h : c.writePmpcfg index value = some c') : c.KeepsLocked c' := by
  obtain ⟨span, -, rfl⟩ := Option.map_eq_some_iff.mp h
  have hcfg : ∀ i, c.Locked i → (if span.2 ≤ i ∧ i < span.2 + span.1 ∧ i < c.pmpCount ∧
      c.pmpcfg i &&& 0x80 = 0 then pmpcfgByte value (i - span.2) else c.pmpcfg i) = c.pmpcfg i :=
    fun i hi => if_neg fun hw => hi.2 hw.2.2.2
  refine ⟨rfl, hcfg, fun i hi => ?_⟩
  unfold pmpBounds
  dsimp only
  rw [hcfg i hi]

theorem keepsLocked_writePmpaddr (c : Csrs) (i : Nat) (value : U64) :
    c.KeepsLocked (c.writePmpaddr i value) := by
  unfold writePmpaddr
  split
  · rename_i hfree
    obtain ⟨hi, hfree⟩ := hfree
    refine ⟨rfl, fun _ _ => rfl, fun j hj => ?_⟩
    have hne : j ≠ i := by
      rintro rfl
      exact hfree (.inl hj.2)
    have hbase : c.pmpcfg j >>> 3 &&& 3 = 1 → j ≠ 0 → j - 1 ≠ i := by
      rintro htor hj0 rfl
      have hj1 : j - 1 + 1 = j := Nat.sub_add_cancel (Nat.pos_of_ne_zero hj0)
      exact hfree (.inr (by rw [hj1]; exact ⟨hj.1, hj.2, htor⟩))
    unfold pmpBounds
    dsimp only [bumpPmp, bumpTranslation]
    rw [Function.update_of_ne hne]
    by_cases htor : c.pmpcfg j >>> 3 &&& 3 = 1
    · by_cases hj0 : j = 0
      · rw [if_pos hj0, if_pos hj0]
      · rw [if_neg hj0, if_neg hj0, Function.update_of_ne (hbase htor hj0)]
    · rw [if_neg htor, if_neg htor]
  · exact keepsLocked_of rfl rfl rfl

theorem keepsLocked_write {c c' : Csrs} {num : Nat} {value pending : U64} {updated : Option U64}
    (h : c.write num value pending = some (c', updated)) : c.KeepsLocked c' := by
  rcases write_cases h with hframe | ⟨-, rfl⟩ | ⟨-, -, rfl⟩ | ⟨⟨hlow, hhigh⟩, -⟩
  · exact keepsLocked_of hframe.pmpCount hframe.pmpcfg hframe.pmpaddr
  · exact keepsLocked_of rfl rfl rfl
  · exact keepsLocked_of rfl rfl rfl
  have hmstatus : ¬ num < Num.mstatus := fun hn => absurd (hlow.trans_lt hn) (by decide)
  have hsstatus : ¬ num < Num.sstatus := fun hn => absurd (hlow.trans_lt hn) (by decide)
  simp only [write, if_neg hsstatus, if_neg hmstatus, if_neg (Nat.not_lt.mpr hlow),
    if_pos hhigh] at h
  split at h
  · cases h
  obtain ⟨written, hwritten, hpair⟩ := Option.map_eq_some_iff.mp h
  cases hpair
  revert hwritten
  refine ite_some ?_ (ite_some ?_ ?_)
  · intro hwritten
    obtain ⟨bumped, hbumped, rfl⟩ := Option.map_eq_some_iff.mp hwritten
    exact (keepsLocked_writePmpcfg hbumped).trans (keepsLocked_of rfl rfl rfl)
  · intro hwritten
    cases hwritten
    exact c.keepsLocked_writePmpaddr _ _
  · intro hwritten
    cases hwritten

end Csrs

theorem Hart.keepsLocked_enterTrap (h : Hart) (trap : Trap) (interrupt : Bool) :
    h.csrs.KeepsLocked (h.enterTrap trap interrupt).csrs := by
  unfold Hart.enterTrap
  dsimp only
  split <;> exact Csrs.keepsLocked_of rfl rfl rfl

theorem Hart.Effect.keepsLocked {h' : Hart} {event : Event} (he : h.Effect event h') :
    h.csrs.KeepsLocked h'.csrs := by
  cases he with
  | quiet same => exact Csrs.keepsLocked_of_veiled same
  | wrote before write after =>
    exact ((Csrs.keepsLocked_of_veiled before).trans (Csrs.keepsLocked_write write)).trans
      (Csrs.keepsLocked_of_veiled after)
  | trapped same _ _ =>
    exact (Csrs.keepsLocked_of_veiled same).trans (Hart.keepsLocked_enterTrap _ _ _)
  | machineReturn _ after =>
    exact .trans (b := h.csrs.machineReturn) (Csrs.keepsLocked_of rfl rfl rfl)
      (Csrs.keepsLocked_of_veiled after)
  | supervisorReturn _ after =>
    exact .trans (b := h.csrs.supervisorReturn) (Csrs.keepsLocked_of rfl rfl rfl)
      (Csrs.keepsLocked_of_veiled after)

theorem Hart.keepsLocked_run (h : Hart) (events : List Event) :
    h.csrs.KeepsLocked (h.run events).csrs := by
  induction events generalizing h with
  | nil => exact Csrs.keepsLocked_of rfl rfl rfl
  | cons event events ih => exact (h.effect_on event).keepsLocked.trans (ih (h.on event))

def Csrs.rangesBelow (c : Csrs) (n : Nat) : List (FirstMatch.Range Nat (BitVec 8)) :=
  (List.range n).filterMap c.pmpRange

theorem Csrs.KeepsLocked.rangesBelow {c c' : Csrs} (h : c.KeepsLocked c') {n : Nat}
    (hl : ∀ i < n, c.Locked i) : c'.rangesBelow n = c.rangesBelow n := by
  refine List.filterMap_congr fun i hi => ?_
  have hi := hl i (List.mem_range.mp hi)
  unfold Csrs.pmpRange
  rw [h.bounds i hi, h.cfg i hi]

theorem firstMatch_append {first last : Nat} {early late : List (FirstMatch.Range Nat (BitVec 8))}
    (h : firstMatch first last early ≠ .miss) :
    firstMatch first last (early ++ late) = firstMatch first last early := by
  induction early with
  | nil => exact absurd rfl h
  | cons r early ih =>
    rw [List.cons_append]
    unfold firstMatch at h ⊢
    split
    · rfl
    split
    · rfl
    · rename_i hhead htail
      rw [if_neg hhead, if_neg htail] at h
      exact ih h

theorem Csrs.firstMatch_rangesBelow {c : Csrs} {n first last : Nat} (hn : n ≤ c.pmpCount)
    (h : firstMatch first last (c.rangesBelow n) ≠ .miss) :
    firstMatch first last c.pmpRanges = firstMatch first last (c.rangesBelow n) := by
  have hsplit : c.pmpRanges =
      c.rangesBelow n ++ ((List.range c.pmpCount).drop n).filterMap c.pmpRange := by
    unfold Csrs.pmpRanges Csrs.rangesBelow
    conv_lhs => rw [← List.take_append_drop n (List.range c.pmpCount)]
    rw [List.filterMap_append, List.take_range, Nat.min_eq_left hn]
  rw [hsplit, firstMatch_append h]

/-- **What locked entries decide stays decided**: when the first `n` entries are locked and one
of them matches an access, protection answers it the same way after any run. -/
theorem Hart.locked_decides (h : Hart) (events : List Event) {n : Nat}
    (hl : ∀ i < n, h.csrs.Locked i) {addr len : U64}
    (hmatch : firstMatch addr.toNat (Csrs.lastOf addr len).toNat (h.csrs.rangesBelow n) ≠ .miss)
    (kind : Access) (mode : Priv) :
    (h.run events).csrs.pmpAllows addr len kind mode = h.csrs.pmpAllows addr len kind mode := by
  have hkept := h.keepsLocked_run events
  have hn : n ≤ h.csrs.pmpCount := by
    rcases n with _ | n
    · exact Nat.zero_le _
    · exact (hl n n.lt_succ_self).1
  have hsame := hkept.rangesBelow hl
  unfold Csrs.pmpAllows
  rw [Csrs.firstMatch_rangesBelow hn hmatch,
    Csrs.firstMatch_rangesBelow (hkept.count ▸ hn) (hsame ▸ hmatch), hsame]
  cases ho : firstMatch addr.toNat (Csrs.lastOf addr len).toNat (h.csrs.rangesBelow n) with
  | miss => exact absurd ho hmatch
  | refused => rfl
  | hit cfg => rfl

def lockedHart : Hart :=
  (Hart.reset .rv64 .gc 0 16 0 0).run
    [.step 0 4 (.csr ⟨.write, Num.pmpaddr0, 0, 1, 0x400, none⟩),
      .step 0 4 (.csr ⟨.write, Num.pmpcfg0, 0, 1, 0x99, none⟩)]

/-- Machine mode itself writes both registers again. -/
theorem Hart.locked_decides_rewritten :
    (lockedHart.run
      [.step 0 4 (.csr ⟨.write, Num.pmpcfg0, 0, 1, 0x1f, none⟩),
        .step 0 4 (.csr ⟨.write, Num.pmpaddr0, 0, 1, 0, none⟩)]).csrs.pmpAllows 0x1000 8 .store
      .machine = false := by
  have hl : ∀ i < 1, lockedHart.csrs.Locked i := by
    intro i hi
    obtain rfl := Nat.lt_one_iff.mp hi
    exact ⟨by decide, by decide⟩
  refine (lockedHart.locked_decides _ hl (by decide +kernel) .store .machine).trans ?_
  decide +kernel

namespace Csrs

theorem write_user {c c' : Csrs} {num : Nat} {value pending : U64} {updated : Option U64}
    (hu : c.privMode = .user) (h : c.write num value pending = some (c', updated)) :
    c'.veiled = c.veiled := by
  unfold write at h
  split at h
  · cases h
  rename_i haccess
  have hnum : num / 2 ^ 8 % 4 = 0 := by
    simp only [accessible, hu, Bool.not_eq_true', Bool.not_eq_false, Bool.and_eq_true,
      decide_eq_true_eq] at haccess
    exact Nat.le_zero.mp haccess.2
  split at h
  · obtain ⟨written, hwritten, hpair⟩ := Option.map_eq_some_iff.mp h
    cases hpair
    revert hwritten
    repeat' refine ite_some ?_ ?_
    all_goals
      intro hwritten
      cases hwritten
      try exact veiled_dirtyFp _
  -- every other register names a mode above it
  exfalso
  have hno : ∀ n, n / 2 ^ 8 % 4 ≠ 0 → num ≠ n := by
    rintro n hn rfl
    exact hn hnum
  split at h
  · rename_i hfp hsupervisor
    change ¬ num < 0x100 at hfp
    change num < 0x300 at hsupervisor
    omega
  split at h
  · rename_i hsupervisor hmachine
    change ¬ num < 0x300 at hsupervisor
    change num < 0x3a0 at hmachine
    omega
  split at h
  · rename_i hmachine _
    change ¬ num < 0x3a0 at hmachine
    obtain ⟨written, hwritten, -⟩ := Option.map_eq_some_iff.mp h
    have hcfg : ¬ num ≤ Num.pmpcfg15 := by
      change ¬ num ≤ 0x3af
      omega
    have haddr : ¬ (Num.pmpaddr0 ≤ num ∧ num ≤ Num.pmpaddr63) := by
      change ¬ (0x3b0 ≤ num ∧ num ≤ 0x3ef)
      omega
    rw [writePmp, if_neg hcfg, if_neg haddr] at hwritten
    cases hwritten
  · obtain ⟨written, hwritten, -⟩ := Option.map_eq_some_iff.mp h
    have htriggers : num ∉ Num.triggers := by
      intro hmem
      have hall : ∀ n ∈ Num.triggers, n / 2 ^ 8 % 4 ≠ 0 := by decide
      exact hall num hmem hnum
    have hmonitors : Num.monitors num = false := by
      refine decide_eq_false ?_
      omega
    rw [writeCounter, if_neg (hno _ (by decide)), if_neg (hno _ (by decide)),
      if_neg (hno _ (by decide)), if_neg (hno _ (by decide)), if_neg htriggers,
      hmonitors] at hwritten
    cases hwritten

end Csrs

/-- Where a vector register sends a trap. -/
def handlerOf (tvec : U64) (cause : Nat) (interrupt : Bool) : U64 :=
  if tvec &&& 3 = 1 ∧ interrupt = true then (tvec &&& ~~~3) + BitVec.ofNat 64 (4 * cause)
  else tvec &&& ~~~3

/-- **A hart just entered the handler that the registers name** for a trap from user mode: the
supervisor's if the trap is delegated and there is one, machine mode's if not. -/
def Csrs.Sends (c : Csrs) (pc : U64) (cause : Nat) (interrupt : Bool) (h : Hart) : Prop :=
  let coded : U64 := BitVec.ofNat 64 cause ||| if interrupt then 1 <<< (c.xlen.bits - 1) else 0
  if c.ext.s = true ∧ (if interrupt then c.mideleg else c.medeleg) &&& 1 <<< cause ≠ 0 then
    h.csrs.privMode = .supervisor ∧ h.pc = c.xlen.trunc (handlerOf c.stvec cause interrupt) ∧
      h.csrs.sepc = pc ∧ h.csrs.scause = coded
  else
    h.csrs.privMode = .machine ∧ h.pc = c.xlen.trunc (handlerOf c.mtvec cause interrupt) ∧
      h.csrs.mepc = pc ∧ h.csrs.mcause = coded

theorem Hart.sends_enterTrap (hu : h.csrs.privMode = .user) (trap : Trap) (interrupt : Bool) :
    h.csrs.Sends h.pc trap.cause interrupt (h.enterTrap trap interrupt) := by
  have hto : h.csrs.toSupervisor trap.cause interrupt = true ↔ h.csrs.ext.s = true ∧
      (if interrupt then h.csrs.mideleg else h.csrs.medeleg) &&& 1 <<< trap.cause ≠ 0 := by
    unfold Csrs.toSupervisor
    rw [hu]
    simp [and_comm]
  unfold Csrs.Sends Hart.enterTrap handlerOf
  by_cases hdelegated : h.csrs.toSupervisor trap.cause interrupt = true
  · rw [if_pos (hto.mp hdelegated)]
    simp [hdelegated, Csrs.enterSupervisor]
  · rw [if_neg (mt hto.mpr hdelegated)]
    simp [hdelegated, Csrs.enterMachine]

theorem Csrs.Sends.of_veiled {c c' : Csrs} (hc : c'.veiled = c.veiled) {pc : U64} {cause : Nat}
    {interrupt : Bool} (hs : c'.Sends pc cause interrupt h) : c.Sends pc cause interrupt h :=
  Csrs.of_veiled hc (Csrs.Sends · pc cause interrupt h) (fun _ => rfl) ▸ hs

theorem Hart.Effect.confined {h' : Hart} {event : Event} (he : h.Effect event h')
    (hu : h.csrs.privMode = .user) :
    h'.csrs.veiled = h.csrs.veiled ∨ ∃ (cause : Nat) (interrupt : Bool),
      h.Raises cause interrupt event ∧ h.csrs.Sends h.pc cause interrupt h' := by
  cases he with
  | quiet same => exact .inl same
  | @wrote _ c _ _ _ _ before write after =>
    have hmode := (Csrs.of_veiled before Csrs.privMode fun _ => rfl).trans hu
    exact .inl ((after.trans (Csrs.write_user hmode write)).trans before)
  | trapped same pc raised =>
    have hmode := (Csrs.of_veiled same Csrs.privMode fun _ => rfl).trans hu
    exact .inr ⟨_, _, raised, pc ▸ (Hart.sends_enterTrap hmode _ _).of_veiled same⟩
  | machineReturn legal _ => exact absurd (hu.symm.trans legal) (by decide)
  | supervisorReturn legal _ => exact absurd hu legal

/-- Nothing that takes privilege changes in a run before a trap, and the first trap, for a cause
that is its event's, enters the handler that the registers the run started from name. -/
def Hart.Confined (h : Hart) (events : List Event) : Prop :=
  (h.run events).csrs.veiled = h.csrs.veiled ∨
    ∃ (before : List Event) (event : Event) (after : List Event) (cause : Nat) (interrupt : Bool),
      events = before ++ event :: after ∧ (h.run before).csrs.veiled = h.csrs.veiled ∧
      (h.run before).Raises cause interrupt event ∧
      h.csrs.Sends (h.run before).pc cause interrupt ((h.run before).on event)

/-- **User mode is confined**, whatever it runs and however its interrupt lines move. -/
theorem Hart.user_confined (h : Hart) (hu : h.csrs.privMode = .user) (events : List Event) :
    h.Confined events := by
  induction events using List.reverseRecOn with
  | nil => exact .inl rfl
  | append_singleton events event ih =>
    rcases ih with hkept | ⟨before, event', after, cause, interrupt, hevents, htrapped⟩
    · have hmode := (Csrs.of_veiled hkept Csrs.privMode fun _ => rfl).trans hu
      rcases ((h.run events).effect_on event).confined hmode with
        hsame | ⟨cause, interrupt, hraised, hsent⟩
      · refine .inl ?_
        rw [Hart.run, List.foldl_append]
        exact hsame.trans hkept
      · exact .inr ⟨events, event, [], cause, interrupt, rfl, hkept, hraised,
          hsent.of_veiled hkept⟩
    · refine .inr ⟨before, event', after ++ [event], cause, interrupt, ?_, htrapped⟩
      rw [hevents, List.append_assoc, List.cons_append]

/-- Entered from machine mode; it rounds, and then reaches for the page tables. -/
theorem Hart.user_confined_satp :
    ((Hart.reset .rv64 .gc 0 16 0 0).on (.step 0x30200073 4 .mret)).Confined
      [.step 0x00201073 4 (.csr ⟨.write, Num.frm, 0, 0, 0, none⟩),
        .step 0x18051073 4 (.csr ⟨.write, Num.satp, 0, 10, 0x8000000000080000, none⟩)] :=
  Hart.user_confined _ (by decide) _

end Rsemu.Riscv
