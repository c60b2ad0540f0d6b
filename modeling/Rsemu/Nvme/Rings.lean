import Rsemu.Nvme.Snapshot

/-!
# Queues stay well formed

Whatever the host writes and whoever is at it at the same time, the controller's record only
changes under its lock, so a run is a list of what is done under the lock, in any order.
`Sound` is what every step keeps whatever it is given: sizes, indices, identifiers and vectors
in range, and registers that are saved as they are. That an entry's address fits needs the
base a queue was made with to leave room for it, which no step checks (`Action.Fits`).
-/

namespace Rsemu.Nvme

open Codec (Bytes)
open Rsemu.State (reads_u32 reads_u64)

/-- The steps that the queues are changed in. -/
inductive Action where
  | write (offset : Nat) (value : UInt32)
  | doorbell (offset : Nat) (value : UInt32)
  | shutDown (durable : Bool)
  | nextJob
  | place (cqid : Nat)
  | fatal
  | createCq (page : Nat) (cmd : Command)
  | createSq (page : Nat) (cmd : Command)
  | deleteSq (cmd : Command)
  | deleteCq (cmd : Command)
  | asyncEvent
  | reset
  | load (bytes : Bytes)

/-- What an action makes of the record. -/
def Action.apply (params : Params) (s : State) : Action → State
  | .write offset value => (s.writeRegister offset value).2
  | .doorbell offset value => ((s.doorbell offset value).map (·.2)).getD s
  | .shutDown durable => s.shutDown durable
  | .nextJob => (s.nextJob.map (·.2)).getD s
  | .place cqid => ((s.place cqid).map (·.2)).getD s
  | .fatal => s.fatal
  | .createCq page cmd => (s.createCq params page cmd).2
  | .createSq page cmd => (s.createSq params page cmd).2
  | .deleteSq cmd => (s.deleteSq cmd).2
  | .deleteCq cmd => (s.deleteCq cmd).2
  | .asyncEvent => s.asyncEvent.2
  | .reset => State.new
  | .load bytes => (s.load bytes).2

/-- **A run**: one action after the other. -/
def run (params : Params) (s : State) (actions : List Action) : State :=
  actions.foldl (fun s a => a.apply params s) s

/-- **Sizes, indices, identifiers and vectors are in range**, and what is saved is what is
there. -/
structure State.Sound (s : State) : Prop where
  sq : ∀ qid, ∀ sq ∈ s.sq qid, sq.Sound ∧ sq.base < 2 ^ 64
  cq : ∀ qid, ∀ cq ∈ s.cq qid, cq.Sound ∧ cq.base < 2 ^ 64
  linked : s.Linked
  cc : s.cc &&& ccMask = s.cc
  csts : s.csts &&& 0x3f = s.csts
  aqa : s.aqa &&& aqaMask = s.aqa
  aer : s.aer ≤ aerLimit

theorem slot?_val (slot : Slot) : slot? slot.val = some slot := by
  unfold slot?
  rw [dif_pos slot.isLt]

variable {s : State}

theorem cq?_eq {qid : Nat} {slot : Slot} (h : slot.val = qid) : s.cq? qid = s.cq slot := by
  subst h
  unfold State.cq?
  rw [slot?_val]
  rfl

theorem forall_mem_update {α : Type} {q : Slot → Option α} {slot : Slot} {v : Option α}
    {P : α → Prop} (h : ∀ qid, ∀ a ∈ q qid, P a) (hv : ∀ a ∈ v, P a) :
    ∀ qid, ∀ a ∈ Function.update q slot v qid, P a := by
  intro qid a ha
  by_cases heq : qid = slot
  · subst heq
    rw [Function.update_self] at ha
    exact hv a ha
  · rw [Function.update_of_ne heq] at ha
    exact h qid a ha

theorem State.Linked.update_cq (h : s.Linked) {slot : Slot} (cq : CompQueue) :
    { s with cq := Function.update s.cq slot (some cq) }.Linked := by
  intro qid sq hsq
  have hthere := h qid sq hsq
  unfold State.cq? at hthere ⊢
  cases hslot : slot? sq.cqid with
  | none =>
    rw [hslot] at hthere
    cases hthere
  | some slot' =>
    rw [hslot] at hthere
    change (Function.update s.cq slot (some cq) slot').isSome
    by_cases heq : slot' = slot
    · rw [heq, Function.update_self]
      rfl
    · rw [Function.update_of_ne heq]
      exact hthere

theorem State.Linked.update_sq (h : s.Linked) {slot : Slot} {v : Option SubQueue}
    (hv : ∀ sq ∈ v, (s.cq? sq.cqid).isSome) : { s with sq := Function.update s.sq slot v }.Linked :=
  forall_mem_update h hv

theorem State.Sound.new : State.new.Sound where
  sq := fun _ _ h => nomatch h
  cq := fun _ _ h => nomatch h
  linked := fun _ _ h => nomatch h
  cc := by decide
  csts := by decide
  aqa := by decide
  aer := Nat.zero_le _

section Steps

variable {s : State}

section

variable (h : s.Sound)
include h

theorem State.Sound.registers {t : State} (hsq : t.sq = s.sq) (hcq : t.cq = s.cq)
    (hcc : t.cc &&& ccMask = t.cc) (hcsts : t.csts &&& 0x3f = t.csts)
    (haqa : t.aqa &&& aqaMask = t.aqa) (haer : t.aer ≤ aerLimit) : t.Sound where
  sq := hsq ▸ h.sq
  cq := hcq ▸ h.cq
  linked := by
    have hlinked := h.linked
    unfold State.Linked State.cq? at hlinked ⊢
    rwa [hsq, hcq]
  cc := hcc
  csts := hcsts
  aqa := haqa
  aer := haer

theorem State.Sound.fatal : s.fatal.Sound :=
  h.registers rfl rfl h.cc (masked_or h.csts (by decide)) h.aqa h.aer

theorem State.Sound.shutDown (durable : Bool) : (s.shutDown durable).Sound := by
  have hdone := h.registers
    (t := { s with csts := s.csts &&& ~~~cstsShstMask ||| cstsShstComplete }) rfl rfl h.cc
    (masked_or (masked_and h.csts _) (by decide)) h.aqa h.aer
  unfold State.shutDown
  split
  · exact hdone
  · exact hdone.fatal

theorem State.Sound.controllerReset : s.controllerReset.Sound where
  sq := fun _ _ hsq => nomatch hsq
  cq := fun _ _ hcq => nomatch hcq
  linked := fun _ _ hsq => nomatch hsq
  cc := h.cc
  csts := masked_and h.csts _
  aqa := h.aqa
  aer := Nat.zero_le _

theorem State.Sound.update_cq (slot : Slot) {cq : CompQueue} (hcq : cq.Sound)
    (hbase : cq.base < 2 ^ 64) : { s with cq := Function.update s.cq slot (some cq) }.Sound where
  sq := h.sq
  cq := forall_mem_update h.cq fun cq' hcq' => by
    cases hcq'
    exact ⟨hcq, hbase⟩
  linked := h.linked.update_cq cq
  cc := h.cc
  csts := h.csts
  aqa := h.aqa
  aer := h.aer

theorem State.Sound.update_sq (slot : Slot) {v : Option SubQueue}
    (hv : ∀ sq ∈ v, (sq.Sound ∧ sq.base < 2 ^ 64) ∧ (s.cq? sq.cqid).isSome) :
    { s with sq := Function.update s.sq slot v }.Sound where
  sq := forall_mem_update h.sq fun sq hsq => (hv sq hsq).1
  cq := h.cq
  linked := h.linked.update_sq fun sq hsq => (hv sq hsq).2
  cc := h.cc
  csts := h.csts
  aqa := h.aqa
  aer := h.aer

theorem State.Sound.enable : s.enable.Sound := by
  unfold State.enable
  split
  · rename_i haccepts
    obtain ⟨-, -, -, -, -, hasqs, hacqs, hasqs', hacqs', -⟩ := haccepts
    have hcq : s.adminCq.Sound :=
      ⟨hacqs, hacqs', Nat.succ_pos _, Nat.succ_pos _, Nat.succ_pos _⟩
    have hsq : s.adminSq.Sound :=
      ⟨hasqs, hasqs', Nat.succ_pos _, Nat.succ_pos _, Nat.succ_pos _⟩
    have hmade := h.update_cq adminSlot hcq s.acq.toNat_lt
    have hboth := hmade.update_sq adminSlot (v := some s.adminSq) fun sq hmem => by
      cases hmem
      refine ⟨⟨hsq, s.asq.toNat_lt⟩, ?_⟩
      rfl
    exact hboth.registers rfl rfl h.cc (masked_or h.csts (by decide)) h.aqa h.aer
  · exact h.fatal

theorem State.Sound.writeCc (value : UInt32) : (s.writeCc value).2.Sound := by
  have hset : { s with cc := value &&& ccMask }.Sound :=
    h.registers rfl rfl (masked_self value ccMask) h.csts h.aqa h.aer
  obtain ⟨-, -, heq⟩ | ⟨-, -, after, heq⟩ | ⟨-, -, heq⟩ | ⟨-, -, heq⟩ := s.writeCc_cases value
  · rw [heq]
    exact hset.controllerReset
  · rw [heq]
    refine h.registers rfl rfl ?_ h.csts h.aqa h.aer
    exact masked_or (masked_and h.cc _) (masked_and (masked_self value ccMask) _)
  · rw [heq]
    exact hset
  · rw [heq]
    exact hset.enable

theorem State.Sound.writeRegister (offset : Nat) (value : UInt32) :
    (s.writeRegister offset value).2.Sound := by
  obtain ⟨-, heq⟩ | ⟨-, t, heq, hsq, hcq, hcc, hcsts, haer, haqa⟩ :=
    s.writeRegister_cases offset value
  · rw [heq]
    exact h.writeCc value
  · rw [heq]
    refine h.registers hsq hcq (hcc ▸ h.cc) (hcsts ▸ h.csts) ?_ (haer ▸ h.aer)
    rcases haqa with haqa | haqa
    · exact haqa ▸ h.aqa
    · rw [haqa]
      exact masked_self value aqaMask

theorem State.Sound.doorbell {offset : Nat} {value : UInt32} {after : After}
    {t : State} (hring : s.doorbell offset value = some (after, t)) : t.Sound := by
  obtain ⟨-, rfl | ⟨qid, cq, hcq, hvalue, rfl⟩ | ⟨qid, sq, hsq, hvalue, rfl⟩⟩ :=
    State.doorbell_cases hring
  · exact h.fatal
  · obtain ⟨⟨hleast, hmost, -, htail, hvector⟩, hbase⟩ := h.cq qid cq hcq
    exact h.update_cq qid ⟨hleast, hmost, hvalue, htail, hvector⟩ hbase
  · obtain ⟨⟨hleast, hmost, hhead, -, hcqid⟩, hbase⟩ := h.sq qid sq hsq
    refine h.update_sq qid fun sq' hsq' => ?_
    cases hsq'
    exact ⟨⟨⟨hleast, hmost, hhead, hvalue, hcqid⟩, hbase⟩, h.linked qid sq hsq⟩

theorem State.Sound.nextJob {job : Job} {t : State}
    (hnext : s.nextJob = some (job, t)) : t.Sound := by
  obtain ⟨-, sq, hsq, -, -, -, hhd, rfl⟩ := State.nextJob_cases hnext
  obtain ⟨⟨hleast, hmost, -, htail, hcqid⟩, hbase⟩ := h.sq job.sqid sq hsq
  refine h.update_sq job.sqid fun sq' hsq' => ?_
  cases hsq'
  have hmod : job.sqhd < sq.entries := by
    rw [hhd]
    exact Nat.mod_lt _ (Nat.lt_of_lt_of_le Nat.two_pos hleast)
  exact ⟨⟨⟨hleast, hmost, hmod, htail, hcqid⟩, hbase⟩, h.linked job.sqid sq hsq⟩

omit h in
theorem CompQueue.Sound.advance {cq : CompQueue} (h : cq.Sound) : cq.advance.Sound := by
  obtain ⟨hleast, hmost, hhead, htail, hvector⟩ := h
  unfold CompQueue.advance
  split
  · exact ⟨hleast, hmost, hhead, Nat.lt_of_lt_of_le Nat.two_pos hleast, hvector⟩
  · exact ⟨hleast, hmost, hhead, Nat.lt_of_le_of_ne htail ‹_›, hvector⟩

omit h in
theorem CompQueue.advance_base (cq : CompQueue) :
    cq.advance.base = cq.base ∧ cq.advance.entries = cq.entries := by
  unfold CompQueue.advance
  split <;> exact ⟨rfl, rfl⟩

theorem State.Sound.place {cqid : Nat} {at_ : Nat × Bool} {t : State}
    (hplace : s.place cqid = some (at_, t)) : t.Sound := by
  obtain ⟨slot, -, cq, hcq, -, -, rfl⟩ := State.place_cases hplace
  obtain ⟨hsound, hbase⟩ := h.cq slot cq hcq
  exact h.update_cq slot hsound.advance (cq.advance_base.1 ▸ hbase)

theorem State.Sound.createCq (params : Params) (page : Nat) (cmd : Command) :
    (s.createCq params page cmd).2.Sound := by
  obtain heq | ⟨slot, -, hsize, hvector, heq⟩ := s.createCq_cases params page cmd
  · rwa [heq]
  · rw [heq]
    have hentries := Nat.lt_of_lt_of_le Nat.two_pos hsize.1
    exact h.update_cq slot
      ⟨hsize.1, hsize.2.trans (by decide), hentries, hentries, hvector⟩ cmd.prp1.toNat_lt

theorem State.Sound.createSq (params : Params) (page : Nat) (cmd : Command) :
    (s.createSq params page cmd).2.Sound := by
  obtain heq | ⟨slot, -, hsize, hcq, heq⟩ := s.createSq_cases params page cmd
  · rwa [heq]
  · rw [heq]
    have hentries := Nat.lt_of_lt_of_le Nat.two_pos hsize.1
    refine h.update_sq slot fun sq hsq => ?_
    cases hsq
    have hcqid : cmd.subQueue.cqid < queueSlots := by
      unfold State.cq? slot? at hcq
      split at hcq
      · assumption
      · cases hcq
    exact ⟨⟨⟨hsize.1, hsize.2.trans (by decide), hentries, hentries, hcqid⟩,
      cmd.prp1.toNat_lt⟩, hcq⟩

theorem State.Sound.deleteSq (cmd : Command) : (s.deleteSq cmd).2.Sound := by
  obtain heq | ⟨slot, -, heq⟩ := s.deleteSq_cases cmd
  · rwa [heq]
  · rw [heq]
    exact h.update_sq slot fun sq hsq => nomatch hsq

theorem State.Sound.deleteCq (cmd : Command) : (s.deleteCq cmd).2.Sound := by
  obtain heq | ⟨slot, -, hnamed, heq⟩ := s.deleteCq_cases cmd
  · rwa [heq]
  · rw [heq]
    refine ⟨h.sq, forall_mem_update h.cq (fun cq hcq => nomatch hcq), fun qid sq hsq => ?_,
      h.cc, h.csts, h.aqa, h.aer⟩
    have hthere := h.linked qid sq hsq
    have hne := hnamed qid sq hsq
    unfold State.cq? at hthere ⊢
    cases hslot : slot? sq.cqid with
    | none =>
      rw [hslot] at hthere
      cases hthere
    | some slot' =>
      rw [hslot] at hthere
      have hother : slot' ≠ slot := fun heq => hne (by rw [← heq, slot?_eq_some hslot])
      change (Function.update s.cq slot none slot').isSome
      rwa [Function.update_of_ne hother]

theorem State.Sound.asyncEvent : s.asyncEvent.2.Sound := by
  unfold State.asyncEvent
  split
  · exact h
  · exact h.registers rfl rfl h.cc h.csts h.aqa (Nat.not_le.mp ‹_›)

end

end Steps

theorem readSubQueue_ok (src : Bytes) (sq : SubQueue) (rest : Bytes)
    (h : readSubQueue src = .ok (sq, rest)) :
    subQueueRecord src = .ok (sq, rest) ∧ sq.Sound ∧ sq.base < 2 ^ 64 := by
  obtain ⟨hrecord, hsound⟩ := checked_ok h
  exact ⟨hrecord, hsound, subQueueRecord_base hrecord⟩

theorem readCompQueue_ok (src : Bytes) (cq : CompQueue) (rest : Bytes)
    (h : readCompQueue src = .ok (cq, rest)) :
    compQueueRecord src = .ok (cq, rest) ∧ cq.Sound ∧ cq.base < 2 ^ 64 := by
  obtain ⟨hrecord, hsound⟩ := checked_ok h
  exact ⟨hrecord, hsound, compQueueRecord_base hrecord⟩

theorem readState_ok {src rest : Bytes} (h : readState src = .ok (s, rest)) :
    s.Sound ∧ readRecords src = .ok (s, rest) := by
  obtain ⟨hqueues, hlinked⟩ := checked_ok h
  obtain ⟨regs, mid, hregs, hqueues⟩ := Codec.bind_ok hqueues
  obtain ⟨sq, mid', hsq, hqueues⟩ := Codec.bind_ok hqueues
  obtain ⟨cq, mid'', hcq, hqueues⟩ := Codec.bind_ok hqueues
  obtain ⟨rfl, rfl⟩ := Codec.pure_ok hqueues
  obtain ⟨hsq', hsqs⟩ := readEach_ok (fun _ _ _ h => readSlot_ok readSubQueue_ok h) hsq
  obtain ⟨hcq', hcqs⟩ := readEach_ok (fun _ _ _ h => readSlot_ok readCompQueue_ok h) hcq
  obtain ⟨hcc, hcsts, haqa, haer⟩ := readRegisters_ok hregs
  refine ⟨⟨hsqs, hcqs, hlinked, hcc, hcsts, haqa, haer⟩, ?_⟩
  refine (Codec.run_bind hregs _).trans ?_
  refine (Codec.run_bind hsq' _).trans ?_
  exact (Codec.run_bind hcq' _).trans rfl

theorem State.Sound.load (h : s.Sound) (bytes : Bytes) : (s.load bytes).2.Sound := by
  unfold State.load
  cases hread : readState bytes with
  | error e => exact h
  | ok read => exact (readState_ok hread).1

theorem State.Sound.reads_registers (h : s.Sound) :
    Codec.Reads readRegisters s.saveRegisters
      { State.new with
        cc := s.cc
        csts := s.csts
        intms := s.intms
        aqa := s.aqa
        asq := s.asq
        acq := s.acq
        aer := s.aer } := by
  have haer := h.aer
  rw [aerLimit] at haer
  refine (reads_u32 s.cc.toNat_lt).bind ((reads_u32 s.csts.toNat_lt).bind
    ((reads_u32 s.intms.toNat_lt).bind ((reads_u32 s.aqa.toNat_lt).bind
      ((reads_u64 s.asq.toNat_lt).bind ((reads_u64 s.acq.toNat_lt).bind ?_)))))
  have hmasked : { State.new with
      cc := UInt32.ofNat s.cc.toNat &&& ccMask
      csts := UInt32.ofNat s.csts.toNat &&& 0x3f
      intms := UInt32.ofNat s.intms.toNat
      aqa := UInt32.ofNat s.aqa.toNat &&& aqaMask
      asq := UInt64.ofNat s.asq.toNat
      acq := UInt64.ofNat s.acq.toNat
      aer := min s.aer aerLimit } = { State.new with
      cc := s.cc
      csts := s.csts
      intms := s.intms
      aqa := s.aqa
      asq := s.asq
      acq := s.acq
      aer := s.aer } := by
    rw [Nat.min_eq_left h.aer, UInt32.ofNat_toNat, UInt32.ofNat_toNat, UInt32.ofNat_toNat,
      UInt32.ofNat_toNat, UInt64.ofNat_toNat, UInt64.ofNat_toNat, h.cc, h.csts, h.aqa]
  rw [← hmasked]
  have haer' : s.aer < 2 ^ 32 := by omega
  exact (reads_u32 haer').map fun aer => { State.new with
    cc := UInt32.ofNat s.cc.toNat &&& ccMask
    csts := UInt32.ofNat s.csts.toNat &&& 0x3f
    intms := UInt32.ofNat s.intms.toNat
    aqa := UInt32.ofNat s.aqa.toNat &&& aqaMask
    asq := UInt64.ofNat s.asq.toNat
    acq := UInt64.ofNat s.acq.toNat
    aer := min aer aerLimit }

theorem State.Sound.reads (h : s.Sound) : Codec.Reads readState s.save s := by
  have hsq : Codec.Reads (readEach (readSlot readSubQueue) queueSlots)
      (saveEach (saveSlot SubQueue.save) s.sq) s.sq :=
    reads_each fun qid => reads_slot fun sq hsq => (h.sq qid sq hsq).1.reads (h.sq qid sq hsq).2
  have hcq : Codec.Reads (readEach (readSlot readCompQueue) queueSlots)
      (saveEach (saveSlot CompQueue.save) s.cq) s.cq :=
    reads_each fun qid => reads_slot fun cq hcq => (h.cq qid cq hcq).1.reads (h.cq qid cq hcq).2
  refine Reads.checked ?_ h.linked _
  exact h.reads_registers.bind (hsq.bind (hcq.map fun cq => { s with cq := cq }))

theorem State.Sound.load_save (h : s.Sound) (t : State) : t.load s.save = (.ok [], s) := by
  have hread := h.reads []
  rw [List.append_nil] at hread
  unfold State.load
  rw [hread]

theorem State.Sound.getD {α : Type} {o : Option (α × State)} (h : s.Sound)
    (hsome : ∀ a t, o = some (a, t) → t.Sound) : ((o.map (·.2)).getD s).Sound := by
  cases o with
  | none => exact h
  | some r => exact hsome r.1 r.2 rfl

theorem State.Sound.apply (h : s.Sound) (params : Params) (a : Action) :
    (a.apply params s).Sound := by
  cases a with
  | write offset value => exact h.writeRegister offset value
  | doorbell offset value =>
    exact h.getD (o := s.doorbell offset value) fun _ _ hring => h.doorbell hring
  | shutDown durable => exact h.shutDown durable
  | nextJob => exact h.getD (o := s.nextJob) fun _ _ hnext => h.nextJob hnext
  | place cqid => exact h.getD (o := s.place cqid) fun _ _ hplace => h.place hplace
  | fatal => exact h.fatal
  | createCq page cmd => exact h.createCq params page cmd
  | createSq page cmd => exact h.createSq params page cmd
  | deleteSq cmd => exact h.deleteSq cmd
  | deleteCq cmd => exact h.deleteCq cmd
  | asyncEvent => exact h.asyncEvent
  | reset => exact .new
  | load bytes => exact h.load bytes

theorem State.Sound.run (h : s.Sound) (params : Params) (actions : List Action) :
    (run params s actions).Sound := by
  induction actions generalizing s with
  | nil => exact h
  | cons a as ih => exact ih (h.apply params a)

/-- The last entry's address is below 2^64. -/
def SubQueue.Fits (sq : SubQueue) : Prop := sq.base + (sq.entries - 1) * sqeLen < 2 ^ 64

instance (sq : SubQueue) : Decidable sq.Fits := inferInstanceAs (Decidable (_ < _))

/-- The last entry's address is below 2^64. -/
def CompQueue.Fits (cq : CompQueue) : Prop := cq.base + (cq.entries - 1) * cqeLen < 2 ^ 64

instance (cq : CompQueue) : Decidable cq.Fits := inferInstanceAs (Decidable (_ < _))

/-- Every queue fits below the top of the address space. -/
structure State.Fits (s : State) : Prop where
  sq : ∀ qid, ∀ sq ∈ s.sq qid, sq.Fits
  cq : ∀ qid, ∀ cq ∈ s.cq qid, cq.Fits

/-- A queue that an action makes fits: at an accepted enable, at an accepted Create command,
and in a chunk that is loaded. -/
def Action.Fits (params : Params) (s : State) : Action → Prop
  | .write offset value =>
    offset = regCc → ¬ s.Enabled → value &&& ccMask &&& ccEn ≠ 0 →
      { s with cc := value &&& ccMask }.Accepts → s.adminSq.Fits ∧ s.adminCq.Fits
  | .createCq page cmd => (s.createCq params page cmd).1 = stSuccess → cmd.compQueue.Fits
  | .createSq page cmd => (s.createSq params page cmd).1 = stSuccess → cmd.subQueue.Fits
  | .load bytes => (∃ read, readState bytes = .ok read) →
      ∀ records rest, readRecords bytes = .ok (records, rest) → records.Fits
  | _ => True

/-- Each action of a run fits where it is taken. -/
def Fitting (params : Params) : State → List Action → Prop
  | _, [] => True
  | s, a :: as => a.Fits params s ∧ Fitting params (a.apply params s) as

section Steps

variable {s : State}

theorem State.Fits.new : State.new.Fits where
  sq := fun _ _ h => nomatch h
  cq := fun _ _ h => nomatch h

theorem State.Fits.update_cq (h : s.Fits) (slot : Slot) {v : Option CompQueue}
    (hv : ∀ cq ∈ v, cq.Fits) : { s with cq := Function.update s.cq slot v }.Fits :=
  ⟨h.sq, forall_mem_update h.cq hv⟩

theorem State.Fits.update_sq (h : s.Fits) (slot : Slot) {v : Option SubQueue}
    (hv : ∀ sq ∈ v, sq.Fits) : { s with sq := Function.update s.sq slot v }.Fits :=
  ⟨forall_mem_update h.sq hv, h.cq⟩

theorem State.Fits.enable (h : s.Fits) (hadmin : s.Accepts → s.adminSq.Fits ∧ s.adminCq.Fits) :
    s.enable.Fits := by
  unfold State.enable
  split
  · obtain ⟨hsq, hcq⟩ := hadmin ‹_›
    refine ⟨forall_mem_update h.sq fun sq hmem => ?_, forall_mem_update h.cq fun cq hmem => ?_⟩
    · cases hmem
      exact hsq
    · cases hmem
      exact hcq
  · exact ⟨h.sq, h.cq⟩

variable {params : Params}

section

variable (h : s.Fits)
include h

theorem State.Fits.writeRegister {offset : Nat} {value : UInt32}
    (hfits : (Action.write offset value).Fits params s) :
    (s.writeRegister offset value).2.Fits := by
  obtain ⟨hcc, heq⟩ | ⟨-, t, heq, hsq, hcq, -⟩ := s.writeRegister_cases offset value
  · rw [heq]
    obtain ⟨-, -, heq⟩ | ⟨-, -, after, heq⟩ | ⟨-, -, heq⟩ | ⟨henabled, hen, heq⟩ :=
      s.writeCc_cases value
    · rw [heq]
      exact ⟨fun _ _ hsq => (nomatch hsq), fun _ _ hcq => (nomatch hcq)⟩
    · rw [heq]
      exact ⟨h.sq, h.cq⟩
    · rw [heq]
      exact ⟨h.sq, h.cq⟩
    · rw [heq]
      exact State.Fits.enable (s := { s with cc := value &&& ccMask }) ⟨h.sq, h.cq⟩
        (hfits hcc henabled hen)
  · rw [heq]
    exact ⟨hsq ▸ h.sq, hcq ▸ h.cq⟩

theorem State.Fits.doorbell {offset : Nat} {value : UInt32} {after : After}
    {t : State} (hring : s.doorbell offset value = some (after, t)) : t.Fits := by
  obtain ⟨-, rfl | ⟨qid, cq, hcq, -, rfl⟩ | ⟨qid, sq, hsq, -, rfl⟩⟩ :=
    State.doorbell_cases hring
  · exact ⟨h.sq, h.cq⟩
  · exact h.update_cq qid fun cq' hmem => by cases hmem; exact h.cq qid cq hcq
  · exact h.update_sq qid fun sq' hmem => by cases hmem; exact h.sq qid sq hsq

theorem State.Fits.nextJob {job : Job} {t : State}
    (hnext : s.nextJob = some (job, t)) : t.Fits := by
  obtain ⟨-, sq, hsq, -, -, -, -, rfl⟩ := State.nextJob_cases hnext
  exact h.update_sq job.sqid fun sq' hmem => by cases hmem; exact h.sq job.sqid sq hsq

theorem State.Fits.place {cqid : Nat} {at_ : Nat × Bool} {t : State}
    (hplace : s.place cqid = some (at_, t)) : t.Fits := by
  obtain ⟨slot, -, cq, hcq, -, -, rfl⟩ := State.place_cases hplace
  refine h.update_cq slot fun cq' hmem => ?_
  cases hmem
  have hfits := h.cq slot cq hcq
  unfold CompQueue.Fits at hfits ⊢
  rwa [cq.advance_base.1, cq.advance_base.2]

theorem State.Fits.getD {α : Type} {o : Option (α × State)}
    (hsome : ∀ a t, o = some (a, t) → t.Fits) : ((o.map (·.2)).getD s).Fits := by
  cases o with
  | none => exact h
  | some r => exact hsome r.1 r.2 rfl

theorem State.Fits.load {bytes : Bytes} (hfits : (Action.load bytes).Fits params s) :
    (s.load bytes).2.Fits := by
  unfold State.load
  cases hread : readState bytes with
  | error e => exact h
  | ok read => exact hfits ⟨read, hread⟩ _ _ (readState_ok hread).2

theorem State.Fits.shutDown (durable : Bool) : (s.shutDown durable).Fits := by
  unfold State.shutDown
  split <;> exact ⟨h.sq, h.cq⟩

theorem State.Fits.createCq {page : Nat} {cmd : Command}
    (hfits : (Action.createCq page cmd).Fits params s) : (s.createCq params page cmd).2.Fits := by
  obtain heq | ⟨slot, -, -, -, heq⟩ := s.createCq_cases params page cmd
  · rwa [heq]
  · have hqueue := hfits (by rw [heq])
    rw [heq]
    refine h.update_cq slot fun cq hmem => ?_
    cases hmem
    exact hqueue

theorem State.Fits.createSq {page : Nat} {cmd : Command}
    (hfits : (Action.createSq page cmd).Fits params s) : (s.createSq params page cmd).2.Fits := by
  obtain heq | ⟨slot, -, -, -, heq⟩ := s.createSq_cases params page cmd
  · rwa [heq]
  · have hqueue := hfits (by rw [heq])
    rw [heq]
    refine h.update_sq slot fun sq hmem => ?_
    cases hmem
    exact hqueue

theorem State.Fits.deleteSq (cmd : Command) : (s.deleteSq cmd).2.Fits := by
  obtain heq | ⟨slot, -, heq⟩ := s.deleteSq_cases cmd
  · rwa [heq]
  · rw [heq]
    exact h.update_sq slot fun sq hmem => nomatch hmem

theorem State.Fits.deleteCq (cmd : Command) : (s.deleteCq cmd).2.Fits := by
  obtain heq | ⟨slot, -, -, heq⟩ := s.deleteCq_cases cmd
  · rwa [heq]
  · rw [heq]
    exact h.update_cq slot fun cq hmem => nomatch hmem

theorem State.Fits.asyncEvent : s.asyncEvent.2.Fits := by
  unfold State.asyncEvent
  split <;> exact ⟨h.sq, h.cq⟩

theorem State.Fits.apply {a : Action} (hfits : a.Fits params s) : (a.apply params s).Fits := by
  cases a with
  | write offset value => exact h.writeRegister hfits
  | doorbell offset value =>
    exact h.getD (o := s.doorbell offset value) fun _ _ hring => h.doorbell hring
  | shutDown durable => exact h.shutDown durable
  | nextJob => exact h.getD (o := s.nextJob) fun _ _ hnext => h.nextJob hnext
  | place cqid => exact h.getD (o := s.place cqid) fun _ _ hplace => h.place hplace
  | fatal => exact ⟨h.sq, h.cq⟩
  | createCq page cmd => exact h.createCq hfits
  | createSq page cmd => exact h.createSq hfits
  | deleteSq cmd => exact h.deleteSq cmd
  | deleteCq cmd => exact h.deleteCq cmd
  | asyncEvent => exact h.asyncEvent
  | reset => exact .new
  | load bytes => exact h.load hfits

end

end Steps

theorem State.Fits.run {params : Params} {actions : List Action} (h : s.Fits)
    (hfits : Fitting params s actions) : (Nvme.run params s actions).Fits := by
  induction actions generalizing s with
  | nil => exact h
  | cons a as ih => exact ih (h.apply hfits.1) hfits.2

/-- **Queue descriptors as the rings and the loader assume them.** -/
structure State.WellFormed (s : State) : Prop where
  sq : ∀ qid, ∀ sq ∈ s.sq qid, sq.Sound ∧ (s.cq? sq.cqid).isSome ∧
    ∀ index < sq.entries, sq.base + index * sqeLen < 2 ^ 64
  cq : ∀ qid, ∀ cq ∈ s.cq qid, cq.Sound ∧
    ∀ index < cq.entries, cq.base + index * cqeLen < 2 ^ 64

theorem State.Sound.wellFormed (h : s.Sound) (hfits : s.Fits) : s.WellFormed where
  sq := fun qid sq hsq => by
    refine ⟨(h.sq qid sq hsq).1, h.linked qid sq hsq, fun index hindex => ?_⟩
    have hlast := hfits.sq qid sq hsq
    have hle : index * sqeLen ≤ (sq.entries - 1) * sqeLen := Nat.mul_le_mul_right _ (by omega)
    unfold SubQueue.Fits at hlast
    omega
  cq := fun qid cq hcq => by
    refine ⟨(h.cq qid cq hcq).1, fun index hindex => ?_⟩
    have hlast := hfits.cq qid cq hcq
    have hle : index * cqeLen ≤ (cq.entries - 1) * cqeLen := Nat.mul_le_mul_right _ (by omega)
    unfold CompQueue.Fits at hlast
    omega

/-- **Queue descriptors are well formed in every state of a run**, a snapshot brings the state
back, and a chunk is refused or installs a state that is well formed too, if no queue is made
whose entries run past the top of the address space. -/
theorem wellFormed_run (params : Params) {actions : List Action}
    (hfits : Fitting params State.new actions) :
    (run params State.new actions).WellFormed ∧
      (∀ t : State, t.load (run params State.new actions).save
        = (.ok [], run params State.new actions)) ∧
      ∀ bytes, (Action.load bytes).Fits params (run params State.new actions) →
        (∃ e, (run params State.new actions).load bytes
          = (.error e, run params State.new actions)) ∨
        ∃ rest t, (run params State.new actions).load bytes = (.ok rest, t) ∧ t.WellFormed := by
  have hsound := State.Sound.new.run params actions
  have hbelow := State.Fits.new.run hfits
  refine ⟨hsound.wellFormed hbelow, hsound.load_save, fun bytes hload => ?_⟩
  have hloaded := (hsound.load bytes).wellFormed (hbelow.load hload)
  unfold State.load at hloaded ⊢
  cases hread : readState bytes with
  | error e => exact .inl ⟨e, rfl⟩
  | ok read =>
    rw [hread] at hloaded
    exact .inr ⟨read.2, read.1, rfl, hloaded⟩

/-- The writes that enable a controller, with an admin submission queue of 128 entries near the
top of the address space. -/
def enabling (asqLow : UInt32) : List Action :=
  [.write regAqa 0x007f007f, .write regAsq asqLow, .write regAsqHigh 0xffffffff,
    .write regAcq 0x1000, .write regCc 0x00460001]

theorem wellFormed_run_enabled : (run oneQueue State.new (enabling 0xffff0000)).WellFormed := by
  have hfits : Fitting oneQueue State.new (enabling 0xffff0000) := by
    refine ⟨nofun, nofun,
      nofun, nofun, ?_, trivial⟩
    intro _ _ _ _
    exact ⟨by decide, by decide⟩
  exact (wellFormed_run oneQueue hfits).1

/-- A base on the last page is accepted, and the entry after its first 64 has the address
`2 ^ 64`. -/
theorem last_page_wraps : ¬ (run oneQueue State.new (enabling 0xfffff000)).WellFormed := by
  intro h
  have hsq : (run oneQueue State.new (enabling 0xfffff000)).sq adminSlot =
      some ⟨0xfffffffffffff000, 128, 0, 0, 0⟩ := by decide
  obtain ⟨-, -, haddress⟩ := h.sq adminSlot _ hsq
  exact absurd (haddress 64 (by decide)) (by decide)

end Rsemu.Nvme
