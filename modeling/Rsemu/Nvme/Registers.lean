import Mathlib.Data.List.FinRange
import Mathlib.Logic.Function.Basic
import Rsemu.Nvme.Prp

/-!
# The controller's registers and queues

What the controller keeps is one record, and every access to it is made under one lock. Each
function here is what happens under one taking of that lock: a register write, a doorbell, the
next command off a queue, the place of a completion, a queue made or deleted. What is done in
between, with guest memory or the medium, is in the controller's run.
-/

namespace Rsemu.Nvme

open Codec (Bytes fromLe)

def stInvalidOpcode : UInt16 := 0x0001
def stInvalidNamespace : UInt16 := 0x000b
def stCqInvalid : UInt16 := 0x0100
def stInvalidQid : UInt16 := 0x0101
def stInvalidQsize : UInt16 := 0x0102
def stAerLimit : UInt16 := 0x0105
def stInvalidVector : UInt16 := 0x0108
def stInvalidLogPage : UInt16 := 0x0109
def stInvalidQueueDeletion : UInt16 := 0x010c

/-- Bytes in a submission queue entry. -/
def sqeLen : Nat := 64
def cqeLen : Nat := 16
def maxQueueEntries : Nat := 1024
def maxAdminEntries : Nat := 4096
def aerLimit : Nat := 1
def queueSlots : Nat := 9
def doorbellBase : Nat := 0x1000
def doorbellStride : Nat := 4

def regIntms : Nat := 0x0c
def regIntmc : Nat := 0x10
def regCc : Nat := 0x14
def regAqa : Nat := 0x24
def regAsq : Nat := 0x28
def regAsqHigh : Nat := 0x2c
def regAcq : Nat := 0x30
def regAcqHigh : Nat := 0x34

def ccEn : UInt32 := 0x1
def ccMask : UInt32 := 0x00fffff1
def shnMask : UInt32 := 0xc000
def aqaMask : UInt32 := 0x0fff0fff

def cstsRdy : UInt32 := 0x1
def cstsCfs : UInt32 := 0x2
def cstsShstComplete : UInt32 := 0x8
def cstsShstMask : UInt32 := 0xc

/-- A submission queue. -/
structure SubQueue where
  base : Nat
  entries : Nat
  head : Nat
  tail : Nat
  cqid : Nat
  deriving DecidableEq

/-- A completion queue, and the phase that its next entry carries. -/
structure CompQueue where
  base : Nat
  entries : Nat
  head : Nat
  tail : Nat
  phase : Bool
  vector : Nat
  interrupts : Bool

/-- There is a slot for one more completion. -/
def CompQueue.HasRoom (cq : CompQueue) : Prop :=
  0 < cq.entries ∧ (cq.tail + 1) % cq.entries ≠ cq.head

instance (cq : CompQueue) : Decidable cq.HasRoom :=
  inferInstanceAs (Decidable (0 < cq.entries ∧ (cq.tail + 1) % cq.entries ≠ cq.head))

/-- The host has completions to read. -/
def CompQueue.Pending (cq : CompQueue) : Prop := cq.head ≠ cq.tail

instance (cq : CompQueue) : Decidable cq.Pending :=
  inferInstanceAs (Decidable (cq.head ≠ cq.tail))

/-- A queue's number. -/
abbrev Slot := Fin queueSlots

def slot? (qid : Nat) : Option Slot := if h : qid < queueSlots then some ⟨qid, h⟩ else none

/-- The registers and queues. -/
structure State where
  cc : UInt32
  csts : UInt32
  intms : UInt32
  aqa : UInt32
  asq : UInt64
  acq : UInt64
  aer : Nat
  sq : Slot → Option SubQueue
  cq : Slot → Option CompQueue

/-- No queues, nothing enabled. -/
def State.new : State where
  cc := 0
  csts := 0
  intms := 0
  aqa := 0
  asq := 0
  acq := 0
  aer := 0
  sq := fun _ => none
  cq := fun _ => none

def State.cq? (s : State) (qid : Nat) : Option CompQueue := (slot? qid).bind s.cq

def mpsOf (cc : UInt32) : UInt32 := cc >>> 7 &&& 0xf

def State.page (s : State) : Nat := 2 ^ (12 + (mpsOf s.cc).toNat)

/-- `CC.EN` is set. -/
def State.Enabled (s : State) : Prop := s.cc &&& ccEn ≠ 0

instance (s : State) : Decidable s.Enabled := inferInstanceAs (Decidable (s.cc &&& ccEn ≠ 0))

/-- `CSTS.RDY` is set. -/
def State.Ready (s : State) : Prop := s.csts &&& cstsRdy ≠ 0

instance (s : State) : Decidable s.Ready := inferInstanceAs (Decidable (s.csts &&& cstsRdy ≠ 0))

def State.controllerReset (s : State) : State :=
  { s with
    sq := fun _ => none
    cq := fun _ => none
    aer := 0
    csts := s.csts &&& ~~~(cstsRdy ||| cstsShstMask) }

def State.fatal (s : State) : State := { s with csts := s.csts ||| cstsCfs }

/-- What is left to do after a register write. -/
inductive After where
  /-- Refresh the interrupt output and nothing else. -/
  | irq
  /-- Make the medium durable, then say so. -/
  | shutdown
  /-- Commands may be waiting. -/
  | run

def State.asqs (s : State) : Nat := (s.aqa &&& 0xfff).toNat + 1

def State.acqs (s : State) : Nat := (s.aqa >>> 16 &&& 0xfff).toNat + 1

/-- A configuration that the controller comes ready with. -/
def State.Accepts (s : State) : Prop :=
  s.cc >>> 16 &&& 0xf = 6 ∧ s.cc >>> 20 &&& 0xf = 4 ∧ s.cc >>> 4 &&& 0x7 = 0 ∧
    s.cc >>> 11 &&& 0x7 = 0 ∧ (mpsOf s.cc).toNat ≤ 4 ∧ 2 ≤ s.asqs ∧ 2 ≤ s.acqs ∧
    s.asqs ≤ maxAdminEntries ∧ s.acqs ≤ maxAdminEntries ∧ s.asq ≠ 0 ∧ s.acq ≠ 0 ∧
    s.asq.toNat % s.page = 0 ∧ s.acq.toNat % s.page = 0

instance (s : State) : Decidable s.Accepts :=
  inferInstanceAs (Decidable (_ ∧ _ ∧ _ ∧ _ ∧ _ ∧ _ ∧ _ ∧ _ ∧ _ ∧ _ ∧ _ ∧ _ ∧ _))

def adminSlot : Slot := ⟨0, by decide⟩

def State.adminSq (s : State) : SubQueue where
  base := s.asq.toNat
  entries := s.asqs
  head := 0
  tail := 0
  cqid := 0

def State.adminCq (s : State) : CompQueue where
  base := s.acq.toNat
  entries := s.acqs
  head := 0
  tail := 0
  phase := true
  vector := 0
  interrupts := true

def State.enable (s : State) : State :=
  if s.Accepts then
    { s with
      sq := Function.update s.sq adminSlot (some s.adminSq)
      cq := Function.update s.cq adminSlot (some s.adminCq)
      csts := s.csts ||| cstsRdy }
  else s.fatal

/-- A write to the configuration register. -/
def State.writeCc (s : State) (value : UInt32) : After × State :=
  let value := value &&& ccMask
  let shn := value >>> 14 &&& 0x3
  if s.Enabled then
    if value &&& ccEn = 0 then (.irq, { s with cc := value }.controllerReset)
    -- only the shutdown notification may move while the controller is enabled
    else (if shn ≠ 0 then .shutdown else .irq,
      { s with cc := s.cc &&& ~~~shnMask ||| value &&& shnMask })
  else if value &&& ccEn = 0 then (.irq, { s with cc := value })
  else (.irq, { s with cc := value }.enable)

def setLow (reg : UInt64) (value : UInt32) : UInt64 :=
  (reg &&& (0xffffffff00000000 : UInt64)) ||| value.toUInt64

def setHigh (reg : UInt64) (value : UInt32) : UInt64 :=
  (reg &&& (0xffffffff : UInt64)) ||| (value.toUInt64 <<< (32 : UInt64))

/-- A 32-bit register write below the doorbells. -/
def State.writeRegister (s : State) (offset : Nat) (value : UInt32) : After × State :=
  if offset = regIntms then (.irq, { s with intms := s.intms ||| value })
  else if offset = regIntmc then (.irq, { s with intms := s.intms &&& ~~~value })
  else if offset = regCc then s.writeCc value
  else if s.Enabled then (.irq, s)
  else if offset = regAqa then (.irq, { s with aqa := value &&& aqaMask })
  else if offset = regAsq then (.irq, { s with asq := setLow s.asq value })
  else if offset = regAsqHigh then (.irq, { s with asq := setHigh s.asq value })
  else if offset = regAcq then (.irq, { s with acq := setLow s.acq value })
  else if offset = regAcqHigh then (.irq, { s with acq := setHigh s.acq value })
  else (.irq, s)

def State.shutDown (s : State) (durable : Bool) : State :=
  let s := { s with csts := s.csts &&& ~~~cstsShstMask ||| cstsShstComplete }
  if durable then s else s.fatal

/-- A doorbell write: what it asks for, if it is one of a queue that is there. -/
def State.doorbell (s : State) (offset : Nat) (value : UInt32) : Option (After × State) :=
  let byte := offset - doorbellBase
  if byte % doorbellStride ≠ 0 then none
  else
    let index := byte / doorbellStride
    match slot? (index / 2) with
    | none => none
    | some qid =>
      if ¬ s.Ready then none
      else if index % 2 = 1 then
        match s.cq qid with
        | none => none
        | some cq =>
          if cq.entries ≤ value.toNat then some (.irq, s.fatal)
          else some (.run, { s with
            cq := Function.update s.cq qid (some { cq with head := value.toNat }) })
      else
        match s.sq qid with
        | none => none
        | some sq =>
          if sq.entries ≤ value.toNat then some (.irq, s.fatal)
          else some (.run, { s with
            sq := Function.update s.sq qid (some { sq with tail := value.toNat }) })

/-- A command waits and its completion has room. -/
def State.HasWork (s : State) (sq : SubQueue) : Prop :=
  ¬ (sq.head = sq.tail ∨ sq.entries = 0) ∧ ∃ cq ∈ s.cq? sq.cqid, cq.HasRoom

instance (s : State) (sq : SubQueue) : Decidable (s.HasWork sq) :=
  inferInstanceAs (Decidable (_ ∧ ∃ cq ∈ s.cq? sq.cqid, cq.HasRoom))

def State.pick (s : State) : Option (Slot × SubQueue) :=
  if s.csts &&& (cstsRdy ||| cstsCfs) ≠ cstsRdy then none
  else (List.finRange queueSlots).findSome? fun qid =>
    (s.sq qid).bind fun sq => if s.HasWork sq then some (qid, sq) else none

/-- A command that has been taken from its queue. -/
structure Job where
  sqid : Slot
  cqid : Nat
  /-- Where the entry is in guest memory. -/
  addr : Nat
  /-- The head after consuming it. -/
  sqhd : Nat

def State.nextJob (s : State) : Option (Job × State) :=
  s.pick.map fun picked =>
    let sq := picked.2
    let head := (sq.head + 1) % sq.entries
    (⟨picked.1, sq.cqid, sq.base + sq.head * sqeLen, head⟩,
      { s with sq := Function.update s.sq picked.1 (some { sq with head := head }) })

def CompQueue.advance (cq : CompQueue) : CompQueue :=
  if cq.tail + 1 = cq.entries then { cq with tail := 0, phase := !cq.phase }
  else { cq with tail := cq.tail + 1 }

/-- Where a completion goes and the phase it carries, and the queue's tail moved. -/
def State.place (s : State) (cqid : Nat) : Option ((Nat × Bool) × State) :=
  match slot? cqid with
  | none => none
  | some qid =>
    match s.cq qid with
    | none => none
    | some cq =>
      if cq.HasRoom then some ((cq.base + cq.tail * cqeLen, cq.phase),
        { s with cq := Function.update s.cq qid (some cq.advance) })
      else none

/-- A submission queue entry, as the fields the controller reads. -/
structure Command where
  opcode : UInt8
  /-- How the data is named: zero is with physical region pages. -/
  psdt : UInt8
  cid : UInt16
  nsid : UInt32
  prp1 : UInt64
  prp2 : UInt64
  cdw10 : UInt32
  cdw11 : UInt32
  cdw12 : UInt32

def field (raw : Bytes) (at_ n : Nat) : Nat := fromLe ((raw.drop at_).take n)

/-- The fields of a submission entry. -/
def Command.parse (raw : Bytes) : Command :=
  let cdw0 := UInt32.ofNat (field raw 0 4)
  { opcode := cdw0.toUInt8
    psdt := (cdw0 >>> 14 &&& 0x3).toUInt8
    cid := (cdw0 >>> 16).toUInt16
    nsid := UInt32.ofNat (field raw 4 4)
    prp1 := UInt64.ofNat (field raw 24 8)
    prp2 := UInt64.ofNat (field raw 32 8)
    cdw10 := UInt32.ofNat (field raw 40 4)
    cdw11 := UInt32.ofNat (field raw 44 4)
    cdw12 := UInt32.ofNat (field raw 48 4) }

def low (w : UInt32) : Nat := (w &&& 0xffff).toNat

def high (w : UInt32) : Nat := (w >>> 16 &&& 0xffff).toNat

/-- What the device was made with. -/
structure Params where
  ioQueues : Nat
  least : 1 ≤ ioQueues
  most : ioQueues ≤ 8

def oneQueue : Params := ⟨1, by decide, by decide⟩

def Command.compQueue (cmd : Command) : CompQueue where
  base := cmd.prp1.toNat
  entries := high cmd.cdw10 + 1
  head := 0
  tail := 0
  phase := true
  vector := (cmd.cdw11 >>> 16).toNat
  interrupts := cmd.cdw11 &&& 2 != 0

def Command.subQueue (cmd : Command) : SubQueue where
  base := cmd.prp1.toNat
  entries := high cmd.cdw10 + 1
  head := 0
  tail := 0
  cqid := (cmd.cdw11 >>> 16).toNat

/-- Create I/O Completion Queue. -/
def State.createCq (s : State) (params : Params) (page : Nat) (cmd : Command) :
    UInt16 × State :=
  let qid := low cmd.cdw10
  let entries := high cmd.cdw10 + 1
  let vector := (cmd.cdw11 >>> 16).toNat
  if qid = 0 ∨ params.ioQueues < qid then (stInvalidQid, s)
  else if ¬ (2 ≤ entries ∧ entries ≤ maxQueueEntries) then (stInvalidQsize, s)
  else if cmd.cdw11 &&& 1 = 0 then (stInvalidField, s)
  else if 32 ≤ vector then (stInvalidVector, s)
  else if cmd.prp1.toNat % page ≠ 0 ∨ cmd.prp1 = 0 then (stPrpOffset, s)
  else
    match slot? qid with
    -- there is a slot for each of the I/O queues
    | none => (stInvalidQid, s)
    | some slot =>
      if (s.cq slot).isSome then (stInvalidQid, s)
      else (stSuccess, { s with
        cq := Function.update s.cq slot (some cmd.compQueue) })

/-- Create I/O Submission Queue. The completion queue it names has to exist. -/
def State.createSq (s : State) (params : Params) (page : Nat) (cmd : Command) :
    UInt16 × State :=
  let qid := low cmd.cdw10
  let entries := high cmd.cdw10 + 1
  let cqid := (cmd.cdw11 >>> 16).toNat
  if qid = 0 ∨ params.ioQueues < qid then (stInvalidQid, s)
  else if ¬ (2 ≤ entries ∧ entries ≤ maxQueueEntries) then (stInvalidQsize, s)
  else if cmd.cdw11 &&& 1 = 0 then (stInvalidField, s)
  else if cmd.prp1.toNat % page ≠ 0 ∨ cmd.prp1 = 0 then (stPrpOffset, s)
  else if s.cq? cqid = none then (stCqInvalid, s)
  else
    match slot? qid with
    | none => (stInvalidQid, s)
    | some slot =>
      if (s.sq slot).isSome then (stInvalidQid, s)
      else (stSuccess, { s with
        sq := Function.update s.sq slot (some cmd.subQueue) })

def State.deleteSq (s : State) (cmd : Command) : UInt16 × State :=
  match slot? (low cmd.cdw10) with
  | none => (stInvalidQid, s)
  | some slot =>
    if slot = adminSlot ∨ s.sq slot = none then (stInvalidQid, s)
    else (stSuccess, { s with sq := Function.update s.sq slot none })

/-- The Delete I/O Completion Queue command. -/
def State.deleteCq (s : State) (cmd : Command) : UInt16 × State :=
  match slot? (low cmd.cdw10) with
  | none => (stInvalidQid, s)
  | some slot =>
    if slot = adminSlot ∨ s.cq slot = none then (stInvalidQid, s)
    else if ∃ qid, ∃ sq ∈ s.sq qid, sq.cqid = slot.val then (stInvalidQueueDeletion, s)
    else (stSuccess, { s with cq := Function.update s.cq slot none })

def State.asyncEvent (s : State) : Option UInt16 × State :=
  if aerLimit ≤ s.aer then (some stAerLimit, s) else (none, { s with aer := s.aer + 1 })

section

variable {s : State}

theorem State.writeCc_cases (s : State) (value : UInt32) :
    s.Enabled ∧ value &&& ccMask &&& ccEn = 0 ∧
      s.writeCc value = (.irq, { s with cc := value &&& ccMask }.controllerReset) ∨
    s.Enabled ∧ value &&& ccMask &&& ccEn ≠ 0 ∧ (∃ after, s.writeCc value =
      (after, { s with cc := s.cc &&& ~~~shnMask ||| value &&& ccMask &&& shnMask })) ∨
    ¬ s.Enabled ∧ value &&& ccMask &&& ccEn = 0 ∧
      s.writeCc value = (.irq, { s with cc := value &&& ccMask }) ∨
    ¬ s.Enabled ∧ value &&& ccMask &&& ccEn ≠ 0 ∧
      s.writeCc value = (.irq, { s with cc := value &&& ccMask }.enable) := by
  unfold State.writeCc
  dsimp only
  by_cases henabled : s.Enabled
  · rw [if_pos henabled]
    by_cases hen : value &&& ccMask &&& ccEn = 0
    · rw [if_pos hen]
      exact .inl ⟨henabled, hen, rfl⟩
    · rw [if_neg hen]
      exact .inr (.inl ⟨henabled, hen, _, rfl⟩)
  · rw [if_neg henabled]
    by_cases hen : value &&& ccMask &&& ccEn = 0
    · rw [if_pos hen]
      exact .inr (.inr (.inl ⟨henabled, hen, rfl⟩))
    · rw [if_neg hen]
      exact .inr (.inr (.inr ⟨henabled, hen, rfl⟩))

theorem State.writeRegister_cases (s : State) (offset : Nat) (value : UInt32) :
    offset = regCc ∧ s.writeRegister offset value = s.writeCc value ∨
    offset ≠ regCc ∧ ∃ t : State, s.writeRegister offset value = (.irq, t) ∧
      t.sq = s.sq ∧ t.cq = s.cq ∧ t.cc = s.cc ∧ t.csts = s.csts ∧ t.aer = s.aer ∧
      (t.aqa = s.aqa ∨ t.aqa = value &&& aqaMask) := by
  by_cases hintms : offset = regIntms
  · refine .inr ⟨by rw [hintms]; decide, { s with intms := s.intms ||| value }, ?_, rfl, rfl, rfl,
      rfl, rfl, .inl rfl⟩
    rw [writeRegister, if_pos hintms]
  by_cases hintmc : offset = regIntmc
  · refine .inr ⟨by rw [hintmc]; decide, { s with intms := s.intms &&& ~~~value }, ?_, rfl, rfl,
      rfl, rfl, rfl, .inl rfl⟩
    rw [writeRegister, if_neg hintms, if_pos hintmc]
  by_cases hcc : offset = regCc
  · exact .inl ⟨hcc, by rw [writeRegister, if_neg hintms, if_neg hintmc, if_pos hcc]⟩
  refine .inr ⟨hcc, ?_⟩
  rw [writeRegister, if_neg hintms, if_neg hintmc, if_neg hcc]
  split
  · exact ⟨s, rfl, rfl, rfl, rfl, rfl, rfl, .inl rfl⟩
  split
  · exact ⟨_, rfl, rfl, rfl, rfl, rfl, rfl, .inr rfl⟩
  split
  · exact ⟨_, rfl, rfl, rfl, rfl, rfl, rfl, .inl rfl⟩
  split
  · exact ⟨_, rfl, rfl, rfl, rfl, rfl, rfl, .inl rfl⟩
  split
  · exact ⟨_, rfl, rfl, rfl, rfl, rfl, rfl, .inl rfl⟩
  split
  · exact ⟨_, rfl, rfl, rfl, rfl, rfl, rfl, .inl rfl⟩
  · exact ⟨s, rfl, rfl, rfl, rfl, rfl, rfl, .inl rfl⟩

theorem State.doorbell_cases {offset : Nat} {value : UInt32} {after : After} {t : State}
    (h : s.doorbell offset value = some (after, t)) :
    s.Ready ∧ (t = s.fatal ∨
      (∃ qid, ∃ cq ∈ s.cq qid, value.toNat < cq.entries ∧
        t = { s with cq := Function.update s.cq qid (some { cq with head := value.toNat }) }) ∨
      ∃ qid, ∃ sq ∈ s.sq qid, value.toNat < sq.entries ∧
        t = { s with sq := Function.update s.sq qid (some { sq with tail := value.toNat }) }) := by
  unfold State.doorbell at h
  dsimp only at h
  split at h
  · cases h
  split at h
  · cases h
  rename_i qid _
  split at h
  · cases h
  rename_i hready
  refine ⟨not_not.mp hready, ?_⟩
  split at h
  · split at h
    · cases h
    · rename_i cq hcq
      split at h
      · cases h
        exact .inl rfl
      · rename_i hvalue
        cases h
        exact .inr (.inl ⟨qid, cq, hcq, Nat.not_le.mp hvalue, rfl⟩)
  · split at h
    · cases h
    · rename_i sq hsq
      split at h
      · cases h
        exact .inl rfl
      · rename_i hvalue
        cases h
        exact .inr (.inr ⟨qid, sq, hsq, Nat.not_le.mp hvalue, rfl⟩)

theorem State.pick_mem {slot : Slot} {sq : SubQueue} (h : s.pick = some (slot, sq)) :
    sq ∈ s.sq slot ∧ s.HasWork sq ∧ s.csts &&& (cstsRdy ||| cstsCfs) = cstsRdy := by
  unfold State.pick at h
  split at h
  · cases h
  · rename_i hready
    obtain ⟨qid, -, hqid⟩ := List.exists_of_findSome?_eq_some h
    obtain ⟨sq', hsq', hpicked⟩ := Option.bind_eq_some_iff.mp hqid
    split at hpicked
    · rename_i hwork
      cases hpicked
      exact ⟨hsq', hwork, not_not.mp hready⟩
    · cases hpicked

theorem State.nextJob_cases {job : Job} {t : State} (h : s.nextJob = some (job, t)) :
    s.csts &&& (cstsRdy ||| cstsCfs) = cstsRdy ∧ ∃ sq ∈ s.sq job.sqid, s.HasWork sq ∧
      job.cqid = sq.cqid ∧ job.addr = sq.base + sq.head * sqeLen ∧
      job.sqhd = (sq.head + 1) % sq.entries ∧
      t = { s with sq := Function.update s.sq job.sqid (some { sq with head := job.sqhd }) } := by
  obtain ⟨⟨slot, sq⟩, hpick, heq⟩ := Option.map_eq_some_iff.mp h
  cases heq
  obtain ⟨hsq, hwork, hready⟩ := State.pick_mem hpick
  exact ⟨hready, sq, hsq, hwork, rfl, rfl, rfl, rfl⟩

theorem slot?_eq_some {qid : Nat} {slot : Slot} (h : slot? qid = some slot) : slot.val = qid := by
  unfold slot? at h
  split at h <;> cases h
  rfl

theorem State.place_cases {cqid : Nat} {at_ : Nat × Bool} {t : State}
    (h : s.place cqid = some (at_, t)) : ∃ slot, slot.val = cqid ∧ ∃ cq ∈ s.cq slot,
      cq.HasRoom ∧ at_ = (cq.base + cq.tail * cqeLen, cq.phase) ∧
      t = { s with cq := Function.update s.cq slot (some cq.advance) } := by
  unfold State.place at h
  split at h
  · cases h
  rename_i slot hslot
  split at h
  · cases h
  rename_i cq hcq
  split at h
  · rename_i hroom
    cases h
    exact ⟨slot, slot?_eq_some hslot, cq, hcq, hroom, rfl, rfl⟩
  · cases h

theorem State.createCq_cases (s : State) (params : Params) (page : Nat) (cmd : Command) :
    (s.createCq params page cmd).2 = s ∨ ∃ slot, slot ≠ adminSlot ∧
      (2 ≤ cmd.compQueue.entries ∧ cmd.compQueue.entries ≤ maxQueueEntries) ∧
      cmd.compQueue.vector < 32 ∧ s.createCq params page cmd =
        (stSuccess, { s with cq := Function.update s.cq slot (some cmd.compQueue) }) := by
  unfold State.createCq
  dsimp only
  by_cases hqid : low cmd.cdw10 = 0 ∨ params.ioQueues < low cmd.cdw10
  · exact .inl (by rw [if_pos hqid])
  by_cases hsize : ¬ (2 ≤ high cmd.cdw10 + 1 ∧ high cmd.cdw10 + 1 ≤ maxQueueEntries)
  · exact .inl (by rw [if_neg hqid, if_pos hsize])
  by_cases hcontiguous : cmd.cdw11 &&& 1 = 0
  · exact .inl (by rw [if_neg hqid, if_neg hsize, if_pos hcontiguous])
  by_cases hvector : 32 ≤ (cmd.cdw11 >>> 16).toNat
  · exact .inl (by rw [if_neg hqid, if_neg hsize, if_neg hcontiguous, if_pos hvector])
  rw [if_neg hqid, if_neg hsize, if_neg hcontiguous, if_neg hvector]
  split_ifs
  · exact .inl rfl
  cases hslot : slot? (low cmd.cdw10) with
  | none => exact .inl rfl
  | some slot =>
    dsimp only
    split_ifs
    · exact .inl rfl
    · refine .inr ⟨slot, fun hadmin => ?_, not_not.mp hsize, Nat.not_le.mp hvector, rfl⟩
      have hzero := slot?_eq_some hslot
      rw [hadmin] at hzero
      exact hqid (.inl hzero.symm)

theorem State.createSq_cases (s : State) (params : Params) (page : Nat) (cmd : Command) :
    (s.createSq params page cmd).2 = s ∨ ∃ slot, slot ≠ adminSlot ∧
      (2 ≤ cmd.subQueue.entries ∧ cmd.subQueue.entries ≤ maxQueueEntries) ∧
      (s.cq? cmd.subQueue.cqid).isSome ∧ s.createSq params page cmd =
        (stSuccess, { s with sq := Function.update s.sq slot (some cmd.subQueue) }) := by
  unfold State.createSq
  dsimp only
  by_cases hqid : low cmd.cdw10 = 0 ∨ params.ioQueues < low cmd.cdw10
  · exact .inl (by rw [if_pos hqid])
  by_cases hsize : ¬ (2 ≤ high cmd.cdw10 + 1 ∧ high cmd.cdw10 + 1 ≤ maxQueueEntries)
  · exact .inl (by rw [if_neg hqid, if_pos hsize])
  rw [if_neg hqid, if_neg hsize]
  split_ifs with hcontiguous hoffset hcq
  · exact .inl rfl
  · exact .inl rfl
  · exact .inl rfl
  cases hslot : slot? (low cmd.cdw10) with
  | none => exact .inl rfl
  | some slot =>
    dsimp only
    split_ifs
    · exact .inl rfl
    · refine .inr ⟨slot, fun hadmin => ?_, not_not.mp hsize,
        Option.isSome_iff_ne_none.mpr hcq, rfl⟩
      have hzero := slot?_eq_some hslot
      rw [hadmin] at hzero
      exact hqid (.inl hzero.symm)

theorem State.deleteSq_cases (s : State) (cmd : Command) :
    (s.deleteSq cmd).2 = s ∨ ∃ slot, slot ≠ adminSlot ∧
      (s.deleteSq cmd).2 = { s with sq := Function.update s.sq slot none } := by
  unfold State.deleteSq
  cases slot? (low cmd.cdw10) with
  | none => exact .inl rfl
  | some slot =>
    dsimp only
    split_ifs with hthere
    · exact .inl rfl
    · exact .inr ⟨slot, fun hadmin => hthere (.inl hadmin), rfl⟩

theorem State.deleteCq_cases (s : State) (cmd : Command) :
    (s.deleteCq cmd).2 = s ∨ ∃ slot, slot ≠ adminSlot ∧
      (∀ qid, ∀ sq ∈ s.sq qid, sq.cqid ≠ slot.val) ∧
      (s.deleteCq cmd).2 = { s with cq := Function.update s.cq slot none } := by
  unfold State.deleteCq
  cases slot? (low cmd.cdw10) with
  | none => exact .inl rfl
  | some slot =>
    dsimp only
    split_ifs with hthere hnamed
    · exact .inl rfl
    · exact .inl rfl
    · exact .inr ⟨slot, fun hadmin => hthere (.inl hadmin),
        fun qid sq hsq heq => hnamed ⟨qid, sq, hsq, heq⟩, rfl⟩

end

theorem or_and_distrib (x y m : UInt32) : (x ||| y) &&& m = x &&& m ||| y &&& m :=
  UInt32.toBitVec_inj.mp BitVec.and_or_distrib_right

theorem masked_or {x y m : UInt32} (hx : x &&& m = x) (hy : y &&& m = y) :
    (x ||| y) &&& m = x ||| y := by
  rw [or_and_distrib, hx, hy]

theorem masked_and {x m : UInt32} (hx : x &&& m = x) (a : UInt32) : x &&& a &&& m = x &&& a := by
  rw [UInt32.and_assoc, UInt32.and_comm a m, ← UInt32.and_assoc, hx]

theorem masked_self (x m : UInt32) : x &&& m &&& m = x &&& m := by
  rw [UInt32.and_assoc, UInt32.and_self]

end Rsemu.Nvme
