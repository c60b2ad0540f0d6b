import Rsemu.Nvme.Registers

/-!
# The controller at work

A doorbell runs the queues: fetch a command, run it, post its completion. The guest's memory and
the medium are what the controller runs against. A write of its own may end up in its own
registers; such a write is carried out at once, except that it finds the controller busy and
runs nothing. A function here takes the world and gives it back with its result.
-/

namespace Rsemu.Nvme

open Codec (Bytes leBytes fromLe)

/-- Guest memory: an access is refused or not, and a write may come to writes of the
controller's own registers. Reads change nothing. -/
structure Guest (σ : Type) where
  read : σ → Nat → Nat → Option Bytes
  write : σ → Nat → Bytes → Bool × σ
  rings : σ → Nat → Bytes → List (Nat × UInt32)

/-- The storage behind the controller. -/
structure Medium (μ : Type) where
  readAt : μ → Nat → Nat → Option Bytes
  writeAt : μ → Nat → Bytes → Bool × μ
  flush : μ → Bool × μ

/-- The blocks that the host sees. -/
structure Namespace where
  lbaShift : Nat
  blocks : Nat
  readOnly : Bool
  shift : 9 ≤ lbaShift ∧ lbaShift ≤ 12
  fits : blocks * 2 ^ lbaShift < 2 ^ 64

def Namespace.range (ns : Namespace) (slba count : Nat) : Option (Nat × Nat) :=
  if 2 ^ 64 ≤ slba + count then none
  else if ns.blocks < slba + count then none
  else some (slba <<< ns.lbaShift % 2 ^ 64, count <<< ns.lbaShift % 2 ^ 64)

/-- What a controller is put together from. The identify pages are what its parameters print. -/
structure Board (σ μ : Type) where
  guest : Guest σ
  media : Medium μ
  ns : Namespace
  params : Params
  identifyController : Bytes
  identifyNamespace : Bytes
  identifyNsDescs : Bytes

/-- The controller, its medium and the guest's memory. -/
structure World (σ μ : Type) where
  state : State
  guest : σ
  medium : μ
  /-- Bus Master Enable. -/
  master : Bool
  /-- The level the interrupt output is held at. -/
  irq : Bool

def maxStructure : Nat := 64 * 1024
def zeroChunk : Nat := 64 * 1024
def maxCommandsPerRun : Nat := queueSlots * maxAdminEntries

def adminDeleteSq : UInt8 := 0x00
def adminCreateSq : UInt8 := 0x01
def adminGetLogPage : UInt8 := 0x02
def adminDeleteCq : UInt8 := 0x04
def adminCreateCq : UInt8 := 0x05
def adminIdentify : UInt8 := 0x06
def adminAbort : UInt8 := 0x08
def adminSetFeatures : UInt8 := 0x09
def adminGetFeatures : UInt8 := 0x0a
def adminAsyncEvent : UInt8 := 0x0c
def nvmFlush : UInt8 := 0x00
def nvmWrite : UInt8 := 0x01
def nvmRead : UInt8 := 0x02
def nvmWriteZeroes : UInt8 := 0x08
def featureNumQueues : UInt32 := 0x07
def featureAsyncConfig : UInt32 := 0x0b

/-- A command's status and result. -/
abbrev Status := UInt16 × UInt32

section

variable {σ μ : Type}

/-- An enabled completion queue holds entries that are not acknowledged and not masked. -/
def State.IrqPending (s : State) : Prop :=
  s.Ready ∧ ∃ qid, ∃ cq ∈ s.cq qid, cq.interrupts = true ∧ cq.Pending ∧
    s.intms >>> (UInt32.ofNat (cq.vector % 32)) &&& 1 = 0

instance (s : State) : Decidable s.IrqPending :=
  inferInstanceAs (Decidable (s.Ready ∧ ∃ qid, ∃ cq ∈ s.cq qid, _ ∧ _ ∧ _))

def World.refreshIrq (w : World σ μ) : World σ μ := { w with irq := decide w.state.IrqPending }

def World.fatal (w : World σ μ) : World σ μ := { w with state := w.state.fatal }

def World.shutdown (b : Board σ μ) (w : World σ μ) : World σ μ :=
  let flushed := b.media.flush w.medium
  { w with medium := flushed.2, state := w.state.shutDown flushed.1 }.refreshIrq

def World.after (b : Board σ μ) (run : World σ μ → World σ μ) (w : World σ μ) :
    After → World σ μ
  | .irq => w.refreshIrq
  | .run => (run w).refreshIrq
  | .shutdown => w.shutdown b

/-- A 32-bit write of a register. -/
def World.writeDword (b : Board σ μ) (run : World σ μ → World σ μ) (w : World σ μ)
    (offset : Nat) (value : UInt32) : World σ μ :=
  if doorbellBase ≤ offset then
    match w.state.doorbell offset value with
    | none => w
    | some rung => { w with state := rung.2 }.after b run rung.1
  else
    let written := w.state.writeRegister offset value
    { w with state := written.2 }.after b run written.1

def World.writeBusy (b : Board σ μ) (w : World σ μ) (offset : Nat) (value : UInt32) : World σ μ :=
  w.writeDword b id offset value

def World.writeGuest (b : Board σ μ) (w : World σ μ) (at_ : Nat) (bytes : Bytes) :
    Bool × World σ μ :=
  let written := b.guest.write w.guest at_ bytes
  (written.1, (b.guest.rings w.guest at_ bytes).foldl
    (fun w ring => w.writeBusy b ring.1 ring.2) { w with guest := written.2 })

def World.entries (b : Board σ μ) (w : World σ μ) : Entries :=
  fun slot => (b.guest.read w.guest slot 8).map fromLe

def World.scatterChunks (b : Board σ μ) : World σ μ → List Chunk → Bytes → UInt16 × World σ μ
  | w, [], _ => (stSuccess, w)
  | w, (addr, n) :: chunks, data =>
    let written := w.writeGuest b addr (data.take n)
    if written.1 then written.2.scatterChunks b chunks (data.drop n)
    else (stDataTransfer, written.2)

def World.scatter (b : Board σ μ) (w : World σ μ) (cmd : Command) (data : Bytes) (page : Nat) :
    UInt16 × World σ μ :=
  match prpChunks (w.entries b) cmd.prp1.toNat cmd.prp2.toNat data.length page with
  | .error status => (status, w)
  | .ok chunks => w.scatterChunks b chunks data

/-- From guest memory to the medium, chunk by chunk. -/
def World.writeChunks (b : Board σ μ) : World σ μ → List Chunk → Nat → UInt16 × World σ μ
  | w, [], _ => (stSuccess, w)
  | w, (addr, n) :: chunks, at_ =>
    match b.guest.read w.guest addr n with
    | none => (stDataTransfer, w)
    | some bytes =>
      let written := b.media.writeAt w.medium at_ bytes
      if written.1 then { w with medium := written.2 }.writeChunks b chunks (at_ + n)
      else (stWriteFault, { w with medium := written.2 })

/-- From the medium to guest memory, chunk by chunk. -/
def World.readChunks (b : Board σ μ) : World σ μ → List Chunk → Nat → UInt16 × World σ μ
  | w, [], _ => (stSuccess, w)
  | w, (addr, n) :: chunks, at_ =>
    match b.media.readAt w.medium at_ n with
    | none => (stUnrecoveredRead, w)
    | some bytes =>
      let written := w.writeGuest b addr bytes
      if written.1 then written.2.readChunks b chunks (at_ + n)
      else (stDataTransfer, written.2)

/-- Move `len` bytes between the medium at `offset` and the guest ranges. The chunks are found
first, so a malformed list fails before a byte moves. -/
def World.transfer (b : Board σ μ) (w : World σ μ) (cmd : Command) (offset len : Nat)
    (write : Bool) : UInt16 × World σ μ :=
  match prpChunks (w.entries b) cmd.prp1.toNat cmd.prp2.toNat len w.state.page with
  | .error status => (status, w)
  | .ok chunks => if write then w.writeChunks b chunks offset else w.readChunks b chunks offset

def Command.extent (cmd : Command) : Nat × Nat :=
  (cmd.cdw10.toNat + 2 ^ 32 * cmd.cdw11.toNat, low cmd.cdw12 + 1)

/-- The Read command. -/
def World.read (b : Board σ μ) (w : World σ μ) (cmd : Command) : UInt16 × World σ μ :=
  if cmd.psdt ≠ 0 then (stInvalidField, w)
  else
    match b.ns.range cmd.extent.1 cmd.extent.2 with
    | none => (stLbaRange, w)
    | some extent =>
      if maxTransfer < extent.2 then (stInvalidField, w)
      else w.transfer b cmd extent.1 extent.2 false

/-- The Write command. -/
def World.write (b : Board σ μ) (w : World σ μ) (cmd : Command) : UInt16 × World σ μ :=
  if cmd.psdt ≠ 0 then (stInvalidField, w)
  else
    match b.ns.range cmd.extent.1 cmd.extent.2 with
    | none => (stLbaRange, w)
    | some extent =>
      if maxTransfer < extent.2 then (stInvalidField, w)
      else if b.ns.readOnly then (stWriteFault, w)
      else w.transfer b cmd extent.1 extent.2 true

/-- Zeros from `at_` to `len`, in so many pieces at most. -/
def World.zeroPieces (b : Board σ μ) (offset len : Nat) :
    Nat → World σ μ → Nat → UInt16 × World σ μ
  | 0, w, _ => (stSuccess, w)
  | pieces + 1, w, at_ =>
    if len ≤ at_ then (stSuccess, w)
    else
      let n := min zeroChunk (len - at_)
      let written := b.media.writeAt w.medium (offset + at_) (List.replicate n 0)
      if written.1 then World.zeroPieces b offset len pieces { w with medium := written.2 }
        (at_ + n)
      else (stWriteFault, { w with medium := written.2 })

def World.writeZeroes (b : Board σ μ) (w : World σ μ) (cmd : Command) : UInt16 × World σ μ :=
  match b.ns.range cmd.extent.1 cmd.extent.2 with
  | none => (stLbaRange, w)
  | some extent =>
    if b.ns.readOnly then (stWriteFault, w)
    else World.zeroPieces b extent.1 extent.2 (extent.2 / zeroChunk + 1) w 0

/-- Run one I/O command. -/
def World.nvm (b : Board σ μ) (w : World σ μ) (cmd : Command) : Option Status × World σ μ :=
  let reply (r : UInt16 × World σ μ) : Option Status × World σ μ := (some (r.1, 0), r.2)
  if cmd.nsid ≠ 1 ∧ ¬ (cmd.nsid = 0xffffffff ∧ cmd.opcode = nvmFlush) then
    (some (stInvalidNamespace, 0), w)
  else if cmd.opcode = nvmFlush then
    let flushed := b.media.flush w.medium
    (some (if flushed.1 then stSuccess else stWriteFault, 0), { w with medium := flushed.2 })
  else if cmd.opcode = nvmRead then reply (w.read b cmd)
  else if cmd.opcode = nvmWrite then reply (w.write b cmd)
  else if cmd.opcode = nvmWriteZeroes then reply (w.writeZeroes b cmd)
  else (some (stInvalidOpcode, 0), w)

def identifyList (nsid : UInt32) : Bytes :=
  if nsid < 1 then leBytes 4 1 ++ List.replicate 4092 0 else List.replicate 4096 0

/-- The Identify command. -/
def World.identify (b : Board σ μ) (w : World σ μ) (cmd : Command) : UInt16 × World σ μ :=
  let cns := cmd.cdw10 &&& 0xff
  if cmd.psdt ≠ 0 then (stInvalidField, w)
  else if cns = 0x00 then
    if cmd.nsid ≠ 1 then (stInvalidNamespace, w)
    else w.scatter b cmd b.identifyNamespace w.state.page
  else if cns = 0x01 then w.scatter b cmd b.identifyController w.state.page
  else if cns = 0x02 then w.scatter b cmd (identifyList cmd.nsid) w.state.page
  else if cns = 0x03 then
    if cmd.nsid ≠ 1 then (stInvalidNamespace, w)
    else w.scatter b cmd b.identifyNsDescs w.state.page
  else (stInvalidField, w)

def Params.allocatedQueues (params : Params) : UInt32 :=
  let n := UInt32.ofNat (params.ioQueues - 1)
  n ||| n <<< (16 : UInt32)

def Params.features (params : Params) (cmd : Command) : Status :=
  let feature := cmd.cdw10 &&& 0xff
  if feature = featureNumQueues then (stSuccess, params.allocatedQueues)
  else if feature = featureAsyncConfig then (stSuccess, 0)
  else (stInvalidField, 0)

/-- The Get Log Page command. -/
def World.getLogPage (b : Board σ μ) (w : World σ μ) (cmd : Command) : UInt16 × World σ μ :=
  let lid := cmd.cdw10 &&& 0xff
  let len := 4 * (high cmd.cdw10 + 2 ^ 16 * low cmd.cdw11 + 1)
  if cmd.psdt ≠ 0 then (stInvalidField, w)
  else if ¬ (1 ≤ lid ∧ lid ≤ 3) then (stInvalidLogPage, w)
  else if maxStructure < len then (stInvalidField, w)
  else w.scatter b cmd (List.replicate len 0) w.state.page

/-- Run one admin command, or hold it outstanding. -/
def World.admin (b : Board σ μ) (w : World σ μ) (cmd : Command) : Option Status × World σ μ :=
  let made (r : UInt16 × State) : Option Status × World σ μ :=
    (some (r.1, 0), { w with state := r.2 })
  let reply (r : UInt16 × World σ μ) : Option Status × World σ μ := (some (r.1, 0), r.2)
  if cmd.opcode = adminCreateCq then made (w.state.createCq b.params w.state.page cmd)
  else if cmd.opcode = adminCreateSq then made (w.state.createSq b.params w.state.page cmd)
  else if cmd.opcode = adminDeleteCq then made (w.state.deleteCq cmd)
  else if cmd.opcode = adminDeleteSq then made (w.state.deleteSq cmd)
  else if cmd.opcode = adminIdentify then reply (w.identify b cmd)
  else if cmd.opcode = adminSetFeatures then (some (b.params.features cmd), w)
  else if cmd.opcode = adminGetFeatures then (some (b.params.features cmd), w)
  else if cmd.opcode = adminGetLogPage then reply (w.getLogPage b cmd)
  -- nothing is ever in flight long enough to abort
  else if cmd.opcode = adminAbort then (some (stSuccess, 1), w)
  else if cmd.opcode = adminAsyncEvent then
    let held := w.state.asyncEvent
    (held.1.map fun status => (status, 0), { w with state := held.2 })
  else (some (stInvalidOpcode, 0), w)

def completion (job : Job) (phase : Bool) (cid status : UInt16) (dw0 : UInt32) : Bytes :=
  leBytes 4 dw0.toNat ++ (leBytes 4 0 ++ (leBytes 4 (job.sqhd % 2 ^ 16 + job.sqid.val * 2 ^ 16) ++
    leBytes 4 (cid.toUInt32 ||| (if phase then 0x10000 else 0) |||
      status.toUInt32 <<< (17 : UInt32)).toNat))

/-- A completion written and its slot taken. -/
def World.complete (b : Board σ μ) (w : World σ μ) (job : Job) (cid : UInt16) (done : Status) :
    World σ μ :=
  match w.state.place job.cqid with
  | none => w
  | some placed =>
    let written := { w with state := placed.2 }.writeGuest b placed.1.1
      (completion job placed.1.2 cid done.1 done.2)
    if written.1 then written.2 else written.2.fatal

/-- Fetch one command, run it, and post its completion. A queue that cannot be read is fatal. -/
def World.execute (b : Board σ μ) (w : World σ μ) (job : Job) : World σ μ :=
  match b.guest.read w.guest job.addr sqeLen with
  | none => w.fatal
  | some raw =>
    let cmd := Command.parse raw
    let done := if job.sqid = adminSlot then w.admin b cmd else w.nvm b cmd
    match done.1 with
    | none => done.2
    | some status => done.2.complete b job cmd.cid status

def World.drain (b : Board σ μ) : Nat → World σ μ → World σ μ
  | 0, w => w
  | budget + 1, w =>
    match w.state.nextJob with
    | none => w
    | some next => World.drain b budget ({ w with state := next.2 }.execute b next.1)

/-- Run every command that is there, if the function may master the bus. Nothing else rings a
doorbell in between, so what is left after the budget waits for the next one. -/
def World.run (b : Board σ μ) (w : World σ μ) : World σ μ :=
  if w.master then w.drain b maxCommandsPerRun else w

/-- **A register write by the host.** -/
def World.hostWrite (b : Board σ μ) (w : World σ μ) (offset : Nat) (value : UInt32) : World σ μ :=
  w.writeDword b (World.run b) offset value

end

end Rsemu.Nvme
