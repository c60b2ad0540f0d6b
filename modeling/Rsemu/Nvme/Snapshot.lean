import Mathlib.Data.Fin.Tuple.Basic
import Rsemu.State.Wire
import Rsemu.Nvme.Registers

/-!
# The controller in a snapshot

The register file and the queue descriptors, field by field. Loading checks every descriptor,
and that each submission queue's completion queue is there; a chunk that it refuses changes
nothing. `readRecords` is the chunk as it stands, with nothing checked.
-/

namespace Rsemu.Nvme

open Codec (Bytes Reader Reads readLe fail reads_readLe bind_ok pure_ok readLe_ok)
open Rsemu.State (writeU8 writeU16 writeU32 writeU64 reads_u8 reads_u16 reads_u32 reads_u64)

/-- Why a snapshot is refused. -/
inductive LoadError where
  | truncated (need remain : Nat)
  | notBool (byte : Nat)
  | queue (what : String)

/-- A reader of a snapshot. -/
abbrev Loader (α : Type) := Reader LoadError α

def readU16 : Loader Nat := readLe .truncated 2
def readU32 : Loader Nat := readLe .truncated 4
def readU64 : Loader Nat := readLe .truncated 8

def readBool : Loader Bool := do
  let byte ← readLe .truncated 1
  if byte = 0 then pure false else if byte = 1 then pure true else fail (.notBool byte)

def writeBool (b : Bool) : Bytes := writeU8 b.toNat

def SubQueue.save (sq : SubQueue) : Bytes :=
  writeU64 sq.base ++ (writeU32 sq.entries ++ (writeU32 sq.head ++
    (writeU32 sq.tail ++ writeU16 sq.cqid)))

def CompQueue.save (cq : CompQueue) : Bytes :=
  writeU64 cq.base ++ (writeU32 cq.entries ++ (writeU32 cq.head ++ (writeU32 cq.tail ++
    (writeU16 cq.vector ++ (writeBool cq.phase ++ writeBool cq.interrupts)))))

def saveSlot {α : Type} (save : α → Bytes) : Option α → Bytes
  | some q => writeBool true ++ save q
  | none => writeBool false

def saveEach {α : Type} (save : α → Bytes) {n : Nat} (q : Fin n → α) : Bytes :=
  (List.finRange n).flatMap fun i => save (q i)

def State.saveRegisters (s : State) : Bytes :=
  writeU32 s.cc.toNat ++ (writeU32 s.csts.toNat ++ (writeU32 s.intms.toNat ++
    (writeU32 s.aqa.toNat ++ (writeU64 s.asq.toNat ++ (writeU64 s.acq.toNat ++
      writeU32 s.aer)))))

/-- **The register file and the queue descriptors.** -/
def State.save (s : State) : Bytes :=
  s.saveRegisters ++ (saveEach (saveSlot SubQueue.save) s.sq ++
    saveEach (saveSlot CompQueue.save) s.cq)

/-- A submission queue that a controller could have built. -/
def SubQueue.Sound (sq : SubQueue) : Prop :=
  2 ≤ sq.entries ∧ sq.entries ≤ maxAdminEntries ∧ sq.head < sq.entries ∧ sq.tail < sq.entries ∧
    sq.cqid < queueSlots

instance (sq : SubQueue) : Decidable sq.Sound :=
  inferInstanceAs (Decidable (_ ∧ _ ∧ _ ∧ _ ∧ _))

/-- A completion queue that a controller could have built. -/
def CompQueue.Sound (cq : CompQueue) : Prop :=
  2 ≤ cq.entries ∧ cq.entries ≤ maxAdminEntries ∧ cq.head < cq.entries ∧ cq.tail < cq.entries ∧
    cq.vector < 32

instance (cq : CompQueue) : Decidable cq.Sound :=
  inferInstanceAs (Decidable (_ ∧ _ ∧ _ ∧ _ ∧ _))

def subQueueRecord : Loader SubQueue := do
  let base ← readU64
  let entries ← readU32
  let head ← readU32
  let tail ← readU32
  let cqid ← readU16
  pure ⟨base, entries, head, tail, cqid⟩

/-- The fields of a completion queue. -/
def compQueueRecord : Loader CompQueue := do
  let base ← readU64
  let entries ← readU32
  let head ← readU32
  let tail ← readU32
  let vector ← readU16
  let phase ← readBool
  let interrupts ← readBool
  pure ⟨base, entries, head, tail, phase, vector, interrupts⟩

/-- What is read, if it is such as a controller could have built. -/
def checked {α : Type} (p : Loader α) (ok : α → Prop) [DecidablePred ok] (what : String) :
    Loader α := do
  let a ← p
  if ok a then pure a else fail (.queue what)

def readSubQueue : Loader SubQueue :=
  checked subQueueRecord SubQueue.Sound "a submission queue no controller could have built"

def readCompQueue : Loader CompQueue :=
  checked compQueueRecord CompQueue.Sound "a completion queue no controller could have built"

def readSlot {α : Type} (p : Loader α) : Loader (Option α) := do
  let there ← readBool
  if there then do
    let q ← p
    pure (some q)
  else pure none

def readEach {α : Type} (p : Loader α) : (n : Nat) → Loader (Fin n → α)
  | 0 => pure Fin.elim0
  | n + 1 => do
    let first ← p
    let rest ← readEach p n
    pure (Fin.cons first rest)

/-- The registers, in a state that has no queues yet. -/
def readRegisters : Loader State := do
  let cc ← readU32
  let csts ← readU32
  let intms ← readU32
  let aqa ← readU32
  let asq ← readU64
  let acq ← readU64
  let aer ← readU32
  pure { State.new with
    cc := UInt32.ofNat cc &&& ccMask
    csts := UInt32.ofNat csts &&& 0x3f
    intms := UInt32.ofNat intms
    aqa := UInt32.ofNat aqa &&& aqaMask
    asq := UInt64.ofNat asq
    acq := UInt64.ofNat acq
    aer := min aer aerLimit }

/-- Every submission queue names a completion queue that exists. -/
def State.Linked (s : State) : Prop := ∀ qid, ∀ sq ∈ s.sq qid, (s.cq? sq.cqid).isSome

instance (s : State) : Decidable s.Linked :=
  inferInstanceAs (Decidable (∀ qid, ∀ sq ∈ s.sq qid, (s.cq? sq.cqid).isSome))

def readQueues (sub : Loader SubQueue) (comp : Loader CompQueue) : Loader State := do
  let s ← readRegisters
  let sq ← readEach (readSlot sub) queueSlots
  let cq ← readEach (readSlot comp) queueSlots
  pure { s with sq := sq, cq := cq }

def readState : Loader State :=
  checked (readQueues readSubQueue readCompQueue) State.Linked
    "a submission queue names a completion queue that is not there"

def readRecords : Loader State := readQueues subQueueRecord compQueueRecord

/-- **Restore what a chunk says**, or change nothing. The rest of the bytes is left. -/
def State.load (s : State) (bytes : Bytes) : Except LoadError Bytes × State :=
  match readState bytes with
  | .error e => (.error e, s)
  | .ok read => (.ok read.2, read.1)

variable {rest src : Bytes} {α : Type}

variable {p : Loader α}

theorem checked_ok {ok : α → Prop} [DecidablePred ok] {what : String} {a : α}
    (h : checked p ok what src = .ok (a, rest)) : p src = .ok (a, rest) ∧ ok a := by
  obtain ⟨b, mid, hp, hok⟩ := bind_ok h
  split at hok
  · obtain ⟨rfl, rfl⟩ := pure_ok hok
    exact ⟨hp, ‹_›⟩
  · cases hok

theorem run_bind_ok {β : Type} {p' : Loader α} {f f' : α → Loader β} {b : β} {P : β → Prop}
    (h : (p >>= f) src = .ok (b, rest))
    (hp : ∀ a mid, p src = .ok (a, mid) → p' src = .ok (a, mid) ∧
      (f a mid = .ok (b, rest) → f' a mid = .ok (b, rest) ∧ P b)) :
    (p' >>= f') src = .ok (b, rest) ∧ P b := by
  obtain ⟨a, mid, ha, hb⟩ := bind_ok h
  obtain ⟨ha', hf⟩ := hp a mid ha
  obtain ⟨hb', hP⟩ := hf hb
  exact ⟨(Codec.run_bind ha' f').trans hb', hP⟩

theorem readSlot_ok {p' : Loader α} {P : α → Prop}
    (hp : ∀ src a rest, p src = .ok (a, rest) → p' src = .ok (a, rest) ∧ P a) {q : Option α}
    (h : readSlot p src = .ok (q, rest)) : readSlot p' src = .ok (q, rest) ∧ ∀ a ∈ q, P a := by
  refine run_bind_ok (P := fun q => ∀ a ∈ q, P a) h fun there mid hthere => ⟨hthere, fun hrest => ?_⟩
  cases there with
  | false =>
    obtain ⟨rfl, rfl⟩ := pure_ok hrest
    exact ⟨rfl, fun a ha => nomatch ha⟩
  | true =>
    refine run_bind_ok (P := fun q => ∀ a ∈ q, P a) hrest fun a mid' ha =>
      ⟨(hp _ _ _ ha).1, fun hpure => ?_⟩
    obtain ⟨rfl, rfl⟩ := pure_ok hpure
    exact ⟨rfl, fun b hb => by cases hb; exact (hp _ _ _ ha).2⟩

theorem readEach_ok {p' : Loader α} {P : α → Prop}
    (hp : ∀ src a rest, p src = .ok (a, rest) → p' src = .ok (a, rest) ∧ P a) {n : Nat}
    {q : Fin n → α} (h : readEach p n src = .ok (q, rest)) :
    readEach p' n src = .ok (q, rest) ∧ ∀ i, P (q i) := by
  induction n generalizing src rest with
  | zero =>
    obtain ⟨rfl, rfl⟩ := pure_ok h
    exact ⟨rfl, fun i => i.elim0⟩
  | succ n ih =>
    refine run_bind_ok (P := fun q => ∀ i, P (q i)) h fun first mid hfirst =>
      ⟨(hp _ _ _ hfirst).1, fun hrest => ?_⟩
    refine run_bind_ok (P := fun q => ∀ i, P (q i)) hrest fun tail mid' htail =>
      ⟨(ih htail).1, fun hpure => ?_⟩
    obtain ⟨rfl, rfl⟩ := pure_ok hpure
    refine ⟨rfl, fun i => ?_⟩
    cases i using Fin.cases with
    | zero => exact (hp _ _ _ hfirst).2
    | succ i => exact (ih htail).2 i

theorem subQueueRecord_base {sq : SubQueue} (h : subQueueRecord src = .ok (sq, rest)) :
    sq.base < 2 ^ 64 := by
  obtain ⟨base, mid, hbase, h⟩ := bind_ok h
  obtain ⟨_, _, -, h⟩ := bind_ok h
  obtain ⟨_, _, -, h⟩ := bind_ok h
  obtain ⟨_, _, -, h⟩ := bind_ok h
  obtain ⟨_, _, -, h⟩ := bind_ok h
  obtain ⟨rfl, rfl⟩ := pure_ok h
  exact (readLe_ok hbase).2

theorem compQueueRecord_base {cq : CompQueue} (h : compQueueRecord src = .ok (cq, rest)) :
    cq.base < 2 ^ 64 := by
  obtain ⟨base, mid, hbase, h⟩ := bind_ok h
  obtain ⟨_, _, -, h⟩ := bind_ok h
  obtain ⟨_, _, -, h⟩ := bind_ok h
  obtain ⟨_, _, -, h⟩ := bind_ok h
  obtain ⟨_, _, -, h⟩ := bind_ok h
  obtain ⟨_, _, -, h⟩ := bind_ok h
  obtain ⟨_, _, -, h⟩ := bind_ok h
  obtain ⟨rfl, rfl⟩ := pure_ok h
  exact (readLe_ok hbase).2

theorem readRegisters_ok {s : State} (h : readRegisters src = .ok (s, rest)) :
    s.cc &&& ccMask = s.cc ∧ s.csts &&& 0x3f = s.csts ∧ s.aqa &&& aqaMask = s.aqa ∧
      s.aer ≤ aerLimit := by
  obtain ⟨cc, _, -, h⟩ := bind_ok h
  obtain ⟨csts, _, -, h⟩ := bind_ok h
  obtain ⟨_, _, -, h⟩ := bind_ok h
  obtain ⟨aqa, _, -, h⟩ := bind_ok h
  obtain ⟨_, _, -, h⟩ := bind_ok h
  obtain ⟨_, _, -, h⟩ := bind_ok h
  obtain ⟨aer, _, -, h⟩ := bind_ok h
  obtain ⟨rfl, rfl⟩ := pure_ok h
  exact ⟨masked_self _ _, masked_self _ _, masked_self _ _, Nat.min_le_right _ _⟩

theorem reads_bool (b : Bool) : Reads readBool (writeBool b) b := by
  cases b with
  | false => exact Reads.bind (reads_u8 (v := 0) (by decide)) (Reads.pure false)
  | true => exact Reads.bind (reads_u8 (v := 1) (by decide)) (Reads.pure true)

theorem Reads.checked {ok : α → Prop} [DecidablePred ok] {bs : Bytes} {a : α} (h : Reads p bs a)
    (hok : ok a) (what : String) : Reads (Nvme.checked p ok what) bs a := by
  have hread : Reads (Nvme.checked p ok what) (bs ++ []) a := by
    refine h.bind ?_
    rw [if_pos hok]
    exact Reads.pure a
  rwa [List.append_nil] at hread

theorem SubQueue.Sound.reads {sq : SubQueue} (h : sq.Sound) (hbase : sq.base < 2 ^ 64) :
    Reads readSubQueue sq.save sq := by
  have hall := h
  obtain ⟨hleast, hmost, hhead, htail, hcqid⟩ := h
  rw [maxAdminEntries] at hmost
  rw [queueSlots] at hcqid
  refine Reads.checked ?_ hall _
  refine (reads_u64 hbase).bind ((reads_u32 (by omega)).bind ((reads_u32 (by omega)).bind
    ((reads_u32 (by omega)).bind ?_)))
  exact (reads_u16 (by omega)).map fun cqid =>
    SubQueue.mk sq.base sq.entries sq.head sq.tail cqid

theorem CompQueue.Sound.reads {cq : CompQueue} (h : cq.Sound) (hbase : cq.base < 2 ^ 64) :
    Reads readCompQueue cq.save cq := by
  have hall := h
  obtain ⟨hleast, hmost, hhead, htail, hvector⟩ := h
  rw [maxAdminEntries] at hmost
  refine Reads.checked ?_ hall _
  refine (reads_u64 hbase).bind ((reads_u32 (by omega)).bind ((reads_u32 (by omega)).bind
    ((reads_u32 (by omega)).bind ((reads_u16 (by omega)).bind ((reads_bool _).bind ?_)))))
  exact (reads_bool _).map fun interrupts =>
    CompQueue.mk cq.base cq.entries cq.head cq.tail cq.phase cq.vector interrupts

theorem reads_slot {save : α → Bytes} {q : Option α} (h : ∀ a ∈ q, Reads p (save a) a) :
    Reads (readSlot p) (saveSlot save q) q := by
  cases q with
  | none =>
    have hread : Reads (readSlot p) (writeBool false ++ []) none :=
      Reads.bind (reads_bool false) (Reads.pure none)
    rwa [List.append_nil] at hread
  | some a => exact (reads_bool true).bind ((h a rfl).map some)

theorem reads_each {save : α → Bytes} {n : Nat} {q : Fin n → α}
    (h : ∀ i, Reads p (save (q i)) (q i)) : Reads (readEach p n) (saveEach save q) q := by
  induction n with
  | zero =>
    have hq : q = Fin.elim0 := funext fun i => i.elim0
    rw [hq]
    exact Reads.pure _
  | succ n ih =>
    have hsave : saveEach save q = save (q 0) ++ saveEach save fun i => q i.succ := by
      unfold saveEach
      rw [List.finRange_succ, List.flatMap_cons, List.flatMap_map]
    have hrest := (ih (q := fun i => q i.succ) fun i => h i.succ).map fun rest =>
      (Fin.cons (q 0) rest : Fin (n + 1) → α)
    have hq : (Fin.cons (q 0) fun i => q i.succ : Fin (n + 1) → α) = q := Fin.cons_self_tail q
    rw [hq] at hrest
    rw [hsave]
    exact (h 0).bind hrest

end Rsemu.Nvme
