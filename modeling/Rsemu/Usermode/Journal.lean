import Rsemu.Clock.Nanos
import Rsemu.Record.Canonical
import Rsemu.Usermode.Threads

/-!
# The journal

Every answer from outside the machine comes through `Journal.ask`: a run is live, or is
recorded, or takes its answers from what was recorded. A journal is written as a recording is,
header, tagged entries, end marker; `save` puts the cursor in front, which is part of a run in
progress and of no recording.

`run_within` keeps the cursor inside the log whatever is asked, so what is saved is loaded again
(`load_save`); and whatever `decode` accepts is what `encode` writes (`decode_ok`).
-/

namespace Rsemu.Usermode

open Codec
open State (StateError readU8 readU32 readU64 readU128 readBytes writeU8 writeU32 writeU64 writeU128
  writeBytes)

/-- What a journal does with the host's answers. -/
inductive JournalMode where
  /-- Ask the host and keep nothing. -/
  | live
  /-- Ask the host and write the answer down. -/
  | record
  /-- Do not ask the host; take the answer from what was written down. -/
  | replay
deriving DecidableEq

/-- What the host answered. -/
structure Answer where
  value : UInt64
  bytes : Bytes

/-- An answer, when it was given and to what. -/
structure Logged where
  at_ : GlobalTime
  tag : UInt32
  answer : Answer

/-- The journal's state. -/
structure Journal where
  mode : JournalMode
  entries : List Logged
  cursor : Nat

/-- Why a journal is refused, or cannot answer. -/
inductive JournalError where
  | state (e : StateError)
  | ended (cursor : Nat) (tag : UInt32) (at_ : GlobalTime)
  | otherTag (cursor : Nat) (recorded asked : UInt32)
  | otherInstant (cursor : Nat) (recorded asked : GlobalTime)
  | notJournal (found : Bytes)
  | format (found : Nat)
  | unknownTag (tag : Nat)
  | trailing (left : Nat)
  | cursorPastEnd (cursor len : Nat)

def fromRaw (raw : Nat) : GlobalTime := ⟨raw % 2 ^ 128, Nat.mod_lt _ (Nat.two_pow_pos 128)⟩

@[simp] theorem fromRaw_val (at_ : GlobalTime) : fromRaw at_.val = at_ :=
  Fin.ext (Nat.mod_eq_of_lt at_.isLt)

namespace Journal

def magic : Bytes := [0x52, 0x53, 0x45, 0x4d, 0x55, 0x4a, 0x52, 0x4e]

def journalFormatVersion : Nat := 1

def tagAnswer : Nat := 1

def tagEnd : Nat := 0

end Journal

namespace Journal

def withMode (mode : JournalMode) : Journal := ⟨mode, [], 0⟩

def new : Journal := withMode .live

def setMode (j : Journal) (mode : JournalMode) : Journal :=
  { j with mode := mode, cursor := if mode = .replay then 0 else j.cursor }

def clear (j : Journal) : Journal := { j with entries := [], cursor := 0 }

/-- Obtain an external answer; `answer` is what the host would say. -/
def ask (j : Journal) (at_ : GlobalTime) (tag : UInt32) (answer : Answer) :
    Except JournalError Answer × Journal :=
  match j.mode with
  | .live => (.ok answer, j)
  | .record => (.ok answer, { j with entries := j.entries ++ [⟨at_, tag, answer⟩] })
  | .replay =>
    match j.entries[j.cursor]? with
    | none => (.error (.ended j.cursor tag at_), j)
    | some entry =>
      if entry.tag ≠ tag then (.error (.otherTag j.cursor entry.tag tag), j)
      else if entry.at_ ≠ at_ then (.error (.otherInstant j.cursor entry.at_ at_), j)
      else (.ok entry.answer, { j with cursor := j.cursor + 1 })

def encodeEntry (e : Logged) : Bytes :=
  writeU8 tagAnswer ++ (writeU128 e.at_.val ++ (writeU32 e.tag.toNat ++
    (writeU64 e.answer.value.toNat ++ writeBytes e.answer.bytes)))

def entryBytes (es : List Logged) : Bytes := es.flatMap encodeEntry ++ writeU8 tagEnd

def encode (j : Journal) : Bytes :=
  magic ++ (writeU32 journalFormatVersion ++ entryBytes j.entries)

def lift {α : Type} (p : State.Source α) : Reader JournalError α := mapError .state p

section

variable (ptr : Nat)

def readEntry : Reader JournalError Logged := do
  let at_ ← lift readU128
  let tag ← lift readU32
  let value ← lift readU64
  let bytes ← lift (readBytes ptr)
  pure ⟨fromRaw at_, UInt32.ofNat tag, ⟨UInt64.ofNat value, bytes⟩⟩

/-- The entries, up to the end marker. Every turn reads a byte, so `fuel` bytes are enough. -/
def readEntries : Nat → List Logged → Reader JournalError (List Logged)
  | 0, _ => fail (.state (.truncated 1 0))
  | fuel + 1, entries => do
    let tag ← lift readU8
    if tag = tagEnd then pure entries
    else if tag = tagAnswer then do
      let e ← readEntry ptr
      readEntries fuel (entries ++ [e])
    else fail (.unknownTag tag)

def readHeader : Reader JournalError Unit := do
  let found ← lift (State.take magic.length)
  refuse (found != magic) (.notJournal found)
  let format ← lift readU32
  refuse (format != journalFormatVersion) (.format format)

def readBody : Reader JournalError (List Logged) := do
  let fuel ← remaining
  let entries ← readEntries ptr (fuel + 1) []
  let left ← remaining
  refuse (left != 0) (.trailing left)
  pure entries

def fromSource : Reader JournalError Journal := do
  readHeader
  let entries ← readBody ptr
  pure { new with entries := entries }

def decode (bytes : Bytes) : Except JournalError Journal := (fromSource ptr bytes).map (·.1)

end

def save (j : Journal) : Bytes := writeU64 j.cursor ++ writeBytes j.encode

/-- Read a log and its cursor back, replacing whatever this one holds. -/
def load (ptr : Nat) (j : Journal) : Reader JournalError Journal := do
  let cursor ← lift readU64
  let cursor := cursor % 2 ^ ptr
  let encoded ← lift (readBytes ptr)
  match decode ptr encoded with
  | .error e => fail e
  | .ok decoded =>
    if decoded.entries.length < cursor then fail (.cursorPastEnd cursor decoded.entries.length)
    else pure { j with entries := decoded.entries, cursor := cursor }

section

variable {ptr : Nat}

theorem reads_lift {α : Type} {p : State.Source α} {bs : Bytes} {a : α} (h : Reads p bs a) :
    Reads (lift p) bs a :=
  h.mapError JournalError.state

theorem reads_entry (hptr : ptr ≤ 64) {e : Logged} (h : (encodeEntry e).length < 2 ^ ptr) :
    Reads (readEntry ptr) (writeU128 e.at_.val ++ (writeU32 e.tag.toNat ++
      (writeU64 e.answer.value.toNat ++ writeBytes e.answer.bytes))) e := by
  simp only [encodeEntry, List.length_append, writeBytes] at h
  refine Reads.bind (reads_lift (State.reads_u128 e.at_.isLt)) ?_
  refine Reads.bind (reads_lift (State.reads_u32 e.tag.toNat_lt)) ?_
  refine Reads.bind (reads_lift (State.reads_u64 e.answer.value.toNat_lt)) ?_
  simp only [fromRaw_val, UInt32.ofNat_toNat, UInt64.ofNat_toNat]
  exact (reads_lift (@State.reads_bytes ptr hptr e.answer.bytes (by omega))).map fun bytes =>
    (⟨e.at_, e.tag, ⟨e.answer.value, bytes⟩⟩ : Logged)

theorem reads_entries (hptr : ptr ≤ 64) {es entries : List Logged} {fuel : Nat}
    (hfuel : es.length < fuel) (hfit : ∀ e ∈ es, (encodeEntry e).length < 2 ^ ptr) :
    Reads (readEntries ptr fuel entries) (entryBytes es) (entries ++ es) := by
  induction es generalizing fuel entries with
  | nil =>
    obtain ⟨n, rfl⟩ : ∃ n, fuel = n + 1 := ⟨fuel - 1, by omega⟩
    have hend := Reads.bind (p := lift readU8)
      (reads_lift (State.reads_u8 (v := tagEnd) (by decide))) (f := fun tag =>
      if tag = tagEnd then pure entries
      else if tag = tagAnswer then do
        let e ← readEntry ptr
        readEntries ptr n (entries ++ [e])
      else fail (.unknownTag tag)) (Reads.pure entries)
    rw [List.append_nil]
    exact hend
  | cons e es ih =>
    obtain ⟨n, rfl⟩ : ∃ n, fuel = n + 1 := ⟨fuel - 1, by omega⟩
    obtain ⟨he, hes⟩ := List.forall_mem_cons.mp hfit
    have hrest := @ih (entries ++ [e]) n (by simpa using hfuel) hes
    have hbody := Reads.bind (reads_entry hptr he) (f := fun e =>
      readEntries ptr n (entries ++ [e])) hrest
    have htag := Reads.bind (p := lift readU8)
      (reads_lift (State.reads_u8 (v := tagAnswer) (by decide)))
      (f := fun tag =>
        if tag = tagEnd then pure entries
        else if tag = tagAnswer then do
          let e ← readEntry ptr
          readEntries ptr n (entries ++ [e])
        else fail (.unknownTag tag)) hbody
    have hbytes : entryBytes (e :: es) = writeU8 tagAnswer ++ ((writeU128 e.at_.val ++
        (writeU32 e.tag.toNat ++ (writeU64 e.answer.value.toNat ++ writeBytes e.answer.bytes))) ++
          entryBytes es) := by
      simp only [entryBytes, encodeEntry, List.flatMap_cons, List.append_assoc]
    rw [hbytes, List.append_cons]
    exact htag

theorem length_le_entryBytes (es : List Logged) : es.length ≤ (entryBytes es).length := by
  induction es with
  | nil => exact Nat.zero_le _
  | cons e es ih =>
    simp only [entryBytes, encodeEntry, List.flatMap_cons, List.length_append, List.length_cons,
      writeU8, length_leBytes] at ih ⊢
    omega

theorem reads_header : Reads readHeader (magic ++ writeU32 journalFormatVersion) () := by
  have hmagic : Reads (lift (State.take magic.length)) magic magic := reads_lift (reads_take _ magic)
  have hlast : Reads (do
      let format ← lift readU32
      refuse (format != journalFormatVersion) (.format format))
      (writeU32 journalFormatVersion ++ []) () :=
    Reads.bind (reads_lift (State.reads_u32 (by decide))) (reads_refuse _)
  exact Reads.bind hmagic (Reads.skip (reads_refuse _) hlast)

theorem decode_encode (hptr : ptr ≤ 64) {j : Journal} (h : j.encode.length < 2 ^ ptr) :
    decode ptr j.encode = .ok { new with entries := j.entries } := by
  have hlen : (entryBytes j.entries).length < 2 ^ ptr := by
    simp only [encode, List.length_append] at h
    omega
  have hfit : ∀ e ∈ j.entries, (encodeEntry e).length < 2 ^ ptr := by
    intro e he
    have := State.length_le_flatMap (f := encodeEntry) he
    rw [entryBytes, List.length_append] at hlen
    omega
  have hentries := @reads_entries ptr hptr j.entries [] ((entryBytes j.entries).length + 1)
    (Nat.lt_succ_of_le (length_le_entryBytes _)) hfit []
  rw [List.append_nil, List.nil_append] at hentries
  have hbody : readBody ptr (entryBytes j.entries) = .ok (j.entries, []) := by
    simp only [readBody, remaining, bind, StateT.bind, Except.bind, hentries]
    rfl
  have hsource : fromSource ptr j.encode = .ok ({ new with entries := j.entries }, []) := by
    rw [encode, ← List.append_assoc, fromSource, reads_header.run_bind]
    simp only [bind, StateT.bind, Except.bind, hbody]
    rfl
  rw [decode, hsource]
  rfl

variable {src : Bytes}

theorem lift_ok {α : Type} {p : State.Source α} {rest : Bytes} {a : α}
    (h : lift p src = .ok (a, rest)) : p src = .ok (a, rest) := mapError_ok h

theorem readEntry_ok {rest : Bytes} {e : Logged} (h : readEntry ptr src = .ok (e, rest)) :
    writeU8 tagAnswer ++ src = encodeEntry e ++ rest := by
  obtain ⟨at_, mid, hat, h⟩ := bind_ok h
  obtain ⟨tag, mid₁, htag, h⟩ := bind_ok h
  obtain ⟨value, mid₂, hvalue, h⟩ := bind_ok h
  obtain ⟨bytes, mid₃, hbytes, h⟩ := bind_ok h
  obtain ⟨rfl, rfl⟩ := pure_ok h
  obtain ⟨hat, hatLt⟩ := readLe_ok (lift_ok hat)
  obtain ⟨htag, htagLt⟩ := State.readU32_ok (lift_ok htag)
  obtain ⟨hvalue, hvalueLt⟩ := State.readU64_ok (lift_ok hvalue)
  have hatVal : (fromRaw at_).val = at_ := Nat.mod_eq_of_lt hatLt
  rw [hat, htag, hvalue, State.readBytes_ok (lift_ok hbytes)]
  simp only [encodeEntry, hatVal, UInt32.toNat_ofNat_of_lt' htagLt,
    UInt64.toNat_ofNat_of_lt' hvalueLt, List.append_assoc]
  rfl

theorem readEntries_ok {fuel : Nat} {entries got : List Logged} {rest : Bytes}
    (h : readEntries ptr fuel entries src = .ok (got, rest)) :
    ∃ es, got = entries ++ es ∧ src = entryBytes es ++ rest := by
  induction fuel generalizing entries src with
  | zero => cases h
  | succ fuel ih =>
    obtain ⟨tag, mid, htag, h⟩ := bind_ok h
    have hsrc := State.readU8_ok (lift_ok htag)
    split at h
    · rename_i hend
      obtain ⟨rfl, rfl⟩ := pure_ok h
      refine ⟨[], (List.append_nil _).symm, ?_⟩
      rw [hsrc, hend]
      rfl
    · split at h
      · rename_i hanswer
        obtain ⟨e, mid₁, he, hloop⟩ := bind_ok h
        obtain ⟨es, hgot, hrest⟩ := ih hloop
        refine ⟨e :: es, by rw [hgot, List.append_assoc, List.singleton_append], ?_⟩
        rw [hsrc, hanswer, readEntry_ok he, hrest, entryBytes, entryBytes, List.flatMap_cons]
        simp only [List.append_assoc]
      · cases h

theorem readHeader_ok {rest : Bytes} {u : Unit} (h : readHeader src = .ok (u, rest)) :
    src = magic ++ (writeU32 journalFormatVersion ++ rest) := by
  obtain ⟨found, mid, hfound, h⟩ := bind_ok h
  obtain ⟨_, mid₁, hmagic, h⟩ := bind_ok h
  obtain ⟨format, mid₂, hformat, hversion⟩ := bind_ok h
  obtain ⟨hm, rfl⟩ := refuse_ok hmagic
  obtain ⟨hv, rfl⟩ := refuse_ok hversion
  obtain rfl : found = magic := by simpa using hm
  obtain rfl : format = journalFormatVersion := by simpa using hv
  rw [(take_ok (lift_ok hfound)).1, (State.readU32_ok (lift_ok hformat)).1]

theorem decode_ok {bytes : Bytes} {j : Journal} (h : decode ptr bytes = .ok j) :
    j = { new with entries := j.entries } ∧ j.encode = bytes := by
  unfold decode at h
  cases hsource : fromSource ptr bytes with
  | error e =>
    rw [hsource] at h
    cases h
  | ok jr =>
    rw [hsource] at h
    obtain ⟨got, rest⟩ := jr
    obtain rfl : got = j := Except.ok.inj h
    obtain ⟨_, mid, hheader, h⟩ := bind_ok hsource
    obtain ⟨entries, mid₁, hbody, h⟩ := bind_ok h
    obtain ⟨rfl, rfl⟩ := pure_ok h
    obtain ⟨fuel, mid₂, hfuel, h⟩ := bind_ok hbody
    obtain ⟨_, mid₃, hentries, h⟩ := bind_ok h
    obtain ⟨left, mid₄, hleft, h⟩ := bind_ok h
    obtain ⟨_, mid₅, htrailing, h⟩ := bind_ok h
    obtain ⟨rfl, rfl⟩ := pure_ok h
    obtain ⟨ht, rfl⟩ := refuse_ok htrailing
    obtain ⟨rfl, rfl⟩ := remaining_ok hleft
    obtain ⟨-, rfl⟩ := remaining_ok hfuel
    obtain ⟨es, rfl, hes⟩ := readEntries_ok hentries
    have hnothing : rest = [] := by simpa using ht
    rw [hnothing, List.append_nil] at hes
    refine ⟨rfl, ?_⟩
    rw [readHeader_ok hheader, hes]
    rfl

theorem readEntries_enough {fuel fuel' : Nat} {entries : List Logged} (h : src.length < fuel)
    (h' : src.length < fuel') :
    readEntries ptr fuel entries src = readEntries ptr fuel' entries src := by
  induction fuel generalizing fuel' entries src with
  | zero => cases h
  | succ fuel ih =>
    obtain ⟨n, rfl⟩ : ∃ n, fuel' = n + 1 := ⟨fuel' - 1, by omega⟩
    refine run_bind_congr fun tag mid htag => ?_
    have hmid := congrArg List.length (State.readU8_ok (lift_ok htag))
    rw [writeU8, List.length_append, length_leBytes] at hmid
    split
    · rfl
    · split
      · refine run_bind_congr fun e mid₁ he => ?_
        have hshort := congrArg List.length (readEntry_ok he)
        simp only [encodeEntry, List.length_append] at hshort
        exact ih (by omega) (by omega)
      · rfl

theorem performing_lift {α : Type} {p : State.Source α} (h : Performing p) : Performing (lift p) :=
  h.mapError JournalError.state

theorem performing_fromSource : Performing (fromSource ptr) := by
  have hentry : Performing (readEntry ptr) :=
    (performing_lift (performing_readLe _ _)).bind fun _ =>
      (performing_lift (performing_readLe _ _)).bind fun _ =>
        (performing_lift (performing_readLe _ _)).bind fun _ =>
          (performing_lift State.performing_readBytes).bind fun _ => performing_pure _
  have hentries : ∀ fuel entries, Performing (readEntries ptr fuel entries) := by
    intro fuel
    induction fuel with
    | zero => exact fun entries => performing_fail _
    | succ fuel ih =>
      intro entries
      refine (performing_lift (performing_readLe _ _)).bind fun tag => ?_
      split
      · exact performing_pure _
      · split
        · exact hentry.bind fun e => ih _
        · exact performing_fail _
  have hheader : Performing readHeader :=
    (performing_lift (performing_take _ _)).bind fun _ => (performing_refuse _ _).bind fun _ =>
      (performing_lift (performing_readLe _ _)).bind fun _ => performing_refuse _ _
  have hbody : Performing (readBody ptr) :=
    performing_remaining.bind fun _ => (hentries _ _).bind fun _ => performing_remaining.bind fun _ =>
      (performing_refuse _ _).bind fun _ => performing_pure _
  exact hheader.bind fun _ => hbody.bind fun _ => performing_pure _

end

/-- What is done to a journal. An `ask` reads the mode, lets the lock go and calls the host: the
answer `landed` is one whose mode was `record` then, whatever the mode is by now. -/
inductive Op where
  | ask (at_ : GlobalTime) (tag : UInt32) (answer : Answer)
  | landed (at_ : GlobalTime) (tag : UInt32) (answer : Answer)
  | setMode (mode : JournalMode)
  | clear
  | load (ptr : Nat) (src : Bytes)

def on (j : Journal) : Op → Journal
  | .ask at_ tag answer => (j.ask at_ tag answer).2
  | .landed at_ tag answer => { j with entries := j.entries ++ [⟨at_, tag, answer⟩] }
  | .setMode mode => j.setMode mode
  | .clear => j.clear
  | .load ptr src => ((j.load ptr src).toOption.map (·.1)).getD j

def run (j : Journal) (ops : List Op) : Journal := ops.foldl on j

/-- How a journal comes to be. -/
inductive Made : Journal → Prop where
  | withMode (mode : JournalMode) : Made (withMode mode)
  | decode {ptr : Nat} {bytes : Bytes} {j : Journal} (h : decode ptr bytes = .ok j) : Made j

/-- **Replay has got somewhere in the log, or to its end.** -/
def Within (j : Journal) : Prop := j.cursor ≤ j.entries.length

variable {j : Journal}

theorem Made.within (h : Made j) : j.Within := by
  cases h with
  | withMode mode => exact Nat.le_refl 0
  | decode h =>
    rw [(decode_ok h).1]
    exact Nat.zero_le _

theorem Within.load {ptr : Nat} {j' : Journal} {src rest : Bytes}
    (h : j.load ptr src = .ok (j', rest)) : j'.Within := by
  obtain ⟨cursor, mid, _, h⟩ := bind_ok h
  obtain ⟨encoded, mid₁, _, h⟩ := bind_ok h
  cases hdecode : decode ptr encoded with
  | error e =>
    rw [hdecode] at h
    cases h
  | ok decoded =>
    rw [hdecode] at h
    dsimp only at h
    split at h
    · cases h
    · rename_i hle
      obtain ⟨rfl, -⟩ := pure_ok h
      exact Nat.le_of_not_lt hle

theorem Within.push (h : j.Within) (e : Logged) :
    Within { j with entries := j.entries ++ [e] } := by
  change j.cursor ≤ (j.entries ++ [e]).length
  rw [List.length_append]
  exact Nat.le_add_right_of_le h

theorem Within.on (h : j.Within) (op : Op) : (j.on op).Within := by
  cases op with
  | ask at_ tag answer =>
    change (j.ask at_ tag answer).2.Within
    unfold Journal.ask
    cases hmode : j.mode with
    | live => exact h
    | record => exact h.push _
    | replay =>
      cases hentry : j.entries[j.cursor]? with
      | none => exact h
      | some entry =>
        dsimp only
        split
        · exact h
        · split
          · exact h
          · exact (List.getElem?_eq_some_iff.mp hentry).1
  | landed at_ tag answer => exact h.push _
  | setMode mode =>
    change (if mode = .replay then 0 else j.cursor) ≤ j.entries.length
    split
    · exact Nat.zero_le _
    · exact h
  | clear => exact Nat.le_refl 0
  | load ptr src =>
    change (((j.load ptr src).toOption.map (·.1)).getD j).Within
    cases hload : j.load ptr src with
    | error e => exact h
    | ok jr =>
      exact Within.load hload

theorem run_within (h : j.Within) (ops : List Op) : (j.run ops).Within := by
  induction ops generalizing j with
  | nil => exact h
  | cons op ops ih => exact ih (h.on op)

theorem load_save {ptr : Nat} (hptr : ptr ≤ 64) (hwithin : j.Within)
    (hsize : j.save.length < 2 ^ ptr) (into : Journal) :
    Reads (load ptr into) j.save { into with entries := j.entries, cursor := j.cursor } := by
  have hentries := length_le_entryBytes j.entries
  have hlen : (writeU64 j.encode.length).length + j.encode.length < 2 ^ ptr ∧
      j.entries.length ≤ j.encode.length := by
    simp only [save, encode, writeBytes, List.length_append] at hsize ⊢
    omega
  have hcursor : j.cursor < 2 ^ ptr := by
    have : j.cursor ≤ j.entries.length := hwithin
    omega
  have h64 : j.cursor < 2 ^ 64 := Nat.lt_of_lt_of_le hcursor (Nat.pow_le_pow_right (by decide) hptr)
  refine Reads.bind (reads_lift (State.reads_u64 h64)) ?_
  rw [Nat.mod_eq_of_lt hcursor]
  have hbytes := reads_lift (@State.reads_bytes ptr hptr j.encode (by omega))
  have hdone : Reads (match decode ptr j.encode with
      | .error e => fail e
      | .ok decoded =>
        if decoded.entries.length < j.cursor then
          fail (.cursorPastEnd j.cursor decoded.entries.length)
        else pure { into with entries := decoded.entries, cursor := j.cursor }) []
      { into with entries := j.entries, cursor := j.cursor } := by
    rw [decode_encode hptr (by omega)]
    dsimp only
    rw [if_neg (Nat.not_lt.mpr hwithin)]
    exact Reads.pure _
  have hall := Reads.bind hbytes (f := fun encoded => match decode ptr encoded with
      | .error e => fail e
      | .ok decoded =>
        if decoded.entries.length < j.cursor then
          fail (.cursorPastEnd j.cursor decoded.entries.length)
        else pure { into with entries := decoded.entries, cursor := j.cursor }) hdone
  rw [List.append_nil] at hall
  exact hall

theorem load_save_run {ptr : Nat} (hptr : ptr ≤ 64) (hmade : Made j) (ops : List Op)
    (hsize : (j.run ops).save.length < 2 ^ ptr) (into : Journal) :
    Reads (load ptr into) (j.run ops).save
      { into with entries := (j.run ops).entries, cursor := (j.run ops).cursor } :=
  load_save hptr (run_within hmade.within ops) hsize into

end Journal

open Record (InputLog InputEvent)
open State (MachineShape)

/-- The two formats, each read and written both ways, in an address space of `ptr` bits: a byte
string is no longer than its pointers count. -/
structure TracesBijective (ptr : Nat) : Prop where
  /-- A log that pushes built is encoded, and read back. -/
  log_read : ∀ (shape : MachineShape) (es : List InputEvent), (∀ e ∈ es, e.at_ < 2 ^ 128) →
    ∃ bytes, ((InputLog.forShape shape).pushAll es).encode = .ok bytes ∧
      (bytes.length < 2 ^ ptr →
        InputLog.decode ptr bytes = .ok ((InputLog.forShape shape).pushAll es))
  log_written : ∀ (bytes : Bytes) (log : InputLog), InputLog.decode ptr bytes = .ok log →
    log.encode = .ok bytes
  journal_read : ∀ j : Journal, j.encode.length < 2 ^ ptr →
    Journal.decode ptr j.encode = .ok { Journal.new with entries := j.entries }
  journal_written : ∀ (bytes : Bytes) (j : Journal), Journal.decode ptr bytes = .ok j →
    j = { Journal.new with entries := j.entries } ∧ j.encode = bytes
  /-- Of whatever was done to a journal, into whatever journal, and with nothing read beyond. -/
  journal_loaded : ∀ (j : Journal) (ops : List Journal.Op) (into : Journal) (rest : Bytes),
    Journal.Made j → (j.run ops).save.length < 2 ^ ptr →
      into.load ptr ((j.run ops).save ++ rest) =
        .ok ({ into with entries := (j.run ops).entries, cursor := (j.run ops).cursor }, rest)
  /-- Every byte string is answered, and no read is carried out that was not checked. -/
  log_answers : ∀ src, ∃ reads, Performs (InputLog.fromSource ptr) src reads
    (InputLog.fromSource ptr src) ∧ ∀ x ∈ reads, x.1 ≤ x.2
  journal_answers : ∀ src, ∃ reads, Performs (Journal.fromSource ptr) src reads
    (Journal.fromSource ptr src) ∧ ∀ x ∈ reads, x.1 ≤ x.2
  /-- A turn of the loop takes a byte, so the turns the loops are given never run out. -/
  log_turns : ∀ (fuel fuel' : Nat) (log : InputLog) (src : Bytes), src.length < fuel →
    src.length < fuel' →
      InputLog.readEvents ptr fuel log src = InputLog.readEvents ptr fuel' log src
  journal_turns : ∀ (fuel fuel' : Nat) (entries : List Logged) (src : Bytes), src.length < fuel →
    src.length < fuel' →
      Journal.readEntries ptr fuel entries src = Journal.readEntries ptr fuel' entries src

theorem traces_bijective {ptr : Nat} (hptr : ptr ≤ 64) : TracesBijective ptr where
  log_read shape es hat := by
    have hord := (Record.InputLog.ordered_empty shape).pushAll es
    obtain ⟨bytes, henc⟩ : ∃ bytes, ((InputLog.forShape shape).pushAll es).encode = .ok bytes := by
      simp only [InputLog.encode, InputLog.encodeEvents_ok hord.short, bind, Except.bind]
      exact ⟨_, rfl⟩
    refine ⟨bytes, henc, InputLog.decode_encode hptr hord (fun e he => ?_) henc⟩
    exact hat e ((InputLog.mem_pushAll he).resolve_left List.not_mem_nil)
  log_written bytes log h := InputLog.encode_of_decode h
  journal_read j h := Journal.decode_encode hptr h
  journal_written bytes j h := Journal.decode_ok h
  journal_loaded j ops into rest hmade hsize :=
    Journal.load_save_run hptr hmade ops hsize into rest
  log_answers := InputLog.performing_fromSource.answers
  journal_answers := Journal.performing_fromSource.answers
  log_turns _ _ _ _ h h' := InputLog.readEvents_enough h h'
  journal_turns _ _ _ _ h h' := Journal.readEntries_enough h h'

theorem traces_bijective_64 : TracesBijective 64 := traces_bijective (Nat.le_refl 64)

end Rsemu.Usermode
