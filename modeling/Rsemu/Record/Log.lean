import Rsemu.State.Shape

/-!
# Recordings

A recording lists every input that crossed into a machine, in the order it was
delivered, each stamped with the instant it was delivered at. `InputLog::push` is the
only way in, so a log is ordered by instant and no payload is longer than the format
allows: `Ordered`.

A log is written with the machine's shape in front and a tag before every event, and
`decode_encode` says it is read back.
-/

namespace Rsemu.Record

open Codec State

/-- An input's kind and name. -/
structure Channel where
  kind : Str
  name : Str
  deriving DecidableEq

namespace Channel

def key (c : Channel) : Str ×ₗ Str := toLex (c.kind, c.name)

theorem key_injective : Function.Injective key := by
  intro c d h
  obtain ⟨h1, h2⟩ := Prod.mk.inj (toLex.injective h)
  obtain ⟨_, _⟩ := c
  cases h1
  cases h2
  rfl

instance : LinearOrder Channel := LinearOrder.lift' key key_injective

end Channel

def maxPayload : Nat := 64 * 1024

/-- One input, at the instant it crossed in, as the raw 128-bit number. -/
structure InputEvent where
  at_ : Nat
  channel : Channel
  payload : Bytes
  deriving DecidableEq

/-- Why a log or a post is refused. -/
inductive RecordError where
  | state (e : StateError)
  | payloadTooLong (len : Nat) (channel : Channel)
  | backwards (at_ last : Nat)
  | notRecording (found : Bytes)
  | format (found : Nat)
  | recordedTooLong (len : Nat)
  | unknownTag (tag : Nat)
  | trailing (left : Nat)
  | channelsClosed (channel : Channel)
  | noSuchChannel (channel : Channel)

def magic : Bytes := [0x52, 0x53, 0x45, 0x4d, 0x55, 0x52, 0x50, 0x4c]

def logFormatVersion : Nat := 1

def tagEvent : Nat := 1

def tagEnd : Nat := 0

/-- A recording: every input that crossed into one machine, in delivery order. -/
structure InputLog where
  shape : MachineShape
  events : List InputEvent

namespace InputLog

def forShape (shape : MachineShape) : InputLog := ⟨shape, []⟩

/-- An event appended, if it is not too long and not too early. -/
def push (log : InputLog) (e : InputEvent) : Except RecordError InputLog :=
  if maxPayload < e.payload.length then .error (.payloadTooLong e.payload.length e.channel)
  else
    match log.events.getLast? with
    | some last =>
      if e.at_ < last.at_ then .error (.backwards e.at_ last.at_)
      else .ok { log with events := log.events ++ [e] }
    | none => .ok { log with events := log.events ++ [e] }

def indexAt (log : InputLog) (at_ : Nat) : Nat :=
  (log.events.takeWhile fun e => e.at_ < at_).length

/-- What `push` keeps true of a log. -/
structure Ordered (log : InputLog) : Prop where
  sorted : log.events.Pairwise fun a b => a.at_ ≤ b.at_
  short : ∀ e ∈ log.events, e.payload.length ≤ maxPayload

theorem ordered_empty (shape : MachineShape) : Ordered (forShape shape) :=
  ⟨List.Pairwise.nil, fun e he => absurd he (by simp [forShape])⟩

theorem push_eq_ok {log log' : InputLog} {e : InputEvent} :
    log.push e = .ok log' ↔ e.payload.length ≤ maxPayload ∧
      (∀ last ∈ log.events.getLast?, last.at_ ≤ e.at_) ∧
      log' = { log with events := log.events ++ [e] } := by
  unfold push
  by_cases hlen : maxPayload < e.payload.length
  · rw [if_pos hlen]
    exact ⟨fun h => absurd h (by simp), fun h => absurd h.1 (by omega)⟩
  · rw [if_neg hlen]
    have hle : e.payload.length ≤ maxPayload := by omega
    cases hl : log.events.getLast? with
    | none => simp [hle, eq_comm]
    | some last =>
      by_cases hat : e.at_ < last.at_
      · simp only [if_pos hat, Option.mem_some_iff, forall_eq']
        exact ⟨fun h => absurd h (by simp), fun h => absurd h.2.1 (by omega)⟩
      · simp only [if_neg hat, Option.mem_some_iff, forall_eq', Except.ok.injEq]
        exact ⟨fun h => ⟨hle, by omega, h.symm⟩, fun h => h.2.2.symm⟩

theorem Ordered.le_last {log : InputLog} (h : log.Ordered) {last e : InputEvent}
    (hlast : log.events.getLast? = some last) (he : e ∈ log.events) : e.at_ ≤ last.at_ := by
  obtain ⟨init, hsplit⟩ := List.getLast?_eq_some_iff.mp hlast
  have hs := h.sorted
  rw [hsplit] at hs he
  rcases List.mem_append.mp he with he | he
  · exact (List.pairwise_append.mp hs).2.2 e he last (List.mem_singleton_self last)
  · rw [List.mem_singleton.mp he]

theorem Ordered.push {log log' : InputLog} {e : InputEvent} (h : log.Ordered)
    (hpush : log.push e = .ok log') : log'.Ordered := by
  obtain ⟨hlen, hlast, rfl⟩ := push_eq_ok.mp hpush
  constructor
  · refine List.pairwise_append.mpr ⟨h.sorted, List.pairwise_singleton _ _, ?_⟩
    intro a ha b hb
    obtain rfl := List.mem_singleton.mp hb
    cases hl : log.events.getLast? with
    | none =>
      rw [List.getLast?_eq_none_iff.mp hl] at ha
      cases ha
    | some last => exact Nat.le_trans (h.le_last hl ha) (hlast last hl)
  · intro a ha
    rcases List.mem_append.mp ha with ha | ha
    · exact h.short a ha
    · rw [List.mem_singleton.mp ha]
      exact hlen

theorem take_partition {α : Type} {p : α → Bool} {l : List α}
    (h : l.Pairwise fun a b => p b = true → p a = true) :
    l.take (l.takeWhile p).length = l.filter p := by
  induction l with
  | nil => rfl
  | cons a l ih =>
    obtain ⟨ha, hl⟩ := List.pairwise_cons.mp h
    cases hp : p a with
    | true => rw [List.takeWhile_cons_of_pos hp, List.length_cons, List.take_succ_cons,
        List.filter_cons_of_pos hp, ih hl]
    | false =>
      have hnone : ∀ b ∈ l, ¬ p b = true := fun b hb hpb => by simp [ha b hb hpb] at hp
      rw [List.takeWhile_cons_of_neg (by simp [hp]), List.filter_cons_of_neg (by simp [hp]),
        List.filter_eq_nil_iff.mpr hnone]
      rfl

theorem drop_partition {α : Type} {p : α → Bool} {l : List α}
    (h : l.Pairwise fun a b => p b = true → p a = true) :
    ∀ a ∈ l.drop (l.takeWhile p).length, ¬ p a = true := by
  induction l with
  | nil => exact fun a ha => absurd ha (by simp)
  | cons b l ih =>
    obtain ⟨hb, hl⟩ := List.pairwise_cons.mp h
    cases hp : p b with
    | true =>
      rw [List.takeWhile_cons_of_pos hp, List.length_cons, List.drop_succ_cons]
      exact ih hl
    | false =>
      rw [List.takeWhile_cons_of_neg (by simp [hp])]
      intro a ha hpa
      rcases List.mem_cons.mp ha with rfl | ha
      · exact absurd hpa (by simp [hp])
      · exact absurd (hb a ha hpa) (by simp [hp])

theorem Ordered.take_indexAt {log : InputLog} (h : log.Ordered) (at_ : Nat) :
    log.events.take (log.indexAt at_) = log.events.filter fun e => e.at_ < at_ := by
  refine take_partition (h.sorted.imp fun hab => ?_)
  simp only [decide_eq_true_eq]
  omega

end InputLog

def lift {α : Type} (p : Source α) : Reader RecordError α := fun src =>
  (p src).mapError .state

theorem Reads.lift {α : Type} {p : Source α} {bs : Bytes} {a : α} (h : Reads p bs a) :
    Reads (Record.lift p) bs a := by
  intro rest
  unfold Record.lift
  rw [h rest]
  rfl

namespace InputLog

def encodeEvent (e : InputEvent) : Bytes :=
  writeU8 tagEvent ++ (writeU128 e.at_ ++ (writeStr e.channel.kind ++
    (writeStr e.channel.name ++ writeBytes e.payload)))

def encodeEvents : List InputEvent → Except RecordError Bytes
  | [] => .ok (writeU8 tagEnd)
  | e :: es =>
    if maxPayload < e.payload.length then .error (.payloadTooLong e.payload.length e.channel)
    else do
      let rest ← encodeEvents es
      .ok (encodeEvent e ++ rest)

def encode (log : InputLog) : Except RecordError Bytes := do
  let events ← encodeEvents log.events
  .ok (magic ++ (writeU32 logFormatVersion ++ (log.shape.encodeInto ++ events)))

variable (ptr : Nat)

def readEvent : Reader RecordError InputEvent := do
  let at_ ← lift readU128
  let kind ← lift (readStr ptr)
  let name ← lift (readStr ptr)
  let payload ← lift (readBytes ptr)
  pure ⟨at_, ⟨kind, name⟩, payload⟩

def pushEvent (log : InputLog) (e : InputEvent) : Reader RecordError InputLog :=
  if maxPayload < e.payload.length then fail (.recordedTooLong e.payload.length)
  else
    match log.push e with
    | .ok log => pure log
    | .error err => fail err

/-- The events, up to the end marker. Every turn reads a byte, so `fuel` bytes are enough. -/
def readEvents : Nat → InputLog → Reader RecordError InputLog
  | 0, _ => fail (.state (.truncated 1 0))
  | fuel + 1, log => do
    let tag ← lift readU8
    if tag = tagEnd then pure log
    else if tag = tagEvent then do
      let e ← readEvent ptr
      let log ← pushEvent log e
      readEvents fuel log
    else fail (.unknownTag tag)

def readHeader : Reader RecordError Unit := do
  let found ← lift (take magic.length)
  refuse (found != magic) (.notRecording found)
  let format ← lift readU32
  refuse (format != logFormatVersion) (.format format)

def readBody (shape : MachineShape) : Reader RecordError InputLog := do
  let fuel ← remaining
  let log ← readEvents ptr (fuel + 1) (forShape shape)
  let left ← remaining
  refuse (left != 0) (.trailing left)
  pure log

def fromSource : Reader RecordError InputLog := do
  readHeader
  let shape ← lift (MachineShape.decodeFrom ptr)
  readBody ptr shape

def decode (bytes : Bytes) : Except RecordError InputLog := (fromSource ptr bytes).map (·.1)

end InputLog

namespace InputLog

def eventBytes (es : List InputEvent) : Bytes := es.flatMap encodeEvent ++ writeU8 tagEnd

theorem encodeEvents_ok {es : List InputEvent} (h : ∀ e ∈ es, e.payload.length ≤ maxPayload) :
    encodeEvents es = .ok (eventBytes es) := by
  induction es with
  | nil => rfl
  | cons e es ih =>
    have he := h e (List.mem_cons_self ..)
    rw [encodeEvents, if_neg (by omega), ih fun f hf => h f (List.mem_cons_of_mem _ hf)]
    simp only [bind, Except.bind, eventBytes, List.flatMap_cons, List.append_assoc]

section

variable {ptr : Nat}

theorem reads_event (hptr : ptr ≤ 64) {e : InputEvent} (hat : e.at_ < 2 ^ 128)
    (h : (encodeEvent e).length < 2 ^ ptr) :
    Reads (readEvent ptr) (writeU128 e.at_ ++ (writeStr e.channel.kind ++
      (writeStr e.channel.name ++ writeBytes e.payload))) e := by
  simp only [encodeEvent, List.length_append, length_writeStr, writeBytes] at h
  refine Reads.bind (Reads.lift (reads_u128 hat)) ?_
  refine Reads.bind (Reads.lift (reads_str hptr (s := e.channel.kind) (by omega))) ?_
  refine Reads.bind (Reads.lift (reads_str hptr (s := e.channel.name) (by omega))) ?_
  exact (Reads.lift (@reads_bytes ptr hptr e.payload (by omega))).map fun payload =>
    (⟨e.at_, ⟨e.channel.kind, e.channel.name⟩, payload⟩ : InputEvent)

theorem push_ok {log : InputLog} {e : InputEvent} {es : List InputEvent}
    (h : Ordered { log with events := log.events ++ e :: es }) :
    log.push e = .ok { log with events := log.events ++ [e] } := by
  refine push_eq_ok.mpr ⟨h.short e (by simp), fun last hlast => ?_, rfl⟩
  have hmem := List.mem_of_getLast? hlast
  exact (List.pairwise_append.mp h.sorted).2.2 last hmem e (List.mem_cons_self ..)

theorem reads_pushEvent {log : InputLog} {e : InputEvent} {es : List InputEvent}
    (h : Ordered { log with events := log.events ++ e :: es }) :
    Reads (pushEvent log e) [] { log with events := log.events ++ [e] } := by
  have hshort := h.short e (by simp)
  unfold pushEvent
  rw [if_neg (by omega), push_ok h]
  exact Reads.pure _

theorem reads_events (hptr : ptr ≤ 64) : ∀ (es : List InputEvent) (fuel : Nat) (log : InputLog),
    es.length < fuel → (∀ e ∈ es, e.at_ < 2 ^ 128 ∧ (encodeEvent e).length < 2 ^ ptr) →
    Ordered { log with events := log.events ++ es } →
    Reads (readEvents ptr fuel log) (eventBytes es) { log with events := log.events ++ es } := by
  intro es
  induction es with
  | nil =>
    intro fuel log hfuel _ _
    obtain ⟨n, rfl⟩ : ∃ n, fuel = n + 1 := ⟨fuel - 1, by omega⟩
    have hend := Reads.bind (p := lift readU8) (Reads.lift (reads_u8 (v := tagEnd) (by decide)))
      (f := fun tag =>
      if tag = tagEnd then pure log
      else if tag = tagEvent then do
        let e ← readEvent ptr
        let log ← pushEvent log e
        readEvents ptr n log
      else fail (.unknownTag tag)) (Reads.pure log)
    simp only [List.append_nil]
    exact hend
  | cons e es ih =>
    intro fuel log hfuel hfit hord
    obtain ⟨n, rfl⟩ : ∃ n, fuel = n + 1 := ⟨fuel - 1, by omega⟩
    have hord' : Ordered { shape := log.shape, events := log.events ++ [e] ++ es } := by
      rw [List.append_assoc]
      exact hord
    have hrest := ih n { log with events := log.events ++ [e] } (by simpa using hfuel)
      (fun f hf => hfit f (List.mem_cons_of_mem _ hf)) hord'
    obtain ⟨hat, hlen⟩ := hfit e (List.mem_cons_self ..)
    have hbody := Reads.bind (reads_event hptr hat hlen) (f := fun e => do
      let log ← pushEvent log e
      readEvents ptr n log) (Reads.skip (reads_pushEvent hord) hrest)
    have htag := Reads.bind (p := lift readU8) (Reads.lift (reads_u8 (v := tagEvent) (by decide)))
      (f := fun tag =>
        if tag = tagEnd then pure log
        else if tag = tagEvent then do
          let e ← readEvent ptr
          let log ← pushEvent log e
          readEvents ptr n log
        else fail (.unknownTag tag)) hbody
    have hbytes : eventBytes (e :: es) = writeU8 tagEvent ++
        ((writeU128 e.at_ ++ (writeStr e.channel.kind ++ (writeStr e.channel.name ++
          writeBytes e.payload))) ++ eventBytes es) := by
      simp [eventBytes, encodeEvent]
    have hlist : log.events ++ e :: es = log.events ++ [e] ++ es := by simp
    rw [hbytes, hlist]
    exact htag

theorem length_le_eventBytes (es : List InputEvent) : es.length ≤ (eventBytes es).length := by
  induction es with
  | nil => exact Nat.zero_le _
  | cons e es ih =>
    simp only [eventBytes, List.flatMap_cons, List.length_append, List.length_cons, encodeEvent,
      writeU8, length_leBytes] at ih ⊢
    omega

theorem reads_header : Reads readHeader (magic ++ writeU32 logFormatVersion) () := by
  refine Reads.bind (Reads.lift (reads_take _ magic)) (Reads.passed (by decide) ?_)
  have hlast : Reads (do
      let format ← lift readU32
      refuse (format != logFormatVersion) (.format format)) (writeU32 logFormatVersion ++ []) () :=
    Reads.bind (Reads.lift (reads_u32 (by decide))) (Reads.pure ())
  exact hlast

theorem decode_encode (hptr : ptr ≤ 64) {log : InputLog} {bytes : Bytes} (hord : log.Ordered)
    (hat : ∀ e ∈ log.events, e.at_ < 2 ^ 128) (henc : log.encode = .ok bytes)
    (hsize : bytes.length < 2 ^ ptr) : decode ptr bytes = .ok log := by
  simp only [encode, encodeEvents_ok hord.short, bind, Except.bind, Except.ok.injEq] at henc
  subst henc
  simp only [List.length_append] at hsize
  have hfit : ∀ e ∈ log.events, e.at_ < 2 ^ 128 ∧ (encodeEvent e).length < 2 ^ ptr := by
    intro e he
    have := length_le_flatMap (f := encodeEvent) he
    have hev : (eventBytes log.events).length < 2 ^ ptr := by omega
    rw [eventBytes, List.length_append] at hev
    exact ⟨hat e he, by omega⟩
  have hevents := reads_events hptr log.events ((eventBytes log.events).length + 1)
    (forShape log.shape) (Nat.lt_succ_of_le (length_le_eventBytes _)) hfit hord []
  rw [List.append_nil] at hevents
  have hbody : readBody ptr log.shape (eventBytes log.events) = .ok (log, []) := by
    simp only [readBody, remaining, bind, StateT.bind, Except.bind, hevents]
    rfl
  have hsource : fromSource ptr
      (magic ++ (writeU32 logFormatVersion ++ (log.shape.encodeInto ++ eventBytes log.events)))
      = .ok (log, []) := by
    rw [← List.append_assoc, fromSource, reads_header.run_bind,
      (Reads.lift (reads_shape hptr (by omega))).run_bind]
    exact hbody
  rw [decode, hsource]
  rfl

end

end InputLog

end Rsemu.Record
