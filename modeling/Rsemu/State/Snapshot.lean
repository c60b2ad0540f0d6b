import Rsemu.State.Shape

/-!
# Snapshots

`StateWriter` buffers chunks by instance path and emits a header, the shape and the
chunks in path order; `StateReader` parses all of it up front and then answers lookups
by path. What the writer emits does not depend on the order anything was added in, and
what the reader answers is what was added: `snapshot_roundtrip`.
-/

namespace Rsemu.State

open Codec

def magic : Bytes := [0x52, 0x53, 0x45, 0x4d, 0x55, 0x53, 0x4e, 0x50]

def formatVersion : Nat := 1

def tagChunk : Nat := 1

def tagEnd : Nat := 0

/-- A chunk to be written. -/
structure PendingChunk where
  cls : Str
  version : UInt32
  data : Bytes

/-- A snapshot that is being written. -/
structure StateWriter where
  shape : MachineShape
  codec : UInt16
  integrity : UInt16
  chunks : SortedMap Str PendingChunk

/-- A chunk as a device saves it: the key, and the writes in order. -/
structure Chunk where
  path : Str
  cls : Str
  version : UInt32
  writes : List Bytes

def Chunk.payload (c : Chunk) : Bytes := c.writes.flatten

namespace StateWriter

def new (shape : MachineShape) : StateWriter := ⟨shape, 0, 0, .empty⟩

/-- A chunk added to a snapshot. -/
def chunk (w : StateWriter) (path cls : Str) (version : UInt32) : Except StateError StateWriter :=
  match w.chunks.get path with
  | some existing => .error (.duplicateChunk path existing.cls existing.version.toNat)
  | none =>
    if path.text = "" then .error .emptyPath
    else .ok { w with chunks := w.chunks.insert path ⟨cls, version, []⟩ }

def writeAll (path : Str) (w : StateWriter) (bytes : Bytes) : StateWriter :=
  match w.chunks.get path with
  | some c => { w with chunks := w.chunks.insert path { c with data := c.data ++ bytes } }
  | none => w

def addChunk (w : StateWriter) (c : Chunk) : Except StateError StateWriter := do
  let w ← w.chunk c.path c.cls c.version
  .ok (c.writes.foldl (writeAll c.path) w)

def addChunks (w : StateWriter) (cs : List Chunk) : Except StateError StateWriter :=
  cs.foldlM addChunk w

def encodeChunk (e : Str × PendingChunk) : Bytes :=
  writeU8 tagChunk ++ (writeStr e.1 ++ (writeStr e.2.cls ++ (writeU32 e.2.version.toNat ++
    writeBytes e.2.data)))

def encodeChunks (es : List (Str × PendingChunk)) : Bytes :=
  es.flatMap encodeChunk ++ writeU8 tagEnd

def toVec (w : StateWriter) : Bytes :=
  magic ++ (writeU32 formatVersion ++ (writeU16 w.codec.toNat ++ (writeU16 w.integrity.toNat ++
    (w.shape.encodeInto ++ encodeChunks w.chunks.entries))))

end StateWriter

/-- A chunk that was read. -/
structure RawChunk where
  path : Str
  cls : Str
  version : UInt32
  data : Bytes

/-- What a chunk is, without its bytes. -/
structure ChunkInfo where
  path : Str
  cls : Str
  version : UInt32
  len : Nat

/-- A snapshot that was read. -/
structure StateReader where
  codec : Nat
  integrity : Nat
  shape : MachineShape
  chunks : List RawChunk

namespace StateReader

section

variable (ptr : Nat)

def readChunk : Source RawChunk := do
  let path ← readStr ptr
  let cls ← readStr ptr
  let version ← readU32
  let data ← readBytes ptr
  pure ⟨path, cls, UInt32.ofNat version, data⟩

def pushChunk (chunks : List RawChunk) (c : RawChunk) : Source (List RawChunk) :=
  match chunks.getLast? with
  | some previous =>
    if c.path ≤ previous.path then fail (.chunksOutOfOrder c.path previous.path)
    else pure (chunks ++ [c])
  | none => pure (chunks ++ [c])

/-- The chunk list, up to the end marker. Every turn reads a byte, so `fuel` bytes are enough. -/
def readChunks : Nat → List RawChunk → Source (List RawChunk)
  | 0, _ => fail (.truncated 1 0)
  | fuel + 1, chunks => do
    let tag ← readU8
    if tag = tagEnd then pure chunks
    else if tag = tagChunk then do
      let c ← readChunk ptr
      let chunks ← pushChunk chunks c
      readChunks fuel chunks
    else fail (.unknownTag tag)

/-- The magic, the format, and the two seams this build writes as zero. -/
def readHeader : Source (Nat × Nat) := do
  let found ← take magic.length
  refuse (found != magic) (.notSnapshot found)
  let format ← readU32
  refuse (format != formatVersion) (.format format)
  let codec ← readU16
  refuse (codec != 0) (.codec codec)
  let integrity ← readU16
  refuse (integrity != 0) (.integrity integrity)
  pure (codec, integrity)

def readBody (header : Nat × Nat) (shape : MachineShape) : Source StateReader := do
  let fuel ← remaining
  let chunks ← readChunks ptr (fuel + 1) []
  let left ← remaining
  refuse (left != 0) (.trailing left)
  pure ⟨header.1, header.2, shape, chunks⟩

def fromSource : Source StateReader := do
  let header ← readHeader
  let shape ← MachineShape.decodeFrom ptr
  readBody ptr header shape

def new (bytes : Bytes) : Except StateError StateReader := (fromSource ptr bytes).map (·.1)

end

def raw (r : StateReader) (path : Str) : Option RawChunk :=
  (binarySearchBy (fun c => compare c.path path) r.chunks).bind fun i => r.chunks[i]?

def find (r : StateReader) (path : Str) : Option ChunkInfo :=
  (r.raw path).map fun c => ⟨c.path, c.cls, c.version, c.data.length⟩

def summarisePaths (r : StateReader) : String :=
  if r.chunks.isEmpty then "the snapshot has no chunks at all"
  else
    "present: " ++ ", ".intercalate ((r.chunks.take 8).map fun c => "`" ++ c.path.text ++ "`")
      ++ (if 8 < r.chunks.length then
        " and " ++ toString (r.chunks.length - 8) ++ " more" else "")

def loadRaw (r : StateReader) (path : Str) : Except StateError (Str × UInt32 × Bytes) :=
  match r.raw path with
  | none => .error (.noChunk path r.summarisePaths)
  | some c => .ok (c.cls, c.version, c.data)

end StateReader

def Chunk.pending (c : Chunk) : PendingChunk := ⟨c.cls, c.version, c.payload⟩

def StateWriter.put (w : StateWriter) (c : Chunk) : StateWriter :=
  { w with chunks := w.chunks.insert c.path c.pending }

theorem SortedMap.insert_insert {κ ν : Type} [LinearOrder κ] (m : SortedMap κ ν) (k : κ)
    (v v' : ν) : (m.insert k v).insert k v' = m.insert k v' := by
  refine SortedMap.ext_get fun j => ?_
  simp only [SortedMap.get_insert]
  split <;> rfl

theorem foldl_writeAll {w : StateWriter} {path cls : Str} {version : UInt32} :
    ∀ (writes : List Bytes) (data : Bytes),
      writes.foldl (StateWriter.writeAll path)
        { w with chunks := w.chunks.insert path ⟨cls, version, data⟩ } =
        { w with chunks := w.chunks.insert path ⟨cls, version, data ++ writes.flatten⟩ } := by
  intro writes
  induction writes with
  | nil => intro data; simp
  | cons b bs ih =>
    intro data
    have hstep : StateWriter.writeAll path
        { w with chunks := w.chunks.insert path ⟨cls, version, data⟩ } b =
        { w with chunks := w.chunks.insert path ⟨cls, version, data ++ b⟩ } := by
      simp only [StateWriter.writeAll, SortedMap.get_insert, if_true, SortedMap.insert_insert]
    rw [List.foldl_cons, hstep, ih, List.flatten_cons, List.append_assoc]

theorem addChunk_eq_ok {w w' : StateWriter} {c : Chunk} :
    w.addChunk c = .ok w' ↔
      w.chunks.get c.path = none ∧ c.path.text ≠ "" ∧ w' = w.put c := by
  simp only [StateWriter.addChunk, StateWriter.chunk, bind, Except.bind]
  cases hget : w.chunks.get c.path with
  | some existing => simp
  | none =>
    by_cases hempty : c.path.text = ""
    · simp [hempty]
    · simp only [if_neg hempty, Except.ok.injEq, true_and]
      rw [foldl_writeAll]
      exact ⟨fun h => ⟨hempty, h.symm⟩, fun h => h.2.symm⟩

theorem addChunk_swap (w : StateWriter) (a b : Chunk) (v : StateWriter)
    (h : (w.addChunk a).bind (·.addChunk b) = .ok v) :
    (w.addChunk b).bind (·.addChunk a) = .ok v := by
  cases ha : w.addChunk a with
  | error e => rw [ha] at h; exact absurd h (by simp [Except.bind])
  | ok w' =>
    rw [ha] at h
    obtain ⟨hga, hea, rfl⟩ := addChunk_eq_ok.mp ha
    obtain ⟨hgb, heb, rfl⟩ := addChunk_eq_ok.mp (show (w.put a).addChunk b = .ok v from h)
    have hne : b.path ≠ a.path := by
      intro heq
      simp [StateWriter.put, SortedMap.get_insert, heq] at hgb
    simp only [StateWriter.put, SortedMap.get_insert, if_neg hne] at hgb
    have hb : w.addChunk b = .ok (w.put b) := addChunk_eq_ok.mpr ⟨hgb, heb, rfl⟩
    have hab : (w.put b).addChunk a = .ok ((w.put a).put b) := by
      refine addChunk_eq_ok.mpr ⟨?_, hea, ?_⟩
      · simp only [StateWriter.put, SortedMap.get_insert, if_neg (Ne.symm hne), hga]
      · simp only [StateWriter.put]
        rw [SortedMap.insert_comm _ fun heq => absurd heq.symm hne]
    rw [hb]
    exact hab

theorem addChunks_perm {cs cs' : List Chunk} (h : cs.Perm cs') {w v : StateWriter}
    (hv : w.addChunks cs = .ok v) : w.addChunks cs' = .ok v :=
  foldlM_perm addChunk_swap h hv

theorem addChunks_ok : ∀ (cs : List Chunk) (w : StateWriter), (cs.map (·.path)).Nodup →
    (∀ c ∈ cs, c.path.text ≠ "") → (∀ c ∈ cs, w.chunks.get c.path = none) →
    ∃ v, w.addChunks cs = .ok v ∧ v.shape = w.shape ∧ v.codec = w.codec ∧
      v.integrity = w.integrity ∧ (∀ c ∈ cs, v.chunks.get c.path = some c.pending) ∧
      ∀ p, p ∉ cs.map (·.path) → v.chunks.get p = w.chunks.get p := by
  intro cs
  induction cs with
  | nil =>
    intro w _ _ _
    exact ⟨w, rfl, rfl, rfl, rfl, fun c hc => absurd hc (by simp), fun _ _ => rfl⟩
  | cons c cs ih =>
    intro w hnodup hne hfree
    obtain ⟨hc, hnodup'⟩ := List.nodup_cons.mp (show (c.path :: cs.map (·.path)).Nodup from hnodup)
    have hadd : w.addChunk c = .ok (w.put c) := addChunk_eq_ok.mpr
      ⟨hfree c (List.mem_cons_self ..), hne c (List.mem_cons_self ..), rfl⟩
    have hget : ∀ p, p ≠ c.path → (w.put c).chunks.get p = w.chunks.get p := by
      intro p hp
      simp only [StateWriter.put, SortedMap.get_insert, if_neg hp]
    have hother : ∀ d ∈ cs, d.path ≠ c.path :=
      fun d hd heq => hc (heq ▸ List.mem_map_of_mem hd)
    obtain ⟨v, hv, hshape, hcodec, hint, hin, hout⟩ := ih (w.put c) hnodup'
      (fun d hd => hne d (List.mem_cons_of_mem _ hd))
      (fun d hd => (hget d.path (hother d hd)).trans (hfree d (List.mem_cons_of_mem _ hd)))
    refine ⟨v, ?_, hshape, hcodec, hint, ?_, ?_⟩
    · show (w.addChunk c).bind (fun w => w.addChunks cs) = .ok v
      rw [hadd]
      exact hv
    · intro d hd
      rcases List.mem_cons.mp hd with rfl | hd
      · rw [hout d.path hc]
        simp only [StateWriter.put, SortedMap.get_insert, if_true]
      · exact hin d hd
    · intro p hp
      rw [List.map_cons, List.mem_cons, not_or] at hp
      rw [hout p hp.2, hget p hp.1]

def rawOf (e : Str × PendingChunk) : RawChunk := ⟨e.1, e.2.cls, e.2.version, e.2.data⟩

section Reading

variable {ptr : Nat}

theorem reads_chunk (hptr : ptr ≤ 64) {e : Str × PendingChunk}
    (h : (StateWriter.encodeChunk e).length < 2 ^ ptr) :
    Reads (StateReader.readChunk ptr) (writeStr e.1 ++ (writeStr e.2.cls ++
      (writeU32 e.2.version.toNat ++ writeBytes e.2.data))) (rawOf e) := by
  simp only [StateWriter.encodeChunk, List.length_append, length_writeStr, writeBytes] at h
  have hdata := (@reads_bytes ptr hptr e.2.data (by omega)).map fun data =>
    (⟨e.1, e.2.cls, UInt32.ofNat e.2.version.toNat, data⟩ : RawChunk)
  refine Reads.bind (reads_str hptr (s := e.1) (by omega)) ?_
  refine Reads.bind (reads_str hptr (s := e.2.cls) (by omega)) ?_
  refine Reads.bind (reads_u32 e.2.version.toNat_lt) ?_
  rw [UInt32.ofNat_toNat] at hdata
  simp only [UInt32.ofNat_toNat]
  exact hdata

theorem reads_pushChunk {chunks : List RawChunk} {c : RawChunk}
    (h : ∀ d ∈ chunks, d.path < c.path) :
    Reads (StateReader.pushChunk chunks c) [] (chunks ++ [c]) := by
  unfold StateReader.pushChunk
  cases hl : chunks.getLast? with
  | none => exact Reads.pure _
  | some d =>
    simp only [if_neg (not_le.mpr (h d (List.mem_of_getLast? hl)))]
    exact Reads.pure _

theorem reads_chunks (hptr : ptr ≤ 64) : ∀ (es : List (Str × PendingChunk)) (fuel : Nat)
    (chunks : List RawChunk), es.length < fuel →
    (∀ e ∈ es, (StateWriter.encodeChunk e).length < 2 ^ ptr) →
    (chunks ++ es.map rawOf).Pairwise (fun c d => c.path < d.path) →
    Reads (StateReader.readChunks ptr fuel chunks) (StateWriter.encodeChunks es)
      (chunks ++ es.map rawOf) := by
  intro es
  induction es with
  | nil =>
    intro fuel chunks hfuel _ _
    obtain ⟨n, rfl⟩ : ∃ n, fuel = n + 1 := ⟨fuel - 1, by omega⟩
    have hend := Reads.bind (p := readU8) (reads_u8 (v := tagEnd) (by decide)) (f := fun tag =>
      if tag = tagEnd then pure chunks
      else if tag = tagChunk then do
        let c ← StateReader.readChunk ptr
        let chunks ← StateReader.pushChunk chunks c
        StateReader.readChunks ptr n chunks
      else fail (.unknownTag tag)) (Reads.pure chunks)
    rw [List.append_nil] at hend
    rw [List.map_nil, List.append_nil]
    exact hend
  | cons e es ih =>
    intro fuel chunks hfuel hfit hsorted
    obtain ⟨n, rfl⟩ : ∃ n, fuel = n + 1 := ⟨fuel - 1, by omega⟩
    have hbelow : ∀ d ∈ chunks, d.path < (rawOf e).path := by
      intro d hd
      exact (List.pairwise_append.mp hsorted).2.2 d hd (rawOf e) (by simp)
    have hrest := ih n (chunks ++ [rawOf e]) (by simpa using hfuel)
      (fun f hf => hfit f (List.mem_cons_of_mem _ hf)) (by simpa using hsorted)
    have hbody := Reads.bind (reads_chunk hptr (hfit e (List.mem_cons_self ..)))
      (f := fun c => do
        let chunks ← StateReader.pushChunk chunks c
        StateReader.readChunks ptr n chunks)
      (Reads.skip (reads_pushChunk hbelow) hrest)
    have htag := Reads.bind (p := readU8) (reads_u8 (v := tagChunk) (by decide)) (f := fun tag =>
      if tag = tagEnd then pure chunks
      else if tag = tagChunk then do
        let c ← StateReader.readChunk ptr
        let chunks ← StateReader.pushChunk chunks c
        StateReader.readChunks ptr n chunks
      else fail (.unknownTag tag)) hbody
    have hbytes : StateWriter.encodeChunks (e :: es) = writeU8 tagChunk ++
        ((writeStr e.1 ++ (writeStr e.2.cls ++ (writeU32 e.2.version.toNat ++
          writeBytes e.2.data))) ++ StateWriter.encodeChunks es) := by
      simp [StateWriter.encodeChunks, StateWriter.encodeChunk]
    have hlist : chunks ++ (e :: es).map rawOf = chunks ++ [rawOf e] ++ es.map rawOf := by simp
    rw [hbytes, hlist]
    exact htag

theorem length_le_encodeChunks (es : List (Str × PendingChunk)) :
    es.length ≤ (StateWriter.encodeChunks es).length := by
  induction es with
  | nil => exact Nat.zero_le _
  | cons e es ih =>
    simp only [StateWriter.encodeChunks, List.flatMap_cons, List.length_append,
      List.length_cons, StateWriter.encodeChunk, writeU8, length_leBytes] at ih ⊢
    omega

theorem reads_header :
    Reads StateReader.readHeader
      (magic ++ (writeU32 formatVersion ++ (writeU16 0 ++ writeU16 0))) (0, 0) := by
  refine Reads.bind (reads_take _ magic) (Reads.passed (by decide) ?_)
  refine Reads.bind (reads_u32 (by decide)) (Reads.passed (by decide) ?_)
  refine Reads.bind (reads_u16 (by decide)) (Reads.passed (by decide) ?_)
  have hlast := Reads.bind (p := readU16) (reads_u16 (v := 0) (by decide)) (f := fun integrity => do
    refuse (integrity != 0) (.integrity integrity)
    pure (0, integrity)) (Reads.passed (by decide) (Reads.pure (0, 0)))
  rw [List.append_nil] at hlast
  exact hlast

theorem new_toVec (hptr : ptr ≤ 64) {w : StateWriter} (hcodec : w.codec = 0)
    (hint : w.integrity = 0) (h : w.toVec.length < 2 ^ ptr) :
    StateReader.new ptr w.toVec = .ok ⟨0, 0, w.shape, w.chunks.entries.map rawOf⟩ := by
  have hlen : w.shape.encodeInto.length < 2 ^ ptr ∧
      (StateWriter.encodeChunks w.chunks.entries).length < 2 ^ ptr := by
    simp only [StateWriter.toVec, List.length_append] at h
    omega
  have hfit : ∀ e ∈ w.chunks.entries, (StateWriter.encodeChunk e).length < 2 ^ ptr := by
    intro e he
    have := length_le_flatMap (f := StateWriter.encodeChunk) he
    have hc := hlen.2
    rw [StateWriter.encodeChunks, List.length_append] at hc
    omega
  have hsorted : ([] ++ w.chunks.entries.map rawOf).Pairwise
      (fun c d : RawChunk => c.path < d.path) := by
    rw [List.nil_append, List.pairwise_map]
    exact w.chunks.sorted
  have hchunks := reads_chunks hptr w.chunks.entries
    ((StateWriter.encodeChunks w.chunks.entries).length + 1) []
    (Nat.lt_succ_of_le (length_le_encodeChunks _)) hfit hsorted []
  rw [List.append_nil, List.nil_append] at hchunks
  have hbody : StateReader.readBody ptr (0, 0) w.shape (StateWriter.encodeChunks w.chunks.entries)
      = .ok (⟨0, 0, w.shape, w.chunks.entries.map rawOf⟩, []) := by
    simp only [StateReader.readBody, remaining, bind, StateT.bind, Except.bind, hchunks]
    rfl
  have hbytes : w.toVec = (magic ++ (writeU32 formatVersion ++ (writeU16 0 ++ writeU16 0))) ++
      (w.shape.encodeInto ++ StateWriter.encodeChunks w.chunks.entries) := by
    rw [StateWriter.toVec, hcodec, hint]
    rfl
  have hsource : StateReader.fromSource ptr w.toVec
      = .ok (⟨0, 0, w.shape, w.chunks.entries.map rawOf⟩, []) := by
    rw [hbytes, StateReader.fromSource, reads_header.run_bind, (reads_shape hptr hlen.1).run_bind]
    exact hbody
  rw [StateReader.new, hsource]
  rfl

end Reading

theorem raw_eq (m : SortedMap Str PendingChunk) {r : StateReader}
    (hr : r.chunks = m.entries.map rawOf) (p : Str) :
    r.raw p = (m.get p).map fun c => rawOf (p, c) := by
  unfold StateReader.raw
  rw [hr]
  cases hget : m.get p with
  | none =>
    rw [binarySearchBy_none]
    · rfl
    · intro c hc heq
      obtain ⟨e, he, rfl⟩ := List.mem_map.mp hc
      refine SortedMap.get_eq_none.mp hget (List.mem_map.mpr ⟨e, he, ?_⟩)
      exact compare_eq_iff_eq.mp heq
  | some c =>
    obtain ⟨t, ht⟩ := List.mem_iff_getElem?.mp (SortedMap.get_eq_some.mp hget)
    obtain ⟨hlt, hgett⟩ := List.getElem?_eq_some_iff.mp ht
    have hsorted := List.pairwise_iff_getElem.mp m.sorted
    have hfound : (m.entries.map rawOf)[t]? = some (rawOf (p, c)) := by
      rw [List.getElem?_map, ht]
      rfl
    rw [binarySearchBy_eq (t := t)]
    · exact hfound
    · rw [hfound]
      exact congrArg some (compare_eq_iff_eq.mpr rfl)
    · intro i hi
      have hi' : i < m.entries.length := Nat.lt_trans hi hlt
      have hlow := hsorted i t hi' hlt hi
      rw [hgett] at hlow
      rw [List.getElem?_map, List.getElem?_eq_getElem hi']
      exact congrArg some (compare_lt_iff_lt.mpr hlow)
    · intro i hi hlen
      have hi' : i < m.entries.length := by simpa using hlen
      have hhigh := hsorted t i hlt hi' hi
      rw [hgett] at hhigh
      rw [List.getElem?_map, List.getElem?_eq_getElem hi']
      exact congrArg some (compare_gt_iff_gt.mpr hhigh)

/--
**Snapshots decode to what was encoded, in whatever order it was added.** The shape is
recorded and the chunks are added in any order; the bytes are the same, and parsing
them gives the shape and, for every path, the chunk that was added for it or nothing.
`ptr` is the width of the host's `usize`, in which the snapshot has a length.
-/
theorem snapshot_roundtrip {ptr : Nat} (hptr : ptr ≤ 64) {ops ops' : List ShapeOp}
    {shape : MachineShape} {cs cs' : List Chunk} (hops : ops.Perm ops') (hcs : cs.Perm cs')
    (hshape : MachineShape.new.addAll ops = .ok shape) (hpaths : (cs.map (·.path)).Nodup)
    (hempty : ∀ c ∈ cs, c.path.text ≠ "")
    (hsize : ∀ w, (StateWriter.new shape).addChunks cs = .ok w → w.toVec.length < 2 ^ ptr) :
    MachineShape.new.addAll ops' = .ok shape ∧
    ∃ w w' r, (StateWriter.new shape).addChunks cs = .ok w ∧
      (StateWriter.new shape).addChunks cs' = .ok w' ∧ w'.toVec = w.toVec ∧
      StateReader.new ptr w.toVec = .ok r ∧ r.shape = shape ∧
      (∀ c ∈ cs, r.find c.path = some ⟨c.path, c.cls, c.version, c.payload.length⟩ ∧
        r.loadRaw c.path = .ok (c.cls, c.version, c.payload)) ∧
      ∀ p, p ∉ cs.map (·.path) →
        r.find p = none ∧ r.loadRaw p = .error (.noChunk p r.summarisePaths) := by
  refine ⟨MachineShape.addAll_perm hops hshape, ?_⟩
  obtain ⟨w, hw, hwshape, hcodec, hint, hin, hout⟩ :=
    addChunks_ok cs (StateWriter.new shape) hpaths hempty fun _ _ => rfl
  have hnew := new_toVec hptr hcodec hint (hsize w hw)
  refine ⟨w, w, _, hw, addChunks_perm hcs hw, rfl, hnew, hwshape, ?_, ?_⟩
  · intro c hc
    have hraw := raw_eq w.chunks (r := ⟨0, 0, w.shape, w.chunks.entries.map rawOf⟩) rfl c.path
    rw [hin c hc] at hraw
    constructor
    · rw [StateReader.find, hraw]
      rfl
    · rw [StateReader.loadRaw, hraw]
      rfl
  · intro p hp
    have hraw := raw_eq w.chunks (r := ⟨0, 0, w.shape, w.chunks.entries.map rawOf⟩) rfl p
    rw [hout p hp, show (StateWriter.new shape).chunks.get p = none from rfl] at hraw
    constructor
    · rw [StateReader.find, hraw]
      rfl
    · rw [StateReader.loadRaw, hraw]
      rfl

def demoOps : List ShapeOp :=
  [.device ⟨"/ram"⟩ ⟨"mem.ram"⟩, .device ⟨"/cpu0"⟩ ⟨"cpu.demo"⟩,
    .region ⟨"mem"⟩ ⟨"ram"⟩ 0x8000 0x800, .feature ⟨"interp"⟩]

def demoChunks : List Chunk :=
  [⟨⟨"/ram"⟩, ⟨"mem.ram"⟩, 2, [[7, 7, 7]]⟩, ⟨⟨"/cpu0"⟩, ⟨"cpu.demo"⟩, 1, [[0xfc], [0xff]]⟩]

theorem demo_size : ((MachineShape.new.addAll demoOps).toOption.all fun shape =>
    ((StateWriter.new shape).addChunks demoChunks).toOption.all fun w =>
      decide (w.toVec.length < 2 ^ 64)) = true := by
  decide +kernel

theorem snapshot_roundtrip_demo : ∃ shape w r,
    MachineShape.new.addAll demoOps.reverse = .ok shape ∧
    (StateWriter.new shape).addChunks demoChunks.reverse = .ok w ∧
    StateReader.new 64 w.toVec = .ok r ∧ r.shape = shape ∧
    r.loadRaw ⟨"/cpu0"⟩ = .ok (⟨"cpu.demo"⟩, 1, [0xfc, 0xff]) := by
  have hok : (MachineShape.new.addAll demoOps).toOption.isSome = true := by decide +kernel
  cases hshape : MachineShape.new.addAll demoOps with
  | error e => rw [hshape] at hok; exact absurd hok (by simp [Except.toOption])
  | ok shape =>
    have hsize : ∀ w, (StateWriter.new shape).addChunks demoChunks = .ok w →
        w.toVec.length < 2 ^ 64 := by
      intro w hw
      have h := demo_size
      rw [hshape] at h
      simpa [Except.toOption, hw] using h
    have hne : ∀ c ∈ demoChunks, c.path.text ≠ "" := by decide
    obtain ⟨hops, w, w', r, _, hw', hbytes, hr, hrshape, hin, _⟩ :=
      snapshot_roundtrip (Nat.le_refl 64) (List.reverse_perm demoOps).symm
        (List.reverse_perm demoChunks).symm hshape (by decide) hne hsize
    refine ⟨shape, w', r, hops, hw', hbytes ▸ hr, hrshape, ?_⟩
    exact (hin ⟨⟨"/cpu0"⟩, ⟨"cpu.demo"⟩, 1, [[0xfc], [0xff]]⟩ (by simp [demoChunks])).2

end Rsemu.State
