import Rsemu.State.Snapshot

/-!
# One encoding

`StateReader` enforces the order `StateWriter` writes in, so a snapshot that is
accepted should be the one the writer would have produced: add every decoded chunk to
a writer for the decoded shape, and the bytes come out again.

The parser keeps its half. Whatever it accepts is a header, the encoding of the shape
it returns and the encodings of the chunks it returns, with nothing left out and
nothing after (`new_ok`), and it reads nothing it has not checked is there
(`performing_fromSource`). The writer does not keep its own: it refuses a chunk whose
instance path is empty, and the parser takes one, as the first.
-/

namespace Rsemu.State

open Codec

theorem Str.bytes_of_fromUtf8 {bs : Bytes} {s : Str} (h : Str.fromUtf8 bs = some s) :
    s.bytes = bs := by
  unfold Str.fromUtf8 String.fromUTF8? at h
  split at h
  · cases h
    rfl
  · cases h

section Reading

variable {ptr : Nat}

variable {rest src : Bytes}

theorem readU8_ok {v : Nat} (h : readU8 src = .ok (v, rest)) :
    src = writeU8 v ++ rest := (readLe_ok h).1

theorem readU16_ok {v : Nat} (h : readU16 src = .ok (v, rest)) :
    src = writeU16 v ++ rest := (readLe_ok h).1

theorem readU32_ok {v : Nat} (h : readU32 src = .ok (v, rest)) :
    src = writeU32 v ++ rest ∧ v < 2 ^ 32 := readLe_ok h

theorem readU64_ok {v : Nat} (h : readU64 src = .ok (v, rest)) :
    src = writeU64 v ++ rest ∧ v < 2 ^ 64 := readLe_ok h

theorem readBytes_ok {bs : Bytes} (h : readBytes ptr src = .ok (bs, rest)) :
    src = writeBytes bs ++ rest := by
  obtain ⟨len, mid, hlen, h⟩ := bind_ok h
  obtain ⟨len', mid', hwire, htake⟩ := bind_ok h
  obtain ⟨rfl, -⟩ := readU64_ok hlen
  unfold wireLen at hwire
  split at hwire
  · obtain ⟨rfl, rfl⟩ := pure_ok hwire
    obtain ⟨rfl, rfl⟩ := take_ok htake
    rw [writeBytes, List.append_assoc]
  · exact absurd hwire (by simp [fail])

theorem readStr_ok {s : Str} (h : readStr ptr src = .ok (s, rest)) : src = writeStr s ++ rest := by
  obtain ⟨bs, mid, hbytes, h⟩ := bind_ok h
  cases hs : Str.fromUtf8 bs with
  | some t =>
    rw [hs] at h
    obtain ⟨rfl, rfl⟩ := pure_ok h
    rw [readBytes_ok hbytes, writeStr, Str.bytes_of_fromUtf8 hs]
  | none =>
    rw [hs] at h
    exact absurd h (by simp [fail])

theorem readSeqLen_ok {minBytes count : Nat} (h : readSeqLen minBytes src = .ok (count, rest)) :
    src = writeSeqLen count ++ rest := by
  obtain ⟨count', mid, hcount, hcheck⟩ := bind_ok h
  obtain ⟨rfl, -⟩ := readU64_ok hcount
  dsimp only at hcheck
  split at hcheck
  · exact absurd hcheck (by simp [fail])
  · obtain ⟨remain, mid', hremain, hpass⟩ := bind_ok hcheck
    obtain ⟨-, rfl⟩ := remaining_ok hremain
    split at hpass
    · exact absurd hpass (by simp [fail])
    · obtain ⟨rfl, rfl⟩ := pure_ok hpass
      rfl

section Collections

variable {κ ν : Type} [LinearOrder κ]

/-- The key kept is that of the last entry. -/
def LastKey (state : Option κ × SortedMap κ ν) : Prop :=
  state.1 = state.2.entries.getLast?.map (·.1)

theorem below_getLast {es : List (κ × ν)} (hs : es.Pairwise fun a b => a.1 < b.1) {l : κ × ν}
    (hl : es.getLast? = some l) {k : κ} (h : l.1 < k) : ∀ e ∈ es, e.1 < k := by
  intro e he
  obtain ⟨pre, rfl⟩ : ∃ pre, es = pre ++ [l] := List.getLast?_eq_some_iff.mp hl
  rcases List.mem_append.mp he with he | he
  · exact lt_trans ((List.pairwise_append.mp hs).2.2 e he l (List.mem_singleton_self l)) h
  · rw [List.mem_singleton.mp he]
    exact h

variable {outOfOrder : κ → κ → StateError}

theorem placeEntry_ok {state state' : Option κ × SortedMap κ ν} {e : κ × ν} (hlast : LastKey state)
    (h : placeEntry outOfOrder state e src = .ok (state', rest)) :
    rest = src ∧ state'.2.entries = state.2.entries ++ [e] ∧ LastKey state' := by
  have hplace : rest = src ∧ state' = (some e.1, state.2.insert e.1 e.2) ∧
      ∀ f ∈ state.2.entries, f.1 < e.1 := by
    unfold placeEntry at h
    rw [hlast] at h
    cases hl : state.2.entries.getLast? with
    | none =>
      rw [hl] at h
      obtain ⟨rfl, rfl⟩ := pure_ok h
      refine ⟨rfl, rfl, ?_⟩
      rw [List.getLast?_eq_none_iff.mp hl]
      exact fun f hf => absurd hf (by simp)
    | some l =>
      rw [hl] at h
      simp only [Option.map_some] at h
      split at h
      · exact absurd h (by simp [fail])
      · rename_i hle
        obtain ⟨rfl, rfl⟩ := pure_ok h
        exact ⟨rfl, rfl, below_getLast state.2.sorted hl (not_le.mp hle)⟩
  obtain ⟨hrest, rfl, hbelow⟩ := hplace
  have hentries : (state.2.insert e.1 e.2).entries = state.2.entries ++ [e] :=
    SortedMap.insertEntry_last hbelow
  refine ⟨hrest, hentries, ?_⟩
  unfold LastKey
  rw [hentries]
  simp

theorem times_readEntry_ok {encode : κ × ν → Bytes} {read : Source (κ × ν)}
    (hread : ∀ src e rest, read src = .ok (e, rest) → src = encode e ++ rest) :
    ∀ (n : Nat) (state state' : Option κ × SortedMap κ ν) (src rest : Bytes), LastKey state →
      times (readEntry read outOfOrder) n state src = .ok (state', rest) →
      ∃ es, es.length = n ∧ state'.2.entries = state.2.entries ++ es ∧
        src = es.flatMap encode ++ rest := by
  intro n
  induction n with
  | zero =>
    intro state state' src rest _ h
    obtain ⟨rfl, rfl⟩ := pure_ok h
    exact ⟨[], rfl, (List.append_nil _).symm, rfl⟩
  | succ n ih =>
    intro state state' src rest hlast h
    obtain ⟨state₁, mid, hstep, hloop⟩ := bind_ok h
    obtain ⟨e, mid', he, hplace⟩ := bind_ok hstep
    obtain ⟨rfl, hentries, hlast₁⟩ := placeEntry_ok hlast hplace
    obtain ⟨es, hlen, hes, rfl⟩ := ih state₁ state' mid rest hlast₁ hloop
    refine ⟨e :: es, by rw [List.length_cons, hlen], ?_, ?_⟩
    · rw [hes, hentries, List.append_assoc]
      rfl
    · rw [hread src e _ he, List.flatMap_cons, List.append_assoc]

theorem readMap_ok {encode : κ × ν → Bytes} {read : Source (κ × ν)} {minBytes : Nat}
    {m : SortedMap κ ν} (hread : ∀ src e rest, read src = .ok (e, rest) → src = encode e ++ rest)
    (h : readMap minBytes read outOfOrder src = .ok (m, rest)) :
    src = writeMap encode m ++ rest := by
  obtain ⟨count, mid, hcount, h⟩ := bind_ok h
  obtain ⟨state, mid', hloop, h⟩ := bind_ok h
  obtain ⟨rfl, rfl⟩ := pure_ok h
  obtain ⟨es, rfl, hes, rfl⟩ := times_readEntry_ok hread count (none, .empty) state mid _ rfl hloop
  have hentries : state.2.entries = es := hes
  rw [readSeqLen_ok hcount, writeMap, hentries, List.append_assoc]

end Collections

theorem readItem_ok {e : Str × Unit} (h : MachineShape.readItem ptr src = .ok (e, rest)) :
    src = MachineShape.encodeItem e ++ rest := by
  obtain ⟨item, mid, hitem, h⟩ := bind_ok h
  obtain ⟨rfl, rfl⟩ := pure_ok h
  exact readStr_ok hitem

theorem readDevice_ok {e : Str × Str} (h : MachineShape.readDevice ptr src = .ok (e, rest)) :
    src = MachineShape.encodeDevice e ++ rest := by
  obtain ⟨path, mid, hpath, h⟩ := bind_ok h
  obtain ⟨cls, mid', hcls, h⟩ := bind_ok h
  obtain ⟨rfl, rfl⟩ := pure_ok h
  rw [readStr_ok hpath, readStr_ok hcls, MachineShape.encodeDevice, List.append_assoc]

theorem readRegion_ok {e : RegionShape × Unit} (h : MachineShape.readRegion ptr src = .ok (e, rest))
    : src = MachineShape.encodeRegion e ++ rest := by
  obtain ⟨space, mid, hspace, h⟩ := bind_ok h
  obtain ⟨base, mid₁, hbase, h⟩ := bind_ok h
  obtain ⟨size, mid₂, hsize, h⟩ := bind_ok h
  obtain ⟨name, mid₃, hname, h⟩ := bind_ok h
  obtain ⟨rfl, rfl⟩ := pure_ok h
  obtain ⟨hbase, hbase64⟩ := readU64_ok hbase
  obtain ⟨hsize, hsize64⟩ := readU64_ok hsize
  rw [readStr_ok hspace, hbase, hsize, readStr_ok hname]
  simp only [MachineShape.encodeRegion, UInt64.toNat_ofNat_of_lt' hbase64,
    UInt64.toNat_ofNat_of_lt' hsize64, List.append_assoc]

theorem readStringSet_ok {what : String} {set : SortedMap Str Unit}
    (h : MachineShape.readStringSet ptr what src = .ok (set, rest)) :
    src = MachineShape.writeStringSet set ++ rest :=
  readMap_ok (fun _ _ _ => readItem_ok) h

theorem decodeFrom_ok {m : MachineShape} (h : MachineShape.decodeFrom ptr src = .ok (m, rest)) :
    src = m.encodeInto ++ rest := by
  obtain ⟨devices, mid, hdevices, h⟩ := bind_ok h
  obtain ⟨regions, mid₁, hregions, h⟩ := bind_ok h
  obtain ⟨features, mid₂, hfeatures, h⟩ := bind_ok h
  obtain ⟨arches, mid₃, harches, h⟩ := bind_ok h
  obtain ⟨rfl, rfl⟩ := pure_ok h
  have hdevices := readMap_ok (fun _ _ _ => readDevice_ok) hdevices
  have hregions := readMap_ok (fun _ _ _ => readRegion_ok) hregions
  rw [hdevices, hregions, readStringSet_ok hfeatures, readStringSet_ok harches]
  simp only [MachineShape.encodeInto, List.append_assoc]

def headerBytes : Bytes :=
  magic ++ (writeU32 formatVersion ++ (writeU16 0 ++ writeU16 0))

theorem readHeader_ok {header : Nat × Nat} (h : StateReader.readHeader src = .ok (header, rest)) :
    src = headerBytes ++ rest ∧ header = (0, 0) := by
  obtain ⟨found, mid, hfound, h⟩ := bind_ok h
  obtain ⟨_, mid₁, hmagic, h⟩ := bind_ok h
  obtain ⟨format, mid₂, hformat, h⟩ := bind_ok h
  obtain ⟨_, mid₃, hversion, h⟩ := bind_ok h
  obtain ⟨codec, mid₄, hcodec, h⟩ := bind_ok h
  obtain ⟨_, mid₅, hstored, h⟩ := bind_ok h
  obtain ⟨integrity, mid₆, hintegrity, h⟩ := bind_ok h
  obtain ⟨_, mid₇, hnone, h⟩ := bind_ok h
  obtain ⟨rfl, rfl⟩ := pure_ok h
  obtain ⟨hm, rfl⟩ := refuse_ok hmagic
  obtain ⟨hv, rfl⟩ := refuse_ok hversion
  obtain ⟨hs, rfl⟩ := refuse_ok hstored
  obtain ⟨hn, rfl⟩ := refuse_ok hnone
  obtain rfl : found = magic := by simpa using hm
  obtain rfl : format = formatVersion := by simpa using hv
  obtain rfl : codec = 0 := by simpa using hs
  obtain rfl : integrity = 0 := by simpa using hn
  refine ⟨?_, rfl⟩
  rw [(take_ok hfound).1, (readU32_ok hformat).1, readU16_ok hcodec, readU16_ok hintegrity]
  simp only [headerBytes, List.append_assoc]

theorem readChunk_ok {c : RawChunk} (h : StateReader.readChunk ptr src = .ok (c, rest)) :
    src = writeStr c.path ++ (writeStr c.cls ++ (writeU32 c.version.toNat ++
      writeBytes c.data)) ++ rest := by
  obtain ⟨path, mid, hpath, h⟩ := bind_ok h
  obtain ⟨cls, mid₁, hcls, h⟩ := bind_ok h
  obtain ⟨version, mid₂, hversion, h⟩ := bind_ok h
  obtain ⟨data, mid₃, hdata, h⟩ := bind_ok h
  obtain ⟨rfl, rfl⟩ := pure_ok h
  obtain ⟨hversion, hversion32⟩ := readU32_ok hversion
  rw [readStr_ok hpath, readStr_ok hcls, hversion, readBytes_ok hdata]
  simp only [UInt32.toNat_ofNat_of_lt' hversion32, List.append_assoc]

def RawChunk.entry (c : RawChunk) : Str × PendingChunk := (c.path, ⟨c.cls, c.version, c.data⟩)

/-- Each chunk's path comes after the one before it. -/
def PathsAscend (cs : List RawChunk) : Prop := cs.Pairwise fun c d => c.path < d.path

theorem pushChunk_ok {chunks chunks' : List RawChunk} {c : RawChunk} (hasc : PathsAscend chunks)
    (h : StateReader.pushChunk chunks c src = .ok (chunks', rest)) :
    rest = src ∧ chunks' = chunks ++ [c] ∧ PathsAscend chunks' := by
  have hpush : rest = src ∧ chunks' = chunks ++ [c] ∧ ∀ d ∈ chunks, d.path < c.path := by
    unfold StateReader.pushChunk at h
    cases hl : chunks.getLast? with
    | none =>
      rw [hl] at h
      obtain ⟨rfl, rfl⟩ := pure_ok h
      refine ⟨rfl, rfl, ?_⟩
      rw [List.getLast?_eq_none_iff.mp hl]
      exact fun d hd => absurd hd (by simp)
    | some l =>
      rw [hl] at h
      dsimp only at h
      split at h
      · exact absurd h (by simp [fail])
      · rename_i hle
        obtain ⟨rfl, rfl⟩ := pure_ok h
        refine ⟨rfl, rfl, fun d hd => ?_⟩
        obtain ⟨pre, rfl⟩ : ∃ pre, chunks = pre ++ [l] := List.getLast?_eq_some_iff.mp hl
        rcases List.mem_append.mp hd with hd | hd
        · have hdl := (List.pairwise_append.mp hasc).2.2 d hd l (List.mem_singleton_self l)
          exact lt_trans hdl (not_le.mp hle)
        · rw [List.mem_singleton.mp hd]
          exact not_le.mp hle
  obtain ⟨hrest, rfl, hbelow⟩ := hpush
  refine ⟨hrest, rfl, List.pairwise_append.mpr ⟨hasc, List.pairwise_singleton _ _, ?_⟩⟩
  intro d hd e he
  rw [List.mem_singleton.mp he]
  exact hbelow d hd

theorem readChunks_ok : ∀ (fuel : Nat) (chunks chunks' : List RawChunk) (src rest : Bytes),
    PathsAscend chunks → StateReader.readChunks ptr fuel chunks src = .ok (chunks', rest) →
    ∃ cs, chunks' = chunks ++ cs ∧ PathsAscend chunks' ∧
      src = StateWriter.encodeChunks (cs.map RawChunk.entry) ++ rest := by
  intro fuel
  induction fuel with
  | zero =>
    intro chunks chunks' src rest _ h
    exact absurd h (by simp [StateReader.readChunks, fail])
  | succ fuel ih =>
    intro chunks chunks' src rest hasc h
    obtain ⟨tag, mid, htag, h⟩ := bind_ok h
    have hsrc := readU8_ok htag
    split at h
    · rename_i hend
      obtain ⟨rfl, rfl⟩ := pure_ok h
      refine ⟨[], (List.append_nil _).symm, hasc, ?_⟩
      rw [hsrc, hend]
      rfl
    · split at h
      · rename_i hchunk
        obtain ⟨c, mid₁, hc, h⟩ := bind_ok h
        obtain ⟨chunks₁, mid₂, hpush, h⟩ := bind_ok h
        obtain ⟨rfl, rfl, hasc₁⟩ := pushChunk_ok hasc hpush
        obtain ⟨cs, rfl, hasc', hrest⟩ := ih _ chunks' _ rest hasc₁ h
        refine ⟨c :: cs, by simp, hasc', ?_⟩
        rw [hsrc, hchunk, readChunk_ok hc, hrest]
        simp [StateWriter.encodeChunks, StateWriter.encodeChunk, RawChunk.entry]
      · exact absurd h (by simp [fail])

theorem new_ok {bytes : Bytes} {r : StateReader} (h : StateReader.new ptr bytes = .ok r) :
    PathsAscend r.chunks ∧ bytes = headerBytes ++ (r.shape.encodeInto ++
      StateWriter.encodeChunks (r.chunks.map RawChunk.entry)) := by
  unfold StateReader.new at h
  cases hsource : StateReader.fromSource ptr bytes with
  | error e => rw [hsource] at h; exact absurd h (by simp [Except.map])
  | ok rr =>
    rw [hsource] at h
    cases h
    obtain ⟨r, rest⟩ := rr
    obtain ⟨header, mid, hheader, h⟩ := bind_ok hsource
    obtain ⟨shape, mid₁, hshape, h⟩ := bind_ok h
    obtain ⟨fuel, mid₂, hfuel, h⟩ := bind_ok h
    obtain ⟨chunks, mid₃, hchunks, h⟩ := bind_ok h
    obtain ⟨left, mid₄, hleft, h⟩ := bind_ok h
    obtain ⟨_, mid₅, htrailing, h⟩ := bind_ok h
    obtain ⟨rfl, rfl⟩ := pure_ok h
    obtain ⟨ht, rfl⟩ := refuse_ok htrailing
    obtain ⟨rfl, rfl⟩ := remaining_ok hleft
    obtain ⟨-, rfl⟩ := remaining_ok hfuel
    obtain ⟨cs, rfl, hasc, hcs⟩ := readChunks_ok _ [] chunks _ _ List.Pairwise.nil hchunks
    have hnothing : rest = [] := by simpa using ht
    rw [hnothing, List.append_nil] at hcs
    refine ⟨hasc, ?_⟩
    rw [(readHeader_ok hheader).1, decodeFrom_ok hshape, hcs]

theorem performing_readBytes : Performing (readBytes ptr) := by
  refine (performing_readLe _ _).bind fun len => Performing.bind ?_ fun _ => performing_take _ _
  unfold wireLen
  split
  · exact performing_pure _
  · exact performing_fail _

theorem performing_readStr : Performing (readStr ptr) := by
  refine performing_readBytes.bind fun bytes => ?_
  cases Str.fromUtf8 bytes with
  | some s => exact performing_pure s
  | none => exact performing_fail _

theorem performing_readSeqLen (minBytes : Nat) : Performing (readSeqLen minBytes) := by
  refine (performing_readLe _ _).bind fun count => ?_
  dsimp only
  split
  · exact performing_fail _
  · refine performing_remaining.bind fun remain => ?_
    split
    · exact performing_fail _
    · exact performing_pure _

theorem performing_readMap {κ ν : Type} [LinearOrder κ] {minBytes : Nat} {read : Source (κ × ν)}
    {outOfOrder : κ → κ → StateError} (hread : Performing read) :
    Performing (readMap minBytes read outOfOrder) := by
  refine (performing_readSeqLen _).bind fun count => Performing.bind ?_ fun _ => performing_pure _
  refine Performing.times (fun state => hread.bind fun e => ?_) _ _
  unfold placeEntry
  split
  · split
    · exact performing_fail _
    · exact performing_pure _
  · exact performing_pure _

theorem performing_decodeFrom : Performing (MachineShape.decodeFrom ptr) := by
  have hitem : Performing (MachineShape.readItem ptr) :=
    performing_readStr.bind fun _ => performing_pure _
  have hdevice : Performing (MachineShape.readDevice ptr) :=
    performing_readStr.bind fun _ => performing_readStr.bind fun _ => performing_pure _
  have hregion : Performing (MachineShape.readRegion ptr) :=
    performing_readStr.bind fun _ => (performing_readLe _ _).bind fun _ =>
      (performing_readLe _ _).bind fun _ => performing_readStr.bind fun _ => performing_pure _
  exact (performing_readMap hdevice).bind fun _ => (performing_readMap hregion).bind fun _ =>
    (performing_readMap hitem).bind fun _ => (performing_readMap hitem).bind fun _ =>
      performing_pure _

theorem performing_readHeader : Performing StateReader.readHeader :=
  (performing_take _ _).bind fun _ => (performing_refuse _ _).bind fun _ =>
    (performing_readLe _ _).bind fun _ => (performing_refuse _ _).bind fun _ =>
      (performing_readLe _ _).bind fun _ => (performing_refuse _ _).bind fun _ =>
        (performing_readLe _ _).bind fun _ => (performing_refuse _ _).bind fun _ =>
          performing_pure _

theorem performing_readChunks : ∀ (fuel : Nat) (chunks : List RawChunk),
    Performing (StateReader.readChunks ptr fuel chunks) := by
  intro fuel
  induction fuel with
  | zero => exact fun chunks => performing_fail _
  | succ fuel ih =>
    intro chunks
    refine (performing_readLe _ _).bind fun tag => ?_
    split
    · exact performing_pure _
    · split
      · have hchunk : Performing (StateReader.readChunk ptr) :=
          performing_readStr.bind fun _ => performing_readStr.bind fun _ =>
            (performing_readLe _ _).bind fun _ => performing_readBytes.bind fun _ =>
              performing_pure _
        refine hchunk.bind fun c => Performing.bind ?_ ih
        unfold StateReader.pushChunk
        split
        · split
          · exact performing_fail _
          · exact performing_pure _
        · exact performing_pure _
      · exact performing_fail _

theorem performing_fromSource : Performing (StateReader.fromSource ptr) :=
  performing_readHeader.bind fun _ => performing_decodeFrom.bind fun _ =>
    performing_remaining.bind fun _ => (performing_readChunks _ _).bind fun _ =>
      performing_remaining.bind fun _ => (performing_refuse _ _).bind fun _ => performing_pure _

end Reading

def StateWriter.rawChunk (w : StateWriter) (path cls : Str) (version : UInt32) (data : Bytes) :
    Except StateError StateWriter :=
  w.addChunk ⟨path, cls, version, [data]⟩

def StateReader.rewrite (r : StateReader) : Except StateError StateWriter :=
  r.chunks.foldlM (fun w c => w.rawChunk c.path c.cls c.version c.data) (StateWriter.new r.shape)

def RawChunk.again (c : RawChunk) : Chunk := ⟨c.path, c.cls, c.version, [c.data]⟩

theorem rewrite_eq (r : StateReader) :
    r.rewrite = (StateWriter.new r.shape).addChunks (r.chunks.map RawChunk.again) := by
  rw [StateReader.rewrite, StateWriter.addChunks, List.foldlM_map]
  rfl

theorem addChunks_named : ∀ (cs : List Chunk) {w v : StateWriter}, w.addChunks cs = .ok v →
    ∀ c ∈ cs, c.path.text ≠ "" := by
  intro cs
  induction cs with
  | nil => exact fun _ c hc => absurd hc (by simp)
  | cons d cs ih =>
    intro w v h c hc
    change (w.addChunk d).bind (fun w => w.addChunks cs) = .ok v at h
    cases hd : w.addChunk d with
    | error e => rw [hd] at h; exact absurd h (by simp [Except.bind])
    | ok w' =>
      rw [hd] at h
      rcases List.mem_cons.mp hc with rfl | hc
      · exact (addChunk_eq_ok.mp hd).2.1
      · exact ih h c hc

theorem rewrite_toVec {r : StateReader} (hasc : PathsAscend r.chunks)
    (hnamed : ∀ c ∈ r.chunks, c.path.text ≠ "") :
    ∃ w, r.rewrite = .ok w ∧ w.toVec = headerBytes ++ (r.shape.encodeInto ++
      StateWriter.encodeChunks (r.chunks.map RawChunk.entry)) := by
  have hpaths : ((r.chunks.map RawChunk.again).map (·.path)).Nodup := by
    rw [List.map_map]
    exact (List.pairwise_map.mpr hasc).imp ne_of_lt
  have hne : ∀ c ∈ r.chunks.map RawChunk.again, c.path.text ≠ "" := by
    intro c hc
    obtain ⟨d, hd, rfl⟩ := List.mem_map.mp hc
    exact hnamed d hd
  obtain ⟨w, hw, hshape, hcodec, hint, hin, hout⟩ :=
    addChunks_ok _ (StateWriter.new r.shape) hpaths hne fun _ _ => rfl
  -- the writer's map is the list of decoded chunks, since it answers every path alike
  let m : SortedMap Str PendingChunk :=
    ⟨r.chunks.map RawChunk.entry, List.pairwise_map.mpr hasc⟩
  have hchunks : w.chunks = m := by
    refine SortedMap.ext_get fun p => ?_
    by_cases hp : p ∈ (r.chunks.map RawChunk.again).map (·.path)
    · obtain ⟨c, hc, rfl⟩ := List.mem_map.mp hp
      rw [hin c hc]
      obtain ⟨d, hd, rfl⟩ := List.mem_map.mp hc
      refine (SortedMap.get_eq_some.mpr ?_).symm
      refine List.mem_map.mpr ⟨d, hd, ?_⟩
      simp [RawChunk.entry, RawChunk.again, Chunk.pending, Chunk.payload]
    · rw [hout p hp]
      refine (SortedMap.get_eq_none.mpr fun hk => hp ?_).symm
      obtain ⟨e, he, rfl⟩ := List.mem_map.mp hk
      obtain ⟨d, hd, rfl⟩ := List.mem_map.mp he
      exact List.mem_map.mpr ⟨d.again, List.mem_map_of_mem hd, rfl⟩
  refine ⟨w, (rewrite_eq r).trans hw, ?_⟩
  rw [StateWriter.toVec, hshape, hcodec, hint, hchunks]
  rfl

/-- A snapshot whose first chunk has the empty instance path. -/
def UnnamedFirst (bytes : Bytes) : Prop :=
  ∃ (shape : MachineShape) (rest : Bytes),
    bytes = headerBytes ++ (shape.encodeInto ++ (writeU8 tagChunk ++ (writeStr ⟨""⟩ ++ rest)))

theorem Str.not_lt_empty (p : Str) : ¬ p < ⟨""⟩ := by
  intro h
  change p.key < Str.key ⟨""⟩ at h
  exact absurd h (by rw [show Str.key ⟨""⟩ = [] from rfl]; exact List.not_lt_nil _)

theorem unnamed_first {cs : List RawChunk} (hasc : PathsAscend cs) {c : RawChunk} (hc : c ∈ cs)
    (hempty : c.path.text = "") : ∃ rest, cs = c :: rest := by
  obtain ⟨pre, post, rfl⟩ := List.append_of_mem hc
  cases pre with
  | nil => exact ⟨post, rfl⟩
  | cons d pre =>
    have hlt := (List.pairwise_append.mp hasc).2.2 d (List.mem_cons_self ..) c
      (List.mem_cons_self ..)
    have hpath : c.path = ⟨""⟩ := congrArg Str.mk hempty
    rw [hpath] at hlt
    exact absurd hlt (Str.not_lt_empty d.path)

theorem encodeInto_front {ptr : Nat} (hptr : ptr ≤ 64) {m n : MachineShape} {x y : Bytes}
    (hm : (m.encodeInto ++ x).length < 2 ^ ptr) (h : m.encodeInto ++ x = n.encodeInto ++ y) :
    x = y := by
  have hn := hm
  rw [h, List.length_append] at hn
  rw [List.length_append] at hm
  have hx := reads_shape (m := m) hptr (by omega) x
  have hy := reads_shape (m := n) hptr (by omega) y
  rw [h, hy] at hx
  cases hx
  rfl

theorem writeStr_front {ptr : Nat} (hptr : ptr ≤ 64) {s t : Str} {x y : Bytes}
    (hs : (writeStr s ++ x).length < 2 ^ ptr) (h : writeStr s ++ x = writeStr t ++ y) : s = t := by
  have ht := hs
  rw [h, List.length_append, length_writeStr] at ht
  rw [List.length_append, length_writeStr] at hs
  have hx := reads_str (s := s) hptr (by omega) x
  have hy := reads_str (s := t) hptr (by omega) y
  rw [h, hy] at hx
  cases hx
  rfl

theorem head_of_unnamedFirst {ptr : Nat} (hptr : ptr ≤ 64) {bytes : Bytes}
    (hlen : bytes.length < 2 ^ ptr) {m : MachineShape} (cs : List RawChunk)
    (hbytes : bytes = headerBytes ++ (m.encodeInto ++
      StateWriter.encodeChunks (cs.map RawChunk.entry)))
    (h : UnnamedFirst bytes) : ∃ c ∈ cs, c.path.text = "" := by
  obtain ⟨n, rest, hfirst⟩ := h
  have hsame := List.append_cancel_left (hbytes.symm.trans hfirst)
  rw [hbytes, List.length_append] at hlen
  have hchunks := encodeInto_front hptr (by omega) hsame
  cases cs with
  | nil =>
    exact absurd hchunks (by simp [StateWriter.encodeChunks, writeU8, leBytes, tagEnd, tagChunk])
  | cons c cs =>
    refine ⟨c, List.mem_cons_self .., ?_⟩
    simp only [List.map_cons, StateWriter.encodeChunks, List.flatMap_cons,
      StateWriter.encodeChunk, List.append_assoc, List.length_append] at hchunks hlen
    have hpath := List.append_cancel_left hchunks
    have heq := writeStr_front hptr (by simp only [List.length_append]; omega) hpath
    exact congrArg Str.text heq

/--
**When a snapshot is its own encoding.** Parsing reads nothing it has not checked is
there, whatever the bytes; and bytes that are accepted are written again, byte for
byte, from the shape and the chunks they were decoded into, unless the first chunk has
the empty path. `ptr` is the width of the host's `usize`, which the input's length fits.
-/
theorem snapshot_reencodes_iff {ptr : Nat} (hptr : ptr ≤ 64) {bytes : Bytes}
    (hlen : bytes.length < 2 ^ ptr) :
    (∃ reads, Performs (StateReader.fromSource ptr) bytes reads
        (StateReader.fromSource ptr bytes) ∧
      (∀ x ∈ reads, x.1 ≤ x.2) ∧ (reads.map (·.1)).sum ≤ bytes.length) ∧
    ∀ r, StateReader.new ptr bytes = .ok r →
      ((∃ w, r.rewrite = .ok w ∧ w.toVec = bytes) ↔ ¬ UnnamedFirst bytes) := by
  constructor
  · obtain ⟨reads, r, hr⟩ := @performing_fromSource ptr bytes
    obtain ⟨hfit, hsum, -⟩ := hr.checked
    exact ⟨reads, by rw [hr.result]; exact hr, hfit, hsum⟩
  · intro r hr
    obtain ⟨hasc, hbytes⟩ := new_ok hr
    constructor
    · rintro ⟨w, hw, -⟩ hfirst
      obtain ⟨c, hc, hempty⟩ := head_of_unnamedFirst hptr hlen _ hbytes hfirst
      rw [rewrite_eq] at hw
      exact addChunks_named _ hw c.again (List.mem_map_of_mem hc) hempty
    · intro hfirst
      have hnamed : ∀ c ∈ r.chunks, c.path.text ≠ "" := by
        intro c hc hempty
        obtain ⟨rest, hcs⟩ := unnamed_first hasc hc hempty
        have hpath : c.path = ⟨""⟩ := congrArg Str.mk hempty
        refine hfirst ⟨r.shape, ?_, ?_⟩
        rotate_left
        · rw [hbytes, hcs]
          simp only [List.map_cons, StateWriter.encodeChunks, List.flatMap_cons,
            StateWriter.encodeChunk, RawChunk.entry, hpath, List.append_assoc]
          rfl
      obtain ⟨w, hw, hvec⟩ := rewrite_toVec hasc hnamed
      exact ⟨w, hw, hvec.trans hbytes.symm⟩

def oneChunk (path : Str) : Bytes :=
  headerBytes ++ (MachineShape.new.encodeInto ++
    StateWriter.encodeChunks [(path, ⟨⟨"mem.ram"⟩, 1, [7]⟩)])

theorem oneChunk_accepted : ∃ r, StateReader.new 64 (oneChunk ⟨"/ram"⟩) = .ok r ∧
    ∃ w, r.rewrite = .ok w ∧ w.toVec = oneChunk ⟨"/ram"⟩ := by
  have hok : (StateReader.new 64 (oneChunk ⟨"/ram"⟩)).toOption.isSome = true := by decide
  cases hr : StateReader.new 64 (oneChunk ⟨"/ram"⟩) with
  | error e => rw [hr] at hok; exact absurd hok (by simp [Except.toOption])
  | ok r =>
    refine ⟨r, rfl, ?_⟩
    have hlen : (oneChunk ⟨"/ram"⟩).length < 2 ^ 64 := by decide
    refine ((snapshot_reencodes_iff (Nat.le_refl 64) hlen).2 r hr).mpr fun hfirst => ?_
    have hpath := head_of_unnamedFirst (Nat.le_refl 64) hlen (m := MachineShape.new)
      [⟨⟨"/ram"⟩, ⟨"mem.ram"⟩, 1, [7]⟩] rfl hfirst
    exact absurd hpath (by decide)

/-- A chunk with the empty path is accepted, and cannot be written again. -/
theorem unnamed_chunk_not_rewritten : ∃ r, StateReader.new 64 (oneChunk ⟨""⟩) = .ok r ∧
    ¬ ∃ w, r.rewrite = .ok w ∧ w.toVec = oneChunk ⟨""⟩ := by
  have hok : (StateReader.new 64 (oneChunk ⟨""⟩)).toOption.all
      (fun r => !r.rewrite.toOption.isSome) = true ∧
      (StateReader.new 64 (oneChunk ⟨""⟩)).toOption.isSome = true := by
    decide
  cases hr : StateReader.new 64 (oneChunk ⟨""⟩) with
  | error e => rw [hr] at hok; exact absurd hok.2 (by simp [Except.toOption])
  | ok r =>
    refine ⟨r, rfl, ?_⟩
    rintro ⟨w, hw, -⟩
    rw [hr] at hok
    exact absurd hok.1 (by simp [Except.toOption, hw])

end Rsemu.State
