import Rsemu.Mac.Marks

/-!
# Decoding what was encoded

A byte is read back wherever a word was laid down, so a field is read back where it stands.
The walk over the marks takes a sector's two runs of three one after the other: the first
leaves the ID field waiting (`scan_id`), the second adds the sector (`scan_data`), and by
induction over the sectors the whole track comes back.
-/

namespace Rsemu.Mac

open Mfm (Entry shiftIn around)

variable {ws : List Word} {t : Track}

theorem readByte_word (hbits : t.bits = Mfm.cells false (entries ws)) {k : Nat} {w : Word}
    (hk : ws[k]? = some w) : readByte t (16 * k) = some w.byte := by
  have hkl : k < ws.length := (List.getElem?_eq_some_iff.mp hk).1
  have hpos : 0 < (entries ws).length := entries_pos (by omega)
  have hlen : t.len = 16 * ws.length := by
    unfold Track.len
    rw [hbits, Mfm.length_cells, length_entries]
    omega
  have hbit : ∀ n, n < 8 → t.bit (16 * k + n * 2 + 1) = w.byte.getLsbD (7 - n) := by
    intro n hn
    have hcell := (Mfm.ring (entries ws) hpos).data (8 * k + n)
    rw [t.bit_eq, hbits, show 16 * k + n * 2 + 1 = 2 * (8 * k + n) + 1 by omega]
    exact hcell.trans (data_word hk hn 0 (by omega))
  unfold readByte
  rw [if_neg (by omega)]
  refine congrArg some (BitVec.eq_of_getLsbD_eq fun j hj => ?_)
  have hfold : (List.range 8).foldl (fun byte n => shiftIn byte (t.bit (16 * k + n * 2 + 1)))
      (0 : Byte) = ((List.range 8).map fun n => t.bit (16 * k + n * 2 + 1)).foldl shiftIn 0 := by
    rw [List.foldl_map]
  rw [hfold, Mfm.getLsbD_foldl_shiftIn _ _ _ hj, List.length_map, List.length_range, if_pos hj,
    List.getD_eq_getElem?_getD, List.getElem?_map, List.getElem?_range (by omega)]
  change t.bit (16 * k + (8 - 1 - j) * 2 + 1) = _
  rw [hbit _ (by omega)]
  congr 1
  omega

theorem drop_append {k : Nat} {xs rest : List Word} (h : ws.drop k = xs ++ rest) :
    ws.drop (k + xs.length) = rest := by
  rw [← List.drop_drop, h, List.drop_left]

/-- **Words stand on a track** where their bytes are read, one after the other. -/
def Track.Holds (t : Track) (at_ : Nat) (xs : List Word) : Prop :=
  ∀ i w, xs[i]? = some w → readByte t (at_ + 16 * i) = some w.byte

namespace Track.Holds

variable {at_ : Nat} {xs ys : List Word}

theorem of_drop (hbits : t.bits = Mfm.cells false (entries ws)) {k : Nat} {rest : List Word}
    (h : ws.drop k = xs ++ rest) : t.Holds (16 * k) xs := by
  intro i w hi
  have hk : ws[k + i]? = some w := by
    rw [← List.getElem?_drop, h,
      List.getElem?_append_left (List.getElem?_eq_some_iff.mp hi).1, hi]
  rw [show 16 * k + 16 * i = 16 * (k + i) by omega]
  exact readByte_word hbits hk

theorem head {w : Word} (h : t.Holds at_ (w :: xs)) : readByte t at_ = some w.byte := h 0 w rfl

theorem tail {w : Word} (h : t.Holds at_ (w :: xs)) : t.Holds (at_ + 16) xs := by
  intro i w' hi
  have := h (i + 1) w' hi
  rwa [show at_ + 16 * (i + 1) = at_ + 16 + 16 * i by omega] at this

theorem left (h : t.Holds at_ (xs ++ ys)) : t.Holds at_ xs := by
  intro i w hi
  refine h i w ?_
  rw [List.getElem?_append_left (List.getElem?_eq_some_iff.mp hi).1, hi]

theorem right (h : t.Holds at_ (xs ++ ys)) : t.Holds (at_ + 16 * xs.length) ys := by
  intro i w hi
  have := h (xs.length + i) w (by
    rw [List.getElem?_append_right (Nat.le_add_right _ _), Nat.add_sub_cancel_left, hi])
  rwa [show at_ + 16 * (xs.length + i) = at_ + 16 * xs.length + 16 * i by omega] at this

theorem readBytes {bs : List Byte} (h : t.Holds at_ (bs.map plain)) :
    readBytes t at_ bs.length = bs := by
  induction bs generalizing at_ with
  | nil => rfl
  | cons b bs ih =>
    rw [List.length_cons, Mac.readBytes, h.head]
    exact congrArg (b :: ·) (ih h.tail)

end Track.Holds

theorem crc_split (x : BitVec 16) :
    (((x >>> 8).setWidth 8 : Byte).setWidth 16 <<< 8) ||| ((x.setWidth 8 : Byte).setWidth 16) =
      x := by
  refine BitVec.eq_of_getLsbD_eq fun j hj => ?_
  rw [BitVec.getLsbD_or, BitVec.getLsbD_shiftLeft]
  simp only [BitVec.getLsbD_setWidth, BitVec.getLsbD_ushiftRight]
  by_cases h : j < 8
  · simp [h, hj]
  · have h8 : j - 8 < 16 := by omega
    have h8' : j - 8 < 8 := by omega
    simp [h, hj, h8, h8', show 8 + (j - 8) = j by omega]

theorem Track.Holds.readCrc {at_ : Nat} {x : BitVec 16} (h : t.Holds at_ (crcWords x)) :
    readCrc t at_ = some x := by
  have hlo := h.tail.head
  unfold Mac.readCrc
  rw [h.head, hlo]
  exact congrArg some (crc_split x)

theorem length_idWords (s : Sector) : (idWords s).length = 7 := by
  simp [idWords, Sector.id, crcWords]

variable {s : Sector}

theorem length_dataWords (h : s.data.length = dataBytes) : (dataWords s).length = 515 := by
  simp [dataWords, crcWords, h, dataBytes]

theorem scan_id {at_ : Nat} (h : t.Holds at_ (idWords s)) (scan : Scan) :
    scan.field t at_ = { scan with pending := some (Sector.ofId s.id) } := by
  have hid : readBytes t (at_ + 16) 4 = s.id := h.tail.left.readBytes
  have hcrc : readCrc t (at_ + 16 * 5) = some (crc16 0xffff (idHead s.id)) := h.tail.right.readCrc
  have hlist : ((List.range 4).map fun n => s.id.getD n 0) = s.id := rfl
  unfold Scan.field
  rw [h.head]
  change (if idam = idam then scan.id t at_ else _) = _
  rw [if_pos rfl]
  unfold Scan.id
  simp only [hid, hlist, hcrc]
  rw [if_neg (not_not_intro rfl)]

theorem dataLen (hsize : s.sizeCode = 2) :
    min dataBytes (128 <<< min (Sector.ofId s.id).sizeCode.toNat 6) = dataBytes := by
  have : (Sector.ofId s.id).sizeCode = 2 := hsize
  rw [this]
  decide

theorem field_data {at_ : Nat} (h : t.Holds at_ (dataWords s)) (scan : Scan) :
    scan.field t at_ = scan.data t at_ s.mark := by
  unfold Scan.field
  rw [h.head]
  change (if s.mark = idam then _ else if s.mark = dam ∨ s.mark = ddam then _ else _) = _
  have hne : s.mark ≠ idam := by
    unfold Sector.mark
    split <;> decide
  have hor : s.mark = dam ∨ s.mark = ddam := by
    unfold Sector.mark
    split
    · exact .inr rfl
    · exact .inl rfl
  rw [if_neg hne, if_pos hor]
  rfl

theorem scan_data {at_ : Nat} (h : t.Holds at_ (dataWords s)) (hsize : s.sizeCode = 2)
    (hdata : s.data.length = dataBytes) {scan : Scan}
    (hpending : scan.pending = some (Sector.ofId s.id))
    (hnew : ∀ f ∈ scan.found, f.sector ≠ s.sector) :
    scan.field t at_ = { scan with pending := none, found := scan.found ++ [s] } := by
  have hread : readBytes t (at_ + 16) dataBytes = s.data := by
    have := h.tail.left.readBytes
    rwa [hdata] at this
  have hcrc : readCrc t (at_ + 16 * (dataBytes + 1)) = some (dataCrc s.mark s.data) := by
    have := h.tail.right.readCrc
    rwa [List.length_map, hdata, show at_ + 16 + 16 * dataBytes = at_ + 16 * (dataBytes + 1) by
      omega] at this
  have hdeleted : decide (s.mark = ddam) = s.deleted := by
    unfold Sector.mark
    cases s.deleted <;> decide
  have hfresh : (scan.found.any fun f => decide (f.sector = (Sector.ofId s.id).sector)) = false := by
    rw [List.any_eq_false]
    intro f hf
    have hne : f.sector ≠ (Sector.ofId s.id).sector := hnew f hf
    simpa using hne
  have hsector : { Sector.ofId s.id with deleted := decide (s.mark = ddam), data := s.data } = s := by
    rw [hdeleted]
    rfl
  rw [field_data h]
  unfold Scan.data
  rw [hpending]
  simp only [dataLen hsize, hread, hcrc]
  rw [if_neg (not_not_intro hdata), if_neg (not_not_intro rfl), if_neg (by rw [hfresh]; decide),
    hsector]

def ends (o : Nat) (ws : List Word) : List Nat := (a1Cells o ws).map (· + 16)

theorem ends_append (o : Nat) (xs ys : List Word) :
    ends o (xs ++ ys) = ends o xs ++ ends (o + xs.length) ys := by
  unfold ends
  rw [a1Cells_append, List.map_append]

theorem ends_plain (o : Nat) (h : ∀ w ∈ ws, w.sync = false) : ends o ws = [] := by
  unfold ends
  rw [a1Cells_plain o h, List.map_nil]

theorem sync_of_mem_replicate {n : Nat} {b : Byte} {w : Word}
    (h : w ∈ List.replicate n (plain b)) : w.sync = false := by
  rw [List.eq_of_mem_replicate h]
  rfl

theorem sync_of_mem_crcWords {x : BitVec 16} {w : Word} (h : w ∈ crcWords x) : w.sync = false := by
  simp only [crcWords, List.mem_cons, List.not_mem_nil, or_false] at h
  rcases h with rfl | rfl <;> rfl

theorem sync_of_mem_idWords {w : Word} (h : w ∈ idWords s) : w.sync = false := by
  rcases List.mem_cons.mp h with rfl | h
  · rfl
  · rcases List.mem_append.mp h with h | h
    · exact sync_of_mem_map h
    · exact sync_of_mem_crcWords h

theorem sync_of_mem_dataWords {w : Word} (h : w ∈ dataWords s) : w.sync = false := by
  rcases List.mem_cons.mp h with rfl | h
  · rfl
  · rcases List.mem_append.mp h with h | h
    · exact sync_of_mem_map h
    · exact sync_of_mem_crcWords h

theorem length_preambleWords (b : Byte) : (preambleWords b).length = 15 := by
  simp [preambleWords, syncBytes]

theorem ends_preamble (o : Nat) :
    ends o (preambleWords syncA1) = [16 * (o + 13), 16 * (o + 14), 16 * (o + 15)] := by
  unfold preambleWords
  rw [ends_append, ends_plain o fun w hw => sync_of_mem_replicate hw, List.length_replicate]
  simp only [syncBytes, ends, List.replicate, a1Cells, if_true, List.map_cons, List.map_nil,
    List.nil_append, List.cons.injEq, and_true]
  omega

theorem walk_run (o : Nat) (rest : List Nat) (scan : Scan) :
    Scan.walk t (ends o (preambleWords syncA1) ++ rest) scan =
      Scan.walk t rest (scan.field t (16 * (o + 15))) := by
  rw [ends_preamble]
  simp only [List.cons_append, List.nil_append, Scan.walk]
  rw [if_pos ⟨by omega, by omega⟩]

theorem length_sectorWords (h : s.data.length = dataBytes) : (sectorWords s).length = 658 := by
  unfold sectorWords
  simp only [List.length_append, length_preambleWords, length_idWords, length_dataWords h,
    List.length_replicate, gap2, gap3]

theorem ends_sector {o : Nat} :
    ends o (sectorWords s) =
      ends o (preambleWords syncA1) ++ ends (o + 44) (preambleWords syncA1) := by
  unfold sectorWords
  rw [ends_append, length_preambleWords, ends_append, length_idWords,
    ends_plain (o + 15) fun w hw => sync_of_mem_idWords hw, ends_append, List.length_replicate,
    ends_plain (o + 15 + 7) fun w hw => sync_of_mem_replicate hw, ends_append,
    ends_append, ends_plain _ fun w hw => sync_of_mem_dataWords hw,
    ends_plain _ fun w hw => sync_of_mem_replicate hw]
  simp only [List.nil_append, List.append_nil, gap2]

theorem Track.Holds.fields {o : Nat} (h : t.Holds (16 * o) (sectorWords s)) :
    t.Holds (16 * (o + 15)) (idWords s) ∧ t.Holds (16 * (o + 44 + 15)) (dataWords s) := by
  have hid := h.right
  have hdata := hid.right.right.right.left
  rw [length_preambleWords, length_idWords, List.length_replicate,
    show 16 * o + 16 * 15 + 16 * 7 + 16 * gap2 + 16 * 15 = 16 * (o + 44 + 15) by
      unfold gap2; omega] at hdata
  exact ⟨hid.left, hdata⟩

theorem walk_sector (hbits : t.bits = Mfm.cells false (entries ws)) {o : Nat} {rest : List Word}
    (h : ws.drop o = sectorWords s ++ rest) (hsize : s.sizeCode = 2)
    (hdata : s.data.length = dataBytes) {found : List Sector}
    (hnew : ∀ f ∈ found, f.sector ≠ s.sector) (bad : List Bad) (marks : List Nat) :
    Scan.walk t (ends o (sectorWords s) ++ marks) ⟨none, found, bad⟩ =
      Scan.walk t marks ⟨none, found ++ [s], bad⟩ := by
  obtain ⟨hid, hfield⟩ := (Track.Holds.of_drop hbits h).fields
  have hpending : (Scan.mk (some (Sector.ofId s.id)) found bad).pending =
      some (Sector.ofId s.id) := rfl
  have hsecond := scan_data hfield hsize hdata hpending hnew
  rw [ends_sector, List.append_assoc, walk_run, scan_id hid, walk_run, hsecond]

theorem walk_sectors (hbits : t.bits = Mfm.cells false (entries ws)) {o : Nat}
    {sectors : List Sector} {rest : List Word}
    (h : ws.drop o = sectors.flatMap sectorWords ++ rest) (hsize : ∀ s ∈ sectors, s.sizeCode = 2)
    (hdata : ∀ s ∈ sectors, s.data.length = dataBytes) {found : List Sector} {bad : List Bad}
    (hnew : (found ++ sectors).Pairwise fun s s' => s.sector ≠ s'.sector) :
    Scan.walk t (ends o (sectors.flatMap sectorWords)) ⟨none, found, bad⟩ =
      ⟨none, found ++ sectors, bad⟩ := by
  induction sectors generalizing o found with
  | nil => simp [ends, a1Cells, Scan.walk]
  | cons s sectors ih =>
    obtain ⟨hs, hsize'⟩ := List.forall_mem_cons.mp hsize
    obtain ⟨hd, hdata'⟩ := List.forall_mem_cons.mp hdata
    rw [List.flatMap_cons] at h ⊢
    rw [List.append_assoc] at h
    have hfresh : ∀ f ∈ found, f.sector ≠ s.sector := fun f hf =>
      (List.pairwise_append.mp hnew).2.2 f hf s List.mem_cons_self
    have hnew' : ((found ++ [s]) ++ sectors).Pairwise fun s s' => s.sector ≠ s'.sector := by
      rwa [List.append_assoc, List.singleton_append]
    rw [ends_append, walk_sector hbits h hs hd hfresh, ih (drop_append h) hsize' hdata' hnew',
      List.append_assoc, List.singleton_append]

theorem length_leadWords : leadWords.length = 146 := by
  simp [leadWords, preambleWords, gap4a, gap1, syncBytes]

theorem ends_lead : ends 0 leadWords = [] := by
  rfl

/-- **The words of an encoded track.** -/
structure Encoded (sectors : List Sector) (ws : List Word) : Prop where
  bits : (encodeTrack sectors).bits = Mfm.cells false (entries ws)
  wrote : (layTrack sectors).wrote = a1Cells 0 ws
  framed : Framed ws
  first : ws[0]? = some (plain gapByte)
  fields : ∃ n, ws.drop leadWords.length =
    sectors.flatMap sectorWords ++ List.replicate n (plain gapByte)
  marks : a1Cells 0 ws = a1Cells leadWords.length (sectors.flatMap sectorWords)

theorem encoded (sectors : List Sector) : ∃ ws, Encoded sectors ws := by
  obtain ⟨n, hlaid, henc⟩ := layTrack_laid sectors
  have hmarks : ends 0 (fieldWords sectors ++ List.replicate n (plain gapByte)) =
      ends leadWords.length (sectors.flatMap sectorWords) := by
    rw [fieldWords, ends_append, ends_append, ends_lead, Nat.zero_add,
      ends_plain _ fun w hw => sync_of_mem_replicate hw, List.append_nil]
    rfl
  exact ⟨_, {
    bits := henc ▸ hlaid.bits
    wrote := hlaid.wrote
    framed := (framed_fields sectors).append (framed_replicate _ _)
    first := rfl
    fields := ⟨n, by rw [fieldWords, List.append_assoc, List.drop_left]⟩
    marks := List.map_injective_iff.mpr (add_left_injective 16) hmarks }⟩

namespace Encoded

variable {sectors : List Sector}

theorem pos (h : Encoded sectors ws) : 0 < ws.length := (List.getElem?_eq_some_iff.mp h.first).1

theorem len (h : Encoded sectors ws) : (encodeTrack sectors).len = 16 * ws.length := by
  unfold Track.len
  rw [h.bits, Mfm.length_cells, length_entries]
  omega

end Encoded

/-- **IBM tracks decode to what was encoded, and no data forges a mark.** The sixteen cells of
the sync word are read at the positions the writer laid an `$A1` sync byte down at, round the
track, and nowhere else; and the sectors come back in order, with no bad field. -/
theorem decodeTrack_encodeTrack (sectors : List Sector)
    (hdistinct : sectors.Pairwise fun s s' => s.sector ≠ s'.sector)
    (hsize : ∀ s ∈ sectors, s.sizeCode = 2) (hdata : ∀ s ∈ sectors, s.data.length = dataBytes) :
    (∀ at_, Mfm.word (encodeTrack sectors).bit at_ = 0x4489 ↔
      at_ % (encodeTrack sectors).len ∈ (layTrack sectors).wrote) ∧
    decodeTrack (encodeTrack sectors) = (sectors, []) := by
  obtain ⟨ws, h⟩ := encoded sectors
  constructor
  · intro at_
    have hbit : (encodeTrack sectors).bit = around (Mfm.cells false (entries ws)) := by
      funext i
      rw [Track.bit_eq, h.bits]
    rw [h.wrote, h.len, ← reads_iff h.framed h.pos, ← hbit]
    exact Mfm.word_eq_sync_iff
  · obtain ⟨n, hdrop⟩ := h.fields
    have hlen := h.len
    have hpos := h.pos
    have hmarks : marks (encodeTrack sectors) =
        ends leadWords.length (sectors.flatMap sectorWords) := by
      rw [marks_eq h.framed h.first rfl h.bits, h.marks]
      rfl
    unfold decodeTrack
    rw [if_neg (by omega), hmarks]
    have hwalk : Scan.walk (encodeTrack sectors)
        (ends leadWords.length (sectors.flatMap sectorWords)) ⟨none, [], []⟩ =
        ⟨none, [] ++ sectors, []⟩ :=
      walk_sectors h.bits hdrop hsize hdata hdistinct
    exact congrArg (fun s : Scan => (s.found, s.bad)) hwalk

def allSyncs (number : Byte) (deleted : Bool) : Sector :=
  ⟨3, 1, number, 2, List.replicate dataBytes syncA1, deleted⟩

theorem decodeTrack_allSyncs :
    decodeTrack (encodeTrack [allSyncs 1 false, allSyncs 2 true]) =
      ([allSyncs 1 false, allSyncs 2 true], []) :=
  (decodeTrack_encodeTrack _ (by simp [allSyncs]) (by simp [allSyncs]) (by simp [allSyncs])).2

end Rsemu.Mac
