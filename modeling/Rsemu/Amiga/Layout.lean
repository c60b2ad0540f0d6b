import Rsemu.Amiga.Adf
import Rsemu.Base.Pieces
import Mathlib.Data.List.GetD

/-!
# What is on an Amiga track

The encoder writes cells into a buffer of zeros; `Laid` reads them as the cells of a list of
entries. `encodeTrack_laid` is the whole track: a gap, then eleven sectors of the same
length, so that each is found by its number (`drop_trackEntries`).
-/

namespace Rsemu.Amiga

open Mfm (Entry shiftIn around)
open Pieces

def bitAt (out : List Byte) (j : Nat) : Bool := (out.getD (j / 8) 0).getLsbD (7 - j % 8)

theorem getLsbD_mask {i j : Nat} (hi : i < 8) (hj : j < 8) :
    ((0x80 : Byte) >>> i).getLsbD (7 - j) = decide (j = i) := by
  have hall : ∀ i < 8, ∀ j < 8, ((0x80 : Byte) >>> i).getLsbD (7 - j) = decide (j = i) := by decide
  exact hall i hi j hj

/-- The cells written so far, in a buffer that is zero beyond them. -/
structure Encoder.Holds (e : Encoder) (cells : List Bool) : Prop where
  length : e.out.length = trackBytes
  count : e.cells = cells.length
  bit : ∀ j, bitAt e.out j = cells.getD j false

variable {e : Encoder} {written : List Bool}

theorem getD_modify (out : List Byte) (i j : Nat) (f : Byte → Byte) (hi : i < out.length) :
    (out.modify i f).getD j 0 = if j = i then f (out.getD i 0) else out.getD j 0 := by
  by_cases h : i = j
  · subst h
    simp [List.getElem?_eq_getElem hi]
  · have h' : ¬ j = i := fun he => h he.symm
    simp [h, h']

theorem Encoder.Holds.cell (h : e.Holds written) (hroom : written.length < trackCells) (on : Bool) :
    (e.cell on).Holds (written ++ [on]) := by
  have hget : ∀ j, (written ++ [on]).getD j false =
      if j = written.length then on else written.getD j false := by
    intro j
    rcases Nat.lt_trichotomy j written.length with hlt | heq | hgt
    · rw [if_neg (by omega), List.getD_append _ _ _ _ hlt]
    · rw [if_pos heq, heq, List.getD_append_right _ _ _ _ (Nat.le_refl _), Nat.sub_self]
      rfl
    · rw [if_neg (by omega), List.getD_eq_default _ _ (by simp; omega),
        List.getD_eq_default _ _ (by omega)]
  have hzero := h.bit written.length
  rw [List.getD_eq_default _ _ (Nat.le_refl _)] at hzero
  cases on with
  | false =>
    refine ⟨h.length, by rw [List.length_append, ← h.count]; rfl, fun j => ?_⟩
    rw [hget]
    split
    · rename_i hj
      rw [hj]
      exact hzero
    · exact h.bit j
  | true =>
    have hbyte : written.length / 8 < e.out.length := by
      rw [h.length]
      unfold trackCells at hroom
      omega
    refine ⟨?_, by rw [List.length_append, ← h.count]; rfl, fun j => ?_⟩
    · exact (List.length_modify _ _ _).trans h.length
    · have hout : (e.cell true).out =
          e.out.modify (written.length / 8) (· ||| (0x80 : Byte) >>> (written.length % 8)) := by
        rw [← h.count]
        rfl
      rw [hget, hout]
      unfold bitAt
      rw [getD_modify _ _ _ _ hbyte]
      have hbit := h.bit j
      unfold bitAt at hbit
      by_cases hsame : j / 8 = written.length / 8
      · rw [if_pos hsame, BitVec.getLsbD_or, getLsbD_mask (Nat.mod_lt _ (by decide))
          (Nat.mod_lt _ (by decide)), ← hsame, hbit]
        by_cases hj : j = written.length
        · simp [hj]
        · have hmod : ¬ j % 8 = written.length % 8 := fun hm => hj (by omega)
          simp [hj, hmod]
      · rw [if_neg hsame, hbit, if_neg (fun hj => hsame (by rw [hj]))]

/-- **The encoder has laid these entries down.** -/
structure Encoder.Laid (e : Encoder) (es : List Entry) : Prop where
  holds : e.Holds (Mfm.cells false es)
  last : e.last = Mfm.last false es

def plain (bits : List Bool) : List Entry := bits.map fun b => ⟨b, false⟩

variable {es : List Entry}

theorem laid_new : ({} : Encoder).Laid [] := by
  refine ⟨⟨List.length_replicate, rfl, fun j => ?_⟩, rfl⟩
  unfold bitAt
  rw [List.getD_eq_getElem?_getD, List.getElem?_replicate]
  split <;> simp [Mfm.cells]

theorem Encoder.Laid.bit (h : e.Laid es) (hroom : es.length < trackCells / 2) (b : Bool) :
    (e.bit b).Laid (es ++ plain [b]) := by
  have hlen : (Mfm.cells false es).length + 1 < trackCells := by
    rw [Mfm.length_cells]
    omega
  have hfirst := h.holds.cell (by omega) (!e.last && !b)
  have hsecond := hfirst.cell (by rw [List.length_append]; exact hlen) b
  refine ⟨⟨hsecond.length, ?_, ?_⟩, ?_⟩
  · rw [Mfm.cells_append, ← h.last]
    have := hsecond.count
    rw [List.append_assoc] at this
    rw [show Mfm.cells e.last (plain [b]) = [!e.last && !b] ++ [b] by
      simp [plain, Mfm.cells, Mfm.clock]]
    exact this
  · intro j
    rw [Mfm.cells_append, ← h.last, show Mfm.cells e.last (plain [b]) = [!e.last && !b] ++ [b] by
      simp [plain, Mfm.cells, Mfm.clock], ← List.append_assoc]
    exact hsecond.bit j
  · rw [Mfm.last_append]
    rfl

theorem Encoder.Laid.bits (h : e.Laid es) (bits : List Bool)
    (hroom : es.length + bits.length ≤ trackCells / 2) :
    (bits.foldl Encoder.bit e).Laid (es ++ plain bits) := by
  induction bits generalizing e es with
  | nil => simpa [plain] using h
  | cons b bits ih =>
    rw [List.length_cons] at hroom
    have := ih (h.bit (by omega) b) (by simp [plain]; omega)
    rw [List.append_assoc] at this
    exact this

theorem Encoder.Holds.many (h : e.Holds written) (more : List Bool)
    (hroom : written.length + more.length ≤ trackCells) :
    (more.foldl Encoder.cell e).Holds (written ++ more) := by
  induction more generalizing e written with
  | nil => simpa using h
  | cons b more ih =>
    rw [List.length_cons] at hroom
    have := ih (h.cell (by omega) b) (by rw [List.length_append, List.length_singleton]; omega)
    rw [List.append_assoc] at this
    exact this

theorem Encoder.Laid.raw (h : e.Laid es) (hroom : es.length + 8 ≤ trackCells / 2) :
    (e.raw Mfm.sync).Laid (es ++ Mfm.syncEntries) := by
  have hcells : ((List.range 16).map fun i => Mfm.sync.getLsbD (15 - i)) =
      Mfm.cells (Mfm.last false es) Mfm.syncEntries := (Mfm.cells_syncEntries _).symm
  have hfold : (List.range 16).foldl (fun e i => Encoder.cell e (Mfm.sync.getLsbD (15 - i))) e =
      ((List.range 16).map fun i => Mfm.sync.getLsbD (15 - i)).foldl Encoder.cell e := by
    rw [List.foldl_map]
  have hmore := h.holds.many ((List.range 16).map fun i => Mfm.sync.getLsbD (15 - i))
    (by rw [Mfm.length_cells, List.length_map, List.length_range]; omega)
  rw [← hfold, hcells, ← Mfm.cells_append] at hmore
  refine ⟨⟨hmore.length, hmore.count, hmore.bit⟩, ?_⟩
  rw [Mfm.last_append]
  rfl

def blockBits (bytes : List Byte) : List Bool :=
  bytes.flatMap (Encoder.bits 7) ++ bytes.flatMap (Encoder.bits 6)

def blockEntries (bytes : List Byte) : List Entry := plain (blockBits bytes)

theorem length_flatMap_bits (shift : Nat) (bytes : List Byte) :
    (bytes.flatMap (Encoder.bits shift)).length = 4 * bytes.length := by
  induction bytes with
  | nil => rfl
  | cons b bytes ih =>
    simp [Encoder.bits]
    omega

@[simp] theorem length_blockEntries (bytes : List Byte) :
    (blockEntries bytes).length = 8 * bytes.length := by
  unfold blockEntries blockBits plain
  rw [List.length_map, List.length_append, length_flatMap_bits, length_flatMap_bits]
  omega

theorem Encoder.Laid.half (h : e.Laid es) (shift : Nat) (bytes : List Byte)
    (hroom : es.length + 4 * bytes.length ≤ trackCells / 2) :
    (bytes.foldl (fun e b => (Encoder.bits shift b).foldl Encoder.bit e) e).Laid
      (es ++ plain (bytes.flatMap (Encoder.bits shift))) := by
  have hfold : bytes.foldl (fun e b => (Encoder.bits shift b).foldl Encoder.bit e) e =
      (bytes.flatMap (Encoder.bits shift)).foldl Encoder.bit e := by
    rw [List.foldl_flatMap]
  rw [hfold]
  exact h.bits _ (by rw [length_flatMap_bits]; exact hroom)

theorem Encoder.Laid.block (h : e.Laid es) (bytes : List Byte)
    (hroom : es.length + 8 * bytes.length ≤ trackCells / 2) :
    (e.block bytes).Laid (es ++ blockEntries bytes) := by
  have hodd := h.half 7 bytes (by omega)
  have heven := hodd.half 6 bytes (by
    rw [List.length_append, plain, List.length_map, length_flatMap_bits]
    omega)
  unfold blockEntries blockBits plain
  rw [List.map_append, ← List.append_assoc]
  exact heven

def bodyEntries (track : Byte) (sector : Nat) (bytes : List Byte) : List Entry :=
  blockEntries (info track sector) ++ (blockEntries label ++
    (blockEntries (toBe (checksum (info track sector ++ label))) ++
      (blockEntries (toBe (checksum bytes)) ++ blockEntries bytes)))

def sectorEntries (track : Byte) (sector : Nat) (bytes : List Byte) : List Entry :=
  blockEntries [0, 0] ++ (Mfm.syncEntries ++ (Mfm.syncEntries ++ bodyEntries track sector bytes))

def gapEntries : List Entry := plain (List.replicate (gapBytes * 4) false)

def trackEntries (track : Byte) (data : List Byte) : List Entry :=
  gapEntries ++ (List.range sectors).flatMap fun sector =>
    sectorEntries track sector (slice data sector)

theorem length_bodyEntries (track : Byte) (sector : Nat) {bytes : List Byte}
    (h : bytes.length = sectorBytes) : (bodyEntries track sector bytes).length = 4320 := by
  have hinfo : (info track sector).length = 4 := rfl
  have hlabel : label.length = 16 := rfl
  have hsum : ∀ x, (toBe x).length = 4 := fun x => rfl
  have hdata : bytes.length = 512 := h
  unfold bodyEntries
  simp only [List.length_append, length_blockEntries, hinfo, hlabel, hsum, hdata]

theorem length_sectorEntries (track : Byte) (sector : Nat) {bytes : List Byte}
    (h : bytes.length = sectorBytes) : (sectorEntries track sector bytes).length = 4352 := by
  have hsync : Mfm.syncEntries.length = 8 := rfl
  have hzeros : ([0, 0] : List Byte).length = 2 := rfl
  unfold sectorEntries
  simp only [List.length_append, length_blockEntries, length_bodyEntries track sector h, hsync,
    hzeros]

theorem gap_bits : gapBytes * 4 = 2128 := by decide

theorem track_entries : trackCells / 2 = 50000 := by decide

theorem length_gapEntries : gapEntries.length = 2128 := by
  unfold gapEntries plain
  rw [List.length_map, List.length_replicate, gap_bits]

theorem length_slice {data : List Byte} (hdata : data.length = trackData) {sector : Nat}
    (hs : sector < sectors) : (slice data sector).length = sectorBytes := by
  unfold slice
  rw [List.length_take, List.length_drop, hdata]
  unfold trackData sectors sectorBytes at *
  omega

theorem Encoder.Laid.sector (h : e.Laid es) (track : Byte) (sector : Nat) {bytes : List Byte}
    (hbytes : bytes.length = sectorBytes) (hroom : es.length + 4352 ≤ trackCells / 2) :
    (e.sector track sector bytes).Laid (es ++ sectorEntries track sector bytes) := by
  have hsync : Mfm.syncEntries.length = 8 := rfl
  have hinfo : (info track sector).length = 4 := rfl
  have hlabel : label.length = 16 := rfl
  have hsum : ∀ x, (toBe x).length = 4 := fun x => rfl
  have hzeros : ([0, 0] : List Byte).length = 2 := rfl
  have hdata : bytes.length = 512 := hbytes
  have hmarks := ((h.block [0, 0] (by omega)).raw (by
    simp only [List.length_append, length_blockEntries, hzeros]
    omega)).raw (by
    simp only [List.length_append, length_blockEntries, hsync, hzeros]
    omega)
  have hhead := (hmarks.block (info track sector) (by
    simp only [List.length_append, length_blockEntries, hsync, hzeros, hinfo]
    omega)).block label (by
    simp only [List.length_append, length_blockEntries, hsync, hzeros, hinfo, hlabel]
    omega)
  have hsums := (hhead.block (toBe (checksum (info track sector ++ label))) (by
    simp only [List.length_append, length_blockEntries, hsync, hzeros, hinfo, hlabel, hsum]
    omega)).block (toBe (checksum bytes)) (by
    simp only [List.length_append, length_blockEntries, hsync, hzeros, hinfo, hlabel, hsum]
    omega)
  have hall := hsums.block bytes (by
    simp only [List.length_append, length_blockEntries, hsync, hzeros, hinfo, hlabel, hsum, hdata]
    omega)
  simp only [List.append_assoc] at hall ⊢
  exact hall

variable {track : Byte} {data : List Byte}

section

variable (hdata : data.length = trackData)
include hdata

theorem length_sector_of_mem (track : Byte) {sector : Nat}
    (h : sector ∈ List.range sectors) :
    (sectorEntries track sector (slice data sector)).length = 4352 :=
  length_sectorEntries track sector (length_slice hdata (List.mem_range.mp h))

theorem length_trackEntries (track : Byte) : (trackEntries track data).length = 50000 := by
  unfold trackEntries
  rw [List.length_append, length_gapEntries,
    length_flatMap_of fun sector h => length_sector_of_mem hdata track h, List.length_range]
  rfl

theorem drop_trackEntries (track : Byte) {sector : Nat}
    (hs : sector < sectors) :
    ∃ rest, (trackEntries track data).drop (2128 + 4352 * sector) =
      sectorEntries track sector (slice data sector) ++ rest := by
  have hlen : ∀ sector ∈ List.range sectors,
      (sectorEntries track sector (slice data sector)).length = 4352 :=
    fun sector h => length_sector_of_mem hdata track h
  have hget : (List.range sectors)[sector]? = some sector := List.getElem?_range hs
  have hgap : (trackEntries track data).drop 2128 = (List.range sectors).flatMap fun sector =>
      sectorEntries track sector (slice data sector) := by
    unfold trackEntries
    exact List.drop_left' length_gapEntries
  refine ⟨((List.range sectors).drop (sector + 1)).flatMap fun sector =>
    sectorEntries track sector (slice data sector), ?_⟩
  rw [← List.drop_drop, hgap]
  exact drop_flatMap hlen hget

omit hdata in
theorem Encoder.Laid.gap (h : e.Laid es) (n : Nat) (hroom : es.length + n ≤ trackCells / 2) :
    ((fun e : Encoder => e.bit false)^[n] e).Laid (es ++ plain (List.replicate n false)) := by
  induction n with
  | zero => simpa [plain] using h
  | succ n ih =>
    rw [Function.iterate_succ_apply', List.replicate_succ', plain, List.map_append,
      ← List.append_assoc]
    exact (ih (by omega)).bit (by
      rw [List.length_append, plain, List.length_map, List.length_replicate]
      omega) false

omit hdata in
theorem Encoder.Laid.sectors (h : e.Laid es) (hdata : data.length = trackData) (track : Byte)
    (ss : List Nat) (hss : ∀ s ∈ ss, s ∈ List.range Amiga.sectors)
    (hroom : es.length + 4352 * ss.length ≤ trackCells / 2) :
    (ss.foldl (fun e s => e.sector track s (slice data s)) e).Laid
      (es ++ ss.flatMap fun s => sectorEntries track s (slice data s)) := by
  induction ss generalizing e es with
  | nil => simpa using h
  | cons s ss ih =>
    obtain ⟨hs, hss'⟩ := List.forall_mem_cons.mp hss
    rw [List.length_cons] at hroom
    rw [List.flatMap_cons, ← List.append_assoc, List.foldl_cons]
    have hone : es.length + 4352 ≤ trackCells / 2 :=
      Nat.le_trans (Nat.add_le_add_left (Nat.le_mul_of_pos_right 4352 (Nat.succ_pos _)) _) hroom
    refine ih (h.sector track s (length_slice hdata (List.mem_range.mp hs)) hone) hss' ?_
    rw [List.length_append, length_sector_of_mem hdata track hs, Nat.add_assoc,
      Nat.add_comm 4352, ← Nat.mul_succ]
    exact hroom

theorem encodeTrack_holds (track : Byte) :
    ∃ e : Encoder, encodeTrack track data = e.out ∧
      e.Holds (Mfm.cells false (trackEntries track data)) := by
  have hroom : ([] : List Entry).length + gapBytes * 4 ≤ trackCells / 2 := by
    decide
  have hgap := laid_new.gap (gapBytes * 4) hroom
  have hsectors := hgap.sectors hdata track (List.range sectors) (fun s hs => hs) (by
    rw [List.nil_append, List.length_range, ← gapEntries, length_gapEntries, track_entries]
    decide)
  have hcount : data.length / sectorBytes = sectors := by
    rw [hdata]
    rfl
  have hholds := hsectors.holds
  refine ⟨_, ?_, hholds⟩
  unfold encodeTrack
  rw [hcount]

theorem length_encodeTrack (track : Byte) : (encodeTrack track data).length = trackBytes := by
  obtain ⟨e, hout, hholds⟩ := encodeTrack_holds hdata track
  rw [hout]
  exact hholds.length

theorem cell_encodeTrack (track : Byte) (at_ : Nat) :
    cell (encodeTrack track data) at_ = around (Mfm.cells false (trackEntries track data)) at_ := by
  obtain ⟨e, hout, hholds⟩ := encodeTrack_holds hdata track
  have hlen : (Mfm.cells false (trackEntries track data)).length = trackBytes * 8 := by
    rw [Mfm.length_cells, length_trackEntries hdata]
    rfl
  unfold cell around
  rw [length_encodeTrack hdata, hlen, hout]
  exact hholds.bit _

end

end Rsemu.Amiga
