import Rsemu.Mac.Mfm

/-!
# What is on a track

A written track is a list of words: bytes, each an ordinary one or a sync byte. `Laid` says
that a writer has laid a list of words down, and each of its operations appends to it;
`layTrack_laid` is the whole track. `Framed` is the shape of it that keeps marks apart: what
follows a sync byte starts with the bits that do not complete a false one.
-/

namespace Rsemu.Mac

open Mfm (Entry shiftIn)

/-- A byte of a track, or a sync mark. -/
structure Word where
  byte : Byte
  sync : Bool
deriving DecidableEq

def plain (b : Byte) : Word := ⟨b, false⟩

def mark (b : Byte) : Word := ⟨b, true⟩

def entriesOf (b : Byte) (suppress : Option Nat) : List Entry :=
  (List.range 8).map fun i => ⟨b.getLsbD (7 - i), decide (suppress = some i)⟩

def Word.entries (w : Word) : List Entry :=
  entriesOf w.byte (if w.sync then suppressed w.byte else none)

def entries (ws : List Word) : List Entry := ws.flatMap Word.entries

@[simp] theorem length_entriesOf (b : Byte) (suppress : Option Nat) :
    (entriesOf b suppress).length = 8 := by
  simp [entriesOf]

@[simp] theorem length_word_entries (w : Word) : w.entries.length = 8 := length_entriesOf _ _

theorem length_entries (ws : List Word) : (entries ws).length = 8 * ws.length := by
  induction ws with
  | nil => rfl
  | cons w ws ih =>
    rw [entries, List.flatMap_cons, List.length_append, length_word_entries, ← entries, ih,
      List.length_cons]
    omega

theorem entries_append (xs ys : List Word) : entries (xs ++ ys) = entries xs ++ entries ys :=
  List.flatMap_append

theorem entries_cons (w : Word) (ws : List Word) : entries (w :: ws) = w.entries ++ entries ws :=
  List.flatMap_cons

variable {ws : List Word}

theorem getElem?_entries {k : Nat} {w : Word} (h : ws[k]? = some w) {j : Nat} (hj : j < 8) :
    (entries ws)[8 * k + j]? = w.entries[j]? := by
  induction ws generalizing k with
  | nil => simp at h
  | cons w' ws ih =>
    rw [entries_cons]
    rcases k with _ | k
    · have : w' = w := by simpa using h
      rw [this, Nat.mul_zero, Nat.zero_add, List.getElem?_append_left (by simpa using hj)]
    · rw [List.getElem?_append_right (by rw [length_word_entries]; omega), length_word_entries,
        show 8 * (k + 1) + j - 8 = 8 * k + j by omega]
      exact ih (by simpa using h)

theorem getElem?_entriesOf (b : Byte) (suppress : Option Nat) {j : Nat} (hj : j < 8) :
    (entriesOf b suppress)[j]? = some ⟨b.getLsbD (7 - j), decide (suppress = some j)⟩ := by
  unfold entriesOf
  rw [List.getElem?_map, List.getElem?_range hj]
  rfl

theorem byte_bit (b : Byte) {i : Nat} (hi : i < 8) :
    (b &&& ((0x80 : Byte) >>> i) != 0) = b.getLsbD (7 - i) := by
  have hmask : ∀ i < 8, ∀ j < 8, ((0x80 : Byte) >>> i).getLsbD j = decide (j = 7 - i) := by decide
  rw [Bool.eq_iff_iff, bne_iff_ne]
  constructor
  · intro hne
    by_contra hoff
    refine hne (BitVec.eq_of_getLsbD_eq fun j hj => ?_)
    rw [BitVec.getLsbD_and, hmask i hi j hj]
    by_cases h : j = 7 - i
    · rw [h, Bool.eq_false_iff.mpr hoff]
      simp
    · simp [h]
  · intro hon hzero
    have := congrArg (fun x => BitVec.getLsbD x (7 - i)) hzero
    simp only [BitVec.getLsbD_and, hon, hmask i hi (7 - i) (by omega)] at this
    simp at this

theorem pair_eq_shiftIn (x : BitVec 16) (c b : Bool) :
    (x <<< 2) ||| ((BitVec.ofBool c).setWidth 16 <<< 1) ||| (BitVec.ofBool b).setWidth 16 =
      shiftIn (shiftIn x c) b := by
  have hshift : x <<< 2 = x <<< 1 <<< 1 := by rw [← BitVec.shiftLeft_add]
  unfold shiftIn
  rw [hshift, BitVec.shiftLeft_or_distrib]

theorem cellPair_eq (b : Byte) (suppress : Option Nat) (s : BitVec 16 × Bool) {i : Nat}
    (hi : i < 8) :
    cellPair b suppress s i =
      (shiftIn (shiftIn s.1 (Mfm.clock s.2 ⟨b.getLsbD (7 - i), decide (suppress = some i)⟩))
        (b.getLsbD (7 - i)), b.getLsbD (7 - i)) := by
  unfold cellPair
  simp only [byte_bit b hi, pair_eq_shiftIn]
  by_cases h : suppress = some i <;> simp [Mfm.clock, h]

theorem foldl_cellPair (b : Byte) (suppress : Option Nat) (is : List Nat) (his : ∀ i ∈ is, i < 8)
    (s : BitVec 16 × Bool) :
    is.foldl (cellPair b suppress) s =
      ((Mfm.cells s.2 (is.map fun i => ⟨b.getLsbD (7 - i), decide (suppress = some i)⟩)).foldl
        shiftIn s.1,
       Mfm.last s.2 (is.map fun i => ⟨b.getLsbD (7 - i), decide (suppress = some i)⟩)) := by
  induction is generalizing s with
  | nil => rfl
  | cons i is ih =>
    rw [List.foldl_cons, cellPair_eq b suppress s (his i List.mem_cons_self),
      ih fun j hj => his j (List.mem_cons_of_mem _ hj)]
    rfl

theorem cells_eq (b : Byte) (prev : Bool) (suppress : Option Nat) :
    (List.range 16).map (fun k => (cells b prev suppress).getLsbD (15 - k)) =
      Mfm.cells prev (entriesOf b suppress) := by
  have hfold : cells b prev suppress = (Mfm.cells prev (entriesOf b suppress)).foldl shiftIn 0 := by
    unfold cells
    rw [foldl_cellPair b suppress _ (fun i hi => List.mem_range.mp hi)]
    rfl
  have hlen : (Mfm.cells prev (entriesOf b suppress)).length = 16 := by simp
  refine List.ext_getElem (by simp) fun k hk hk' => ?_
  rw [List.getElem_map, List.getElem_range, hfold, Mfm.getLsbD_foldl_shiftIn _ _ _ (by omega),
    hlen, if_pos (by omega), show 16 - 1 - (15 - k) = k by omega,
    List.getD_eq_getElem _ _ (by omega)]

theorem sync_entries (prev : Bool) {b : Byte} (h : b = syncA1 ∨ b = syncC2) :
    Mfm.cells prev (mark b).entries = Mfm.cells false (entriesOf b (suppressed b)) := by
  rcases h with rfl | rfl <;> cases prev <;> decide

theorem last_entriesOf (prev : Bool) (b : Byte) (suppress : Option Nat) :
    Mfm.last prev (entriesOf b suppress) = b.getLsbD 0 := rfl

def a1Cells : Nat → List Word → List Nat
  | _, [] => []
  | o, w :: ws =>
    if w = mark syncA1 then 16 * o :: a1Cells (o + 1) ws else a1Cells (o + 1) ws

theorem a1Cells_append (o : Nat) (xs ys : List Word) :
    a1Cells o (xs ++ ys) = a1Cells o xs ++ a1Cells (o + xs.length) ys := by
  induction xs generalizing o with
  | nil => rfl
  | cons w xs ih =>
    rw [List.cons_append, a1Cells, a1Cells, ih, List.length_cons, show o + 1 + xs.length =
      o + (xs.length + 1) by omega]
    split <;> rfl

theorem a1Cells_plain (o : Nat) (h : ∀ w ∈ ws, w.sync = false) : a1Cells o ws = [] := by
  induction ws generalizing o with
  | nil => rfl
  | cons w ws ih =>
    obtain ⟨hw, hws⟩ := List.forall_mem_cons.mp h
    have hne : w ≠ mark syncA1 := fun he => by simp [he, mark] at hw
    rw [a1Cells, if_neg hne]
    exact ih _ hws

theorem mem_a1Cells {o : Nat} {at_ : Nat} :
    at_ ∈ a1Cells o ws ↔ ∃ k, ws[k]? = some (mark syncA1) ∧ at_ = 16 * (o + k) := by
  induction ws generalizing o with
  | nil => simp [a1Cells]
  | cons w ws ih =>
    have hrest : at_ ∈ a1Cells (o + 1) ws ↔
        ∃ k, (w :: ws)[k + 1]? = some (mark syncA1) ∧ at_ = 16 * (o + (k + 1)) := by
      rw [ih]
      refine exists_congr fun k => ?_
      rw [List.getElem?_cons_succ, show o + 1 + k = o + (k + 1) by omega]
    constructor
    · intro h
      rw [a1Cells] at h
      split at h
      · rename_i hw
        rcases List.mem_cons.mp h with h | h
        · exact ⟨0, by rw [hw]; rfl, h⟩
        · obtain ⟨k, hk⟩ := hrest.mp h
          exact ⟨k + 1, hk⟩
      · obtain ⟨k, hk⟩ := hrest.mp h
        exact ⟨k + 1, hk⟩
    · rintro ⟨k, hk, hat⟩
      rw [a1Cells]
      rcases k with _ | k
      · have hw : w = mark syncA1 := by simpa using hk
        rw [if_pos hw]
        exact List.mem_cons.mpr (Or.inl hat)
      · have hin := hrest.mpr ⟨k, hk, hat⟩
        split
        · exact List.mem_cons_of_mem _ hin
        · exact hin

/-- **The writer has laid these words down**, and noted its `$A1` sync words. -/
structure Writer.Laid (w : Writer) (ws : List Word) : Prop where
  bits : w.track.bits = Mfm.cells false (entries ws)
  prev : w.prev = Mfm.last false (entries ws)
  wrote : w.wrote = a1Cells 0 ws

namespace Writer

variable {w : Writer} {ws : List Word}

theorem Laid.len (h : w.Laid ws) : w.track.len = 16 * ws.length := by
  unfold Track.len
  rw [h.bits, Mfm.length_cells, length_entries]
  omega

theorem laid_nil : ({} : Writer).Laid [] := ⟨rfl, rfl, rfl⟩

theorem Laid.byte (h : w.Laid ws) (b : Byte) : (w.byte b).Laid (ws ++ [plain b]) := by
  have hentries : entries [plain b] = entriesOf b none := List.append_nil _
  refine ⟨?_, ?_, ?_⟩
  · change (w.push (cells b w.prev none)).track.bits = _
    rw [bits_push, cells_eq, h.bits, h.prev, entries_append, Mfm.cells_append, hentries]
  · rw [entries_append, Mfm.last_append, hentries, last_entriesOf]
    rfl
  · rw [a1Cells_append, a1Cells_plain (0 + ws.length) (by simp [plain]), List.append_nil]
    exact h.wrote

theorem Laid.sync (h : w.Laid ws) {b : Byte} (hb : b = syncA1 ∨ b = syncC2) :
    (w.sync b).Laid (ws ++ [mark b]) := by
  have hentries : entries [mark b] = (mark b).entries := List.append_nil _
  refine ⟨?_, ?_, ?_⟩
  · change (w.push (syncCells b)).track.bits = _
    unfold syncCells
    rw [bits_push, cells_eq, h.bits, entries_append, Mfm.cells_append, hentries,
      sync_entries _ hb]
  · rw [entries_append, Mfm.last_append, hentries]
    rfl
  · rw [a1Cells_append, ← h.wrote]
    unfold Writer.sync
    by_cases ha1 : b = syncA1
    · rw [if_pos ha1, h.len, ha1]
      simp [a1Cells]
    · have hne : mark b ≠ mark syncA1 := fun he => ha1 (congrArg Word.byte he)
      rw [if_neg ha1, a1Cells, if_neg hne]
      simp [a1Cells]

theorem Laid.fill (h : w.Laid ws) (b : Byte) (n : Nat) :
    (w.fill b n).Laid (ws ++ List.replicate n (plain b)) := by
  induction n with
  | zero => simpa [Writer.fill] using h
  | succ n ih =>
    have hfill : w.fill b (n + 1) = (w.fill b n).byte b := Function.iterate_succ_apply' _ n w
    rw [hfill, List.replicate_succ', ← List.append_assoc]
    exact ih.byte b

theorem Laid.bytes (h : w.Laid ws) (bs : List Byte) : (w.bytes bs).Laid (ws ++ bs.map plain) := by
  induction bs generalizing w ws with
  | nil => simpa [Writer.bytes] using h
  | cons b bs ih =>
    have := ih (h.byte b)
    rwa [List.append_assoc] at this

end Writer

def crcWords (x : BitVec 16) : List Word := [plain ((x >>> 8).setWidth 8), plain (x.setWidth 8)]

def preambleWords (b : Byte) : List Word :=
  List.replicate syncBytes (plain 0x00) ++ List.replicate 3 (mark b)

def idWords (s : Sector) : List Word :=
  plain idam :: (s.id.map plain ++ crcWords (crc16 0xffff (idHead s.id)))

def dataWords (s : Sector) : List Word :=
  plain s.mark :: (s.data.map plain ++ crcWords (dataCrc s.mark s.data))

def sectorWords (s : Sector) : List Word :=
  preambleWords syncA1 ++ (idWords s ++ (List.replicate gap2 (plain gapByte) ++
    (preambleWords syncA1 ++ (dataWords s ++ List.replicate gap3 (plain gapByte)))))

def leadWords : List Word :=
  List.replicate gap4a (plain gapByte) ++ (preambleWords syncC2 ++
    (plain iam :: List.replicate gap1 (plain gapByte)))

namespace Writer

variable {w : Writer} {ws : List Word}

theorem Laid.crc (h : w.Laid ws) (x : BitVec 16) : (w.crc x).Laid (ws ++ crcWords x) := by
  have := (h.byte ((x >>> 8).setWidth 8)).byte (x.setWidth 8)
  rwa [List.append_assoc] at this

theorem Laid.preamble (h : w.Laid ws) {b : Byte} (hb : b = syncA1 ∨ b = syncC2) :
    (w.preamble b).Laid (ws ++ preambleWords b) := by
  have := (((h.fill 0x00 syncBytes).sync hb).sync hb).sync hb
  rwa [List.append_assoc, List.append_assoc, List.append_assoc] at this

theorem Laid.sector (h : w.Laid ws) (s : Sector) : (w.sector s).Laid (ws ++ sectorWords s) := by
  have hid := (((h.preamble (.inl rfl)).byte idam).bytes s.id).crc (crc16 0xffff (idHead s.id))
  have hdata := ((((hid.fill gapByte gap2).preamble (.inl rfl)).byte s.mark).bytes s.data).crc
    (dataCrc s.mark s.data)
  have hgap := hdata.fill gapByte gap3
  unfold sectorWords idWords dataWords
  simp only [List.append_assoc, List.cons_append, List.nil_append] at hgap ⊢
  exact hgap

theorem Laid.sectors (h : w.Laid ws) (sectors : List Sector) :
    (sectors.foldl Writer.sector w).Laid (ws ++ sectors.flatMap sectorWords) := by
  induction sectors generalizing w ws with
  | nil => simpa using h
  | cons s sectors ih =>
    rw [List.flatMap_cons, ← List.append_assoc, List.foldl_cons]
    exact ih (h.sector s)

theorem Laid.padGap (h : w.Laid ws) :
    ∃ n, w.padGap.Laid (ws ++ List.replicate n (plain gapByte)) ∧
      cellsPerRevolution ≤ w.padGap.track.len := by
  induction w using Writer.padGap.induct generalizing ws with
  | case1 w hroom ih =>
    obtain ⟨n, hn, hfull⟩ := ih (h.byte gapByte)
    rw [Writer.padGap, if_pos hroom]
    refine ⟨n + 1, ?_, hfull⟩
    rwa [List.append_assoc] at hn
  | case2 w hroom =>
    rw [Writer.padGap, if_neg hroom]
    refine ⟨0, by simpa using h, ?_⟩
    -- a revolution is a whole number of bytes
    have hlen := h.len
    unfold cellsPerRevolution at hroom ⊢
    omega

end Writer

theorem Track.padZero_of_full {t : Track} (h : cellsPerRevolution ≤ t.len) : t.padZero = t := by
  rw [Track.padZero, if_neg (Nat.not_lt.mpr h)]

def fieldWords (sectors : List Sector) : List Word := leadWords ++ sectors.flatMap sectorWords

theorem layTrack_laid (sectors : List Sector) :
    ∃ n, (layTrack sectors).Laid (fieldWords sectors ++ List.replicate n (plain gapByte)) ∧
      encodeTrack sectors = (layTrack sectors).track := by
  have hlead := ((((Writer.laid_nil.fill gapByte gap4a).preamble (.inr rfl)).byte iam).fill
    gapByte gap1).sectors sectors
  obtain ⟨n, hn, hfull⟩ := hlead.padGap
  refine ⟨n, ?_, Track.padZero_of_full hfull⟩
  unfold fieldWords leadWords
  simp only [List.append_assoc, List.cons_append, List.nil_append] at hn ⊢
  exact hn

/-- What may follow a sync byte: a byte whose first bits do not complete a false mark. -/
def Follows (w w' : Word) : Prop :=
  (w.byte = syncA1 ∧ w'.byte.getLsbD 7 = true) ∨
    (w.byte = syncC2 ∧ w'.byte.getLsbD 7 = true ∧ w'.byte.getLsbD 6 = true)

/-- **Every sync byte is followed by a byte that may follow it.** -/
def Framed : List Word → Prop
  | [] => True
  | w :: ws => (w.sync = true → ∃ w', ws.head? = some w' ∧ Follows w w') ∧ Framed ws

theorem Framed.append {xs ys : List Word} (hx : Framed xs) (hy : Framed ys) :
    Framed (xs ++ ys) := by
  induction xs with
  | nil => exact hy
  | cons w xs ih =>
    refine ⟨fun hw => ?_, ih hx.2⟩
    obtain ⟨w', hhead, hfollows⟩ := hx.1 hw
    cases xs with
    | nil => cases hhead
    | cons x xs => exact ⟨w', hhead, hfollows⟩

theorem framed_plain (h : ∀ w ∈ ws, w.sync = false) : Framed ws := by
  induction ws with
  | nil => trivial
  | cons w ws ih =>
    obtain ⟨hw, hws⟩ := List.forall_mem_cons.mp h
    exact ⟨fun hs => absurd hs (by simp [hw]), ih hws⟩

theorem sync_of_mem_map {bs : List Byte} {w : Word} (h : w ∈ bs.map plain) : w.sync = false := by
  obtain ⟨b, _, rfl⟩ := List.mem_map.mp h
  rfl

theorem framed_replicate (n : Nat) (b : Byte) : Framed (List.replicate n (plain b)) :=
  framed_plain fun w hw => by rw [List.eq_of_mem_replicate hw]; rfl

theorem framed_preamble {b m : Byte} (hself : Follows (mark b) (mark b))
    (hmark : Follows (mark b) (plain m)) (hws : Framed ws) :
    Framed (preambleWords b ++ plain m :: ws) := by
  unfold preambleWords
  rw [List.append_assoc]
  refine (framed_replicate _ _).append ?_
  exact ⟨fun _ => ⟨_, rfl, hself⟩, fun _ => ⟨_, rfl, hself⟩, fun _ => ⟨_, rfl, hmark⟩,
    fun h => absurd h (by simp [plain]), hws⟩

theorem framed_crc (x : BitVec 16) : Framed (crcWords x) :=
  framed_plain (by simp [crcWords, plain])

theorem follows_a1 : Follows (mark syncA1) (mark syncA1) := .inl ⟨rfl, rfl⟩

theorem framed_sector (s : Sector) : Framed (sectorWords s) := by
  have hid : Follows (mark syncA1) (plain idam) := .inl ⟨rfl, rfl⟩
  have hdata : Follows (mark syncA1) (plain s.mark) := by
    unfold Sector.mark
    split
    · exact .inl ⟨rfl, rfl⟩
    · exact .inl ⟨rfl, rfl⟩
  refine framed_preamble follows_a1 hid ?_
  refine ((framed_plain fun w hw => sync_of_mem_map hw).append (framed_crc _)).append ?_
  refine (framed_replicate _ _).append (framed_preamble follows_a1 hdata ?_)
  exact ((framed_plain fun w hw => sync_of_mem_map hw).append (framed_crc _)).append
    (framed_replicate _ _)

theorem framed_lead : Framed leadWords :=
  (framed_replicate _ _).append
    (framed_preamble (.inr ⟨rfl, rfl, rfl⟩) (.inr ⟨rfl, rfl, rfl⟩) (framed_replicate _ _))

theorem framed_fields (sectors : List Sector) : Framed (fieldWords sectors) := by
  refine framed_lead.append ?_
  induction sectors with
  | nil => trivial
  | cons s sectors ih => exact (framed_sector s).append ih

theorem Framed.next (h : Framed ws) {k : Nat} {w : Word} (hk : ws[k]? = some w) (hw : w.sync = true) :
    ∃ w', ws[k + 1]? = some w' ∧ Follows w w' := by
  induction ws generalizing k with
  | nil => simp at hk
  | cons w₀ ws ih =>
    rcases k with _ | k
    · have hw₀ : w₀ = w := by simpa using hk
      obtain ⟨w', hhead, hfollows⟩ := h.1 (hw₀ ▸ hw)
      refine ⟨w', ?_, hw₀ ▸ hfollows⟩
      rwa [List.getElem?_cons_succ, ← List.head?_eq_getElem?]
    · exact ih h.2 (by simpa using hk)

end Rsemu.Mac
