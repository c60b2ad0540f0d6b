import Rsemu.Amiga.Marks

/-!
# Scanning a track from anywhere

`Turned` is a track whose cells are those of an encoded one, read from `r` cells on. A block
is read back in it wherever it stands (`block_read`), so from either of its sync words a
sector is read whole (`readSector_good`). The scan finds every sector that starts at or after
the cell it has got to, and nothing else (`scanFrom_turned`): a sector it skips whole holds
the start of no other.
-/

namespace Rsemu.Amiga

open Mfm (Entry around)
open Pieces

variable {track : Byte} {data mfm : List Byte} {r : Nat}

theorem gather_bits (b : Byte) :
    ∀ c c' : Nat → Bool, ∀ at_ at_' : Nat, (∀ k < 4, c (at_ + 2 * k + 1) = b.getLsbD (7 - 2 * k)) →
      (∀ k < 4, c' (at_' + 2 * k + 1) = b.getLsbD (6 - 2 * k)) →
      gather c' at_' 6 (gather c at_ 7 0) = b := by
  intro c c' at_ at_' hodd heven
  have hall : ∀ b : Byte,
      (List.range 4).foldl (fun x k =>
          x ||| ((BitVec.ofBool (b.getLsbD (6 - 2 * k))).setWidth 8 : Byte) <<< (6 - 2 * k))
        ((List.range 4).foldl (fun x k =>
          x ||| ((BitVec.ofBool (b.getLsbD (7 - 2 * k))).setWidth 8 : Byte) <<< (7 - 2 * k)) 0) =
      b := by decide +kernel
  have hfold : ∀ (c : Nat → Bool) (at_ shift : Nat) (x : Byte),
      (∀ k < 4, c (at_ + 2 * k + 1) = b.getLsbD (shift - 2 * k)) →
      gather c at_ shift x = (List.range 4).foldl (fun x k =>
        x ||| ((BitVec.ofBool (b.getLsbD (shift - 2 * k))).setWidth 8 : Byte) <<< (shift - 2 * k))
          x := by
    intro c at_ shift x h
    unfold gather
    refine List.foldl_ext _ _ _ fun y k hk => ?_
    rw [h k (List.mem_range.mp hk)]
  rw [hfold c at_ 7 0 hodd, hfold c' at_' 6 _ heven]
  exact hall b

theorem getElem?_flatMap_bits (shift : Nat) {bytes : List Byte} {i k : Nat} {b : Byte}
    (h : bytes[i]? = some b) (hk : k < 4) :
    (bytes.flatMap (Encoder.bits shift))[4 * i + k]? = some (b.getLsbD (shift - 2 * k)) := by
  have hlen : ∀ x ∈ bytes, (Encoder.bits shift x).length = 4 := fun x _ => by simp [Encoder.bits]
  rw [← List.getElem?_drop, drop_flatMap hlen h,
    List.getElem?_append_left (by simpa [Encoder.bits] using hk)]
  unfold Encoder.bits
  rw [List.getElem?_map, List.getElem?_range hk]
  rfl

theorem block_eq (c : Nat → Bool) (at_ : Nat) (bytes : List Byte)
    (h : ∀ i b, (blockBits bytes)[i]? = some b → c (at_ + 2 * i + 1) = b) :
    block c at_ bytes.length = bytes := by
  unfold block
  refine List.ext_getElem (by simp) fun i hi hi' => ?_
  have hget := List.getElem?_eq_getElem hi'
  rw [List.getElem_map, List.getElem_range]
  refine gather_bits _ c c _ _ (fun k hk => ?_) fun k hk => ?_
  · have hodd : (blockBits bytes)[4 * i + k]? = some (bytes[i].getLsbD (7 - 2 * k)) := by
      unfold blockBits
      rw [List.getElem?_append_left (by rw [length_flatMap_bits]; omega)]
      exact getElem?_flatMap_bits 7 hget hk
    have := h _ _ hodd
    rwa [show at_ + 2 * (4 * i + k) + 1 = at_ + 8 * i + 2 * k + 1 by omega] at this
  · have heven : (blockBits bytes)[4 * bytes.length + (4 * i + k)]? =
        some (bytes[i].getLsbD (6 - 2 * k)) := by
      unfold blockBits
      rw [List.getElem?_append_right (by rw [length_flatMap_bits]; omega), length_flatMap_bits,
        Nat.add_sub_cancel_left]
      exact getElem?_flatMap_bits 6 hget hk
    have := h _ _ heven
    rwa [show at_ + 2 * (4 * bytes.length + (4 * i + k)) + 1 =
      at_ + 8 * bytes.length + 8 * i + 2 * k + 1 by omega] at this

/-- **A track read from `r` cells on.** -/
structure Turned (mfm : List Byte) (track : Byte) (data : List Byte) (r : Nat) : Prop where
  length : mfm.length = trackBytes
  whole : data.length = trackData
  cell : ∀ at_, cell mfm at_ = around (Mfm.cells false (trackEntries track data)) (at_ + r)

theorem block_read (h : Turned mfm track data r) {q : Nat} {bytes : List Byte} {rest : List Entry}
    (hdrop : (trackEntries track data).drop q = blockEntries bytes ++ rest) {at_ : Nat}
    (hat : (at_ + r) % 100000 = 2 * q) : block (cell mfm) at_ bytes.length = bytes := by
  refine block_eq _ _ _ fun i b hi => ?_
  have hentry : (blockEntries bytes)[i]? = some ⟨b, false⟩ := by
    unfold blockEntries plain
    rw [List.getElem?_map, hi]
    rfl
  have hthere := Mfm.around_of_drop hdrop hentry ((at_ + r) / 100000)
  rw [length_trackEntries h.whole] at hthere
  have hdata := (Mfm.ring _ (track_pos h.whole track)).data
    (50000 * ((at_ + r) / 100000) + (q + i))
  rw [h.cell, show at_ + 2 * i + 1 + r =
    2 * (50000 * ((at_ + r) / 100000) + (q + i)) + 1 by omega]
  refine hdata.trans ?_
  exact congrArg Entry.data hthere

theorem word_turned (h : Turned mfm track data r) (at_ : Nat) :
    Mfm.word (cell mfm) at_ = Mfm.sync ↔
      ∃ sector < sectors, (at_ + r) % 100000 = syncAt sector ∨
        (at_ + r) % 100000 = syncAt sector + 16 := by
  rw [Mfm.word_eq_sync_iff, ← reads_iff h.whole track (at_ + r)]
  unfold Mfm.Reads
  refine forall_congr' fun k => forall_congr' fun _ => ?_
  rw [h.cell, show at_ + k + r = at_ + r + k by omega]

theorem long_toBe (x : BitVec 32) : long (toBe x) = x := by
  refine BitVec.eq_of_getLsbD_eq fun i hi => ?_
  have hlong : long (toBe x) = ((x >>> 24).setWidth 8 : Byte) ++ ((x >>> 16).setWidth 8 : Byte) ++
      ((x >>> 8).setWidth 8 : Byte) ++ (x.setWidth 8 : Byte) := rfl
  rw [hlong]
  simp only [BitVec.getLsbD_append, BitVec.getLsbD_setWidth, BitVec.getLsbD_ushiftRight]
  by_cases h0 : i < 8
  · simp [h0]
  · by_cases h1 : i - 8 < 8
    · simp [h0, h1, show 8 + (i - 8) = i by omega]
    · by_cases h2 : i - 8 - 8 < 8
      · simp [h0, h1, h2, show 16 + (i - 8 - 8) = i by omega]
      · simp [h0, h1, h2, show 24 + (i - 8 - 8 - 8) = i by omega,
          show i - 8 - 8 - 8 < 8 by omega]

/-- The sector as it was written. -/
def written (track : Byte) (data : List Byte) (sector at_ : Nat) : Sector where
  format := format
  track := track
  sector := BitVec.ofNat 8 sector
  untilGap := BitVec.ofNat 8 (sectors - sector)
  label := label
  headerOk := true
  dataOk := true
  data := slice data sector
  at_ := at_

variable {sector : Nat}

section

variable (h : Turned mfm track data r)
include h

theorem readSector_written (hs : sector < sectors) {body : Nat}
    (hbody : (body + r) % 100000 = syncAt sector + 32) (at_ : Nat) :
    readSector (cell mfm) at_ body = written track data sector at_ := by
  obtain ⟨rest, hdrop⟩ := drop_body h.whole track hs
  unfold bodyEntries at hdrop
  simp only [List.append_assoc] at hdrop
  have hq : ∀ m, m ≤ 224 → (body + 2 * m + r) % 100000 = 2 * (sectorAt sector + 32 + m) := by
    intro m hm
    unfold sectorAt syncAt sectors at *
    omega
  -- the blocks one after the other, each behind the entries of those before it
  have hnext : ∀ {bytes : List Byte} {m : Nat} {after : List Entry},
      (trackEntries track data).drop (sectorAt sector + 32 + m) = blockEntries bytes ++ after →
      (trackEntries track data).drop (sectorAt sector + 32 + (m + 8 * bytes.length)) = after := by
    intro bytes m after hm
    rw [← Nat.add_assoc, ← List.drop_drop, hm]
    exact List.drop_left' (length_blockEntries bytes)
  have hinfo : (trackEntries track data).drop (sectorAt sector + 32 + 0) = _ := hdrop
  have hlabel := hnext hinfo
  have hheader := hnext hlabel
  have hsum := hnext hheader
  have hdata := hnext hsum
  have hslice : (slice data sector).length = sectorBytes := length_slice h.whole hs
  have rinfo := block_read h hinfo (hq 0 (by omega))
  have rlabel := block_read h hlabel (hq 32 (by omega))
  have rheader := block_read h hheader (hq 160 (by omega))
  have rsum := block_read h hsum (hq 192 (by omega))
  have rdata := block_read h hdata (hq 224 (by omega))
  rw [hslice] at rdata
  have binfo : block (cell mfm) body 4 = info track sector := rinfo
  have blabel : block (cell mfm) (body + labelAt) labelBytes = label := rlabel
  have bheader : block (cell mfm) (body + sumsAt) 4 =
      toBe (checksum (info track sector ++ label)) := rheader
  have bsum : block (cell mfm) (body + sumsAt + 64) 4 = toBe (checksum (slice data sector)) := rsum
  have bdata : block (cell mfm) (body + dataAt) sectorBytes = slice data sector := rdata
  unfold readSector
  simp only [binfo, blabel, bheader, bsum, bdata, long_toBe, beq_self_eq_true]
  rfl

theorem cells_turned : mfm.length * 8 = 100000 := by
  rw [h.length]
  rfl

theorem skipSyncs_turned (hs : sector < sectors) {at_ fuel : Nat} (hfuel : 3 ≤ fuel)
    (hat : (at_ + r) % 100000 = syncAt sector ∨ (at_ + r) % 100000 = syncAt sector + 16) :
    ∃ body, skipSyncs (cell mfm) fuel (at_ + 16) = some body ∧
      (body + r) % 100000 = syncAt sector + 32 ∧ at_ + 16 ≤ body ∧ body ≤ at_ + 32 := by
  obtain ⟨n, rfl⟩ : ∃ n, fuel = n + 2 := ⟨fuel - 2, by omega⟩
  -- the cell behind the second sync word is none
  have hstop : ∀ body, (body + r) % 100000 = syncAt sector + 32 →
      ¬ Mfm.word (cell mfm) body = Mfm.sync := by
    intro body hbody hword
    obtain ⟨other, ho, hother⟩ := (word_turned h body).mp hword
    unfold syncAt sectors at *
    omega
  have hback : (at_ + 16 + r) % 100000 = syncAt sector + 16 ∨
      (at_ + 16 + r) % 100000 = syncAt sector + 32 := by
    unfold syncAt sectors at *
    omega
  rcases hback with hfirst | hsecond
  · have hnext : (at_ + 16 + 16 + r) % 100000 = syncAt sector + 32 := by
      unfold syncAt sectors at *
      omega
    refine ⟨at_ + 32, ?_, hnext, by omega, by omega⟩
    rw [skipSyncs, if_pos ((word_turned h _).mpr ⟨sector, hs, .inr hfirst⟩), skipSyncs,
      if_neg (hstop _ hnext)]
  · refine ⟨at_ + 16, ?_, hsecond, by omega, by omega⟩
    rw [skipSyncs, if_neg (hstop _ hsecond)]

theorem scanFrom_turned (fuel at_ : Nat)
    (hfuel : 100000 - at_ + 3 ≤ fuel) :
    ∃ found, scanFrom mfm fuel at_ = some found ∧
      (∀ s ∈ found, ∃ sector < sectors, ∃ a, s = written track data sector a) ∧
      ∀ sector < sectors, ∀ x, at_ ≤ x → x < 100000 → (x + r) % 100000 = syncAt sector →
        ∃ a, written track data sector a ∈ found := by
  induction fuel generalizing at_ with
  | zero => omega
  | succ fuel ih =>
    rw [scanFrom, cells_turned h]
    by_cases hend : at_ < 100000
    · rw [if_pos hend]
      by_cases hword : Mfm.word (cell mfm) at_ = Mfm.sync
      · rw [if_neg (not_not_intro hword)]
        obtain ⟨sector, hs, hat⟩ := (word_turned h at_).mp hword
        obtain ⟨body, hskip, hbody, hlo, hhi⟩ :=
          skipSyncs_turned h hs (show 3 ≤ fuel by omega) hat
        have hread := readSector_written h hs hbody at_
        have hsectorEnd : sectorEnd = 8640 := rfl
        obtain ⟨found, hscan, hgenuine, hcovers⟩ := ih (body + sectorEnd) (by omega)
        refine ⟨written track data sector at_ :: found, ?_, ?_, ?_⟩
        · rw [hskip, Option.bind_some, hread]
          dsimp only
          rw [if_pos (show (written track data sector at_).headerOk = true from rfl), hscan]
          rfl
        · intro s hmem
          rcases List.mem_cons.mp hmem with rfl | hmem
          · exact ⟨sector, hs, at_, rfl⟩
          · exact hgenuine s hmem
        · intro other ho x hx hxend hxat
          by_cases hpast : body + sectorEnd ≤ x
          · obtain ⟨a, ha⟩ := hcovers other ho x hpast hxend hxat
            exact ⟨a, List.mem_cons_of_mem _ ha⟩
          · -- what is skipped over holds the start of this sector only
            have hround : (x + r) / 100000 = (at_ + r) / 100000 ∨
                (x + r) / 100000 = (at_ + r) / 100000 + 1 := by omega
            have hsame : other = sector := by
              unfold syncAt sectors at *
              rcases hround with hround | hround
              · omega
              · omega
            exact ⟨at_, hsame ▸ List.mem_cons_self⟩
      · rw [if_pos hword]
        obtain ⟨found, hscan, hgenuine, hcovers⟩ := ih (at_ + 1) (by omega)
        refine ⟨found, hscan, hgenuine, fun sector hs x hx hxend hxat => ?_⟩
        have hne : x ≠ at_ := by
          rintro rfl
          exact hword ((word_turned h x).mpr ⟨sector, hs, .inl hxat⟩)
        exact hcovers sector hs x (by omega) hxend hxat
    · rw [if_neg hend]
      exact ⟨[], rfl, by simp, fun sector hs x hx hxend _ => absurd hxend (by omega)⟩

theorem scanTrack_turned {fuel : Nat} (hfuel : trackCells + 3 ≤ fuel) :
    ∃ found, scanTrack fuel mfm = some found ∧
      (∀ s ∈ found, ∃ sector < sectors, ∃ a, s = written track data sector a) ∧
      ∀ sector < sectors, ∃ a, written track data sector a ∈ found := by
  have htrack : trackCells = 100000 := rfl
  obtain ⟨found, hscan, hgenuine, hcovers⟩ := scanFrom_turned h fuel 0 (by omega)
  refine ⟨found, hscan, hgenuine, fun sector hs => ?_⟩
  refine hcovers sector hs ((syncAt sector + (100000 - r % 100000)) % 100000) (Nat.zero_le _)
    (Nat.mod_lt _ (by decide)) ?_
  unfold syncAt sectors at *
  omega

end

theorem goodFor_written (track : Byte) (data : List Byte) (hs : sector < sectors) (a : Nat) :
    (written track data sector a).goodFor track = true := by
  have hnat : (BitVec.ofNat 8 sector).toNat = sector := by
    rw [BitVec.toNat_ofNat, Nat.mod_eq_of_lt]
    unfold sectors at hs
    omega
  unfold Sector.goodFor written
  simp [hnat, hs]

theorem toNat_written (track : Byte) (data : List Byte) (hs : sector < sectors) (a : Nat) :
    (written track data sector a).sector.toNat = sector := by
  change (BitVec.ofNat 8 sector).toNat = sector
  rw [BitVec.toNat_ofNat, Nat.mod_eq_of_lt]
  unfold sectors at hs
  omega

/-- The slots hold sectors of the track, in their places. -/
structure Slots (data : List Byte) (out : List (Option (List Byte))) : Prop where
  length : out.length = sectors
  genuine : ∀ (sector : Nat) (bytes : List Byte), out[sector]? = some (some bytes) →
    bytes = slice data sector

theorem Slots.put {out : List (Option (List Byte))} (h : Slots data out) (track : Byte)
    (hs : sector < sectors) (a : Nat) :
    Slots data (place track out (written track data sector a)) ∧
      (place track out (written track data sector a))[sector]? = some (some (slice data sector)) ∧
      ∀ (other : Nat) (bytes : List Byte), out[other]? = some (some bytes) →
        (place track out (written track data sector a))[other]? = some (some bytes) := by
  have hlt : sector < out.length := h.length ▸ hs
  unfold Amiga.place
  rw [goodFor_written _ _ hs, toNat_written _ _ hs, Bool.true_and]
  split
  · rename_i hempty
    have hnone : out[sector]? = some none := by
      rw [List.getElem?_eq_getElem hlt]
      rw [List.getD_eq_getElem _ _ hlt] at hempty
      exact congrArg some (by simpa using hempty)
    have hset : (out.set sector (some (slice data sector)))[sector]? =
        some (some (slice data sector)) := by
      rw [List.getElem?_set_self hlt]
    refine ⟨⟨(List.length_set).trans h.length, fun other bytes hother => ?_⟩, hset, ?_⟩
    · by_cases heq : sector = other
      · rw [← heq] at hother ⊢
        exact Option.some.inj (Option.some.inj (hother.symm.trans hset))
      · rw [List.getElem?_set_ne heq] at hother
        exact h.genuine other bytes hother
    · intro other bytes hother
      have hne : sector ≠ other := fun heq => by
        rw [← heq, hnone] at hother
        cases hother
      rw [List.getElem?_set_ne hne]
      exact hother
  · rename_i hfull
    refine ⟨h, ?_, fun _ _ hother => hother⟩
    cases hget : out[sector]? with
    | none => rw [List.getElem?_eq_getElem hlt] at hget; cases hget
    | some slot =>
      cases slot with
      | none =>
        rw [List.getD_eq_getElem?_getD, hget] at hfull
        exact absurd rfl hfull
      | some bytes => rw [h.genuine sector bytes hget]

end Rsemu.Amiga
