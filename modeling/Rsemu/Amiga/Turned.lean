import Rsemu.Amiga.Scan
import Mathlib.Data.List.Rotate

/-!
# Wherever the index falls

The slots of a track read from any cell are its slices (`decodeTrack_turned`), and a track
turned by bytes or by cells is such a track.
-/

namespace Rsemu.Amiga

open Mfm (shiftIn around)

variable {track : Byte} {data mfm : List Byte} {r : Nat}

def slices (data : List Byte) : List (Option (List Byte)) :=
  (List.range sectors).map fun sector => some (slice data sector)

theorem Slots.fold {out : List (Option (List Byte))} (h : Slots data out) {found : List Sector}
    (hgenuine : ∀ s ∈ found, ∃ sector < sectors, ∃ a, s = written track data sector a) :
    Slots data (found.foldl (place track) out) ∧
      (∀ (other : Nat) (bytes : List Byte), out[other]? = some (some bytes) →
        (found.foldl (place track) out)[other]? = some (some bytes)) ∧
      ∀ sector < sectors, ∀ a, written track data sector a ∈ found →
        (found.foldl (place track) out)[sector]? = some (some (slice data sector)) := by
  induction found generalizing out with
  | nil => exact ⟨h, fun _ _ ho => ho, fun _ _ _ hmem => absurd hmem List.not_mem_nil⟩
  | cons s found ih =>
    obtain ⟨⟨sector, hs, a, rfl⟩, hrest⟩ := List.forall_mem_cons.mp hgenuine
    obtain ⟨hslots, hfilled, hkept⟩ := h.put track hs a
    obtain ⟨hall, hkeep, hfill⟩ := ih hslots hrest
    refine ⟨hall, fun other bytes ho => hkeep _ _ (hkept _ _ ho), fun other ho b hmem => ?_⟩
    rcases List.mem_cons.mp hmem with heq | hmem
    · have hsame : other = sector := by
        rw [← toNat_written track data ho b, ← toNat_written track data hs a, heq]
      rw [List.foldl_cons, hsame]
      exact hkeep _ _ hfilled
    · exact hfill other ho b hmem

theorem decodeTrack_turned (h : Turned mfm track data r) {fuel : Nat}
    (hfuel : trackCells + 3 ≤ fuel) :
    decodeTrack fuel mfm track = some (slices data) ∧
      ∃ found, scanTrack fuel mfm = some found ∧
        ∀ s ∈ found, s.goodFor track = true ∧ s.sector.toNat < sectors ∧
          s.data = slice data s.sector.toNat := by
  obtain ⟨found, hscan, hgenuine, hcovers⟩ := scanTrack_turned h hfuel
  constructor
  · have hempty : Slots data (List.replicate sectors none) := by
      refine ⟨List.length_replicate, fun sector bytes hget => ?_⟩
      rw [List.getElem?_replicate] at hget
      split at hget
      · cases hget
      · cases hget
    obtain ⟨hslots, _, hfill⟩ := hempty.fold hgenuine
    unfold decodeTrack
    rw [hscan, Option.map_some]
    refine congrArg some (List.ext_getElem ?_ fun sector hl hl' => ?_)
    · rw [hslots.length]
      simp [slices]
    · have hs : sector < sectors := hslots.length ▸ hl
      obtain ⟨a, ha⟩ := hcovers sector hs
      have hget := hfill sector hs a ha
      rw [List.getElem?_eq_getElem hl] at hget
      rw [Option.some.inj hget]
      simp [slices]
  · refine ⟨found, hscan, fun s hmem => ?_⟩
    obtain ⟨sector, hs, a, rfl⟩ := hgenuine s hmem
    have hnat := toNat_written track data hs a
    exact ⟨goodFor_written track data hs a, hnat.symm ▸ hs, hnat.symm ▸ rfl⟩

def turn (r : Nat) (mfm : List Byte) : List Byte :=
  (List.range mfm.length).map fun i =>
    (List.range 8).foldl (fun b k => shiftIn b (cell mfm (8 * i + k + r))) 0

theorem cell_mod (mfm : List Byte) (at_ : Nat) : cell mfm (at_ % (mfm.length * 8)) = cell mfm at_ := by
  unfold cell
  rw [Nat.mod_mod]

theorem cell_turn (hpos : 0 < mfm.length) (r at_ : Nat) :
    cell (turn r mfm) at_ = cell mfm (at_ + r) := by
  have hlen : (turn r mfm).length = mfm.length := by simp [turn]
  have hlt : at_ % (mfm.length * 8) < mfm.length * 8 := Nat.mod_lt _ (by omega)
  obtain ⟨x, hx⟩ : ∃ x, x = at_ % (mfm.length * 8) := ⟨_, rfl⟩
  have hround : cell mfm (at_ + r) = cell mfm (x + r) := by
    rw [← cell_mod mfm (at_ + r), ← cell_mod mfm (x + r), hx, Nat.mod_add_mod]
  rw [hround]
  have hleft : cell (turn r mfm) at_ = ((turn r mfm).getD (x / 8) 0).getLsbD (7 - x % 8) := by
    unfold cell
    rw [hlen, hx]
  rw [hleft]
  have hbyte : (turn r mfm).getD (x / 8) 0 =
      ((List.range 8).map fun k => cell mfm (8 * (x / 8) + k + r)).foldl shiftIn 0 := by
    unfold turn
    rw [List.getD_eq_getElem?_getD, List.getElem?_map, List.getElem?_range (by omega),
      List.foldl_map]
    rfl
  rw [hbyte, Mfm.getLsbD_foldl_shiftIn _ _ _ (by omega), List.length_map, List.length_range,
    if_pos (by omega), List.getD_eq_getElem?_getD, List.getElem?_map,
    List.getElem?_range (by omega)]
  change cell mfm _ = cell mfm (x + r)
  congr 1
  omega

theorem cell_rotate (hpos : 0 < mfm.length) (n at_ : Nat) :
    cell (mfm.rotate n) at_ = cell mfm (at_ + 8 * n) := by
  have hmod : ∀ x, x % (mfm.length * 8) / 8 = x / 8 % mfm.length := fun x => by
    rw [Nat.mul_comm, Nat.mod_mul_right_div_self]
  have hbit : ∀ x, x % (mfm.length * 8) % 8 = x % 8 := fun x => by
    rw [Nat.mul_comm, Nat.mod_mul_right_mod]
  have hi : at_ / 8 % mfm.length < (mfm.rotate n).length := by
    rw [List.length_rotate]
    exact Nat.mod_lt _ hpos
  unfold cell
  dsimp only
  rw [List.length_rotate, hmod, hmod, hbit, hbit, Nat.add_mul_mod_self_left,
    Nat.add_mul_div_left _ _ (by decide), List.getD_eq_getElem _ _ hi, List.getElem_rotate,
    List.getD_eq_getElem _ _ (Nat.mod_lt _ hpos)]
  congr 2
  rw [Nat.mod_add_mod]

theorem turned_of_cells (hdata : data.length = trackData) (hlen : mfm.length = trackBytes)
    (hcell : ∀ at_, cell mfm at_ = cell (encodeTrack track data) (at_ + r)) :
    Turned mfm track data r where
  length := hlen
  whole := hdata
  cell := fun at_ => by rw [hcell, cell_encodeTrack hdata]

theorem turned_turn (hdata : data.length = trackData) (track : Byte) (r : Nat) :
    Turned (turn r (encodeTrack track data)) track data r := by
  have hlen := length_encodeTrack hdata track
  refine turned_of_cells hdata (by simp [turn, hlen]) fun at_ => cell_turn ?_ r at_
  rw [hlen]
  decide

theorem turned_rotate (hdata : data.length = trackData) (track : Byte) (n : Nat) :
    Turned ((encodeTrack track data).rotate n) track data (8 * n) := by
  have hlen := length_encodeTrack hdata track
  refine turned_of_cells hdata (by rw [List.length_rotate, hlen]) fun at_ => cell_rotate ?_ n at_
  rw [hlen]
  decide

/-- **Amiga tracks decode to what was encoded, wherever the index falls.** From the index, from
any whole number of bytes or from any cell on, the scan ends, every sector comes back in its
slot, and every sector it reports good is one of the eleven, with the data that was written. -/
theorem turned_track_decodes (track : Byte) (data : List Byte) (hdata : data.length = trackData)
    (fuel : Nat) (hfuel : trackCells + 3 ≤ fuel) :
    decodeTrack fuel (encodeTrack track data) track = some (slices data) ∧
      (∀ n, decodeTrack fuel ((encodeTrack track data).rotate n) track = some (slices data)) ∧
      ∀ r, decodeTrack fuel (turn r (encodeTrack track data)) track = some (slices data) ∧
        ∃ found, scanTrack fuel (turn r (encodeTrack track data)) = some found ∧
          ∀ s ∈ found, s.goodFor track = true ∧ s.sector.toNat < sectors ∧
            s.data = slice data s.sector.toNat := by
  have hbytes := fun n => (decodeTrack_turned (turned_rotate hdata track n) hfuel).1
  refine ⟨?_, hbytes, fun r => decodeTrack_turned (turned_turn hdata track r) hfuel⟩
  have := hbytes 0
  rwa [List.rotate_zero] at this

/-- A track of sync bytes as data. -/
theorem turned_syncs_decode :
    decodeTrack 100003 ((encodeTrack 7 (List.replicate trackData 0xa1)).rotate 4000) 7 =
      some (slices (List.replicate trackData 0xa1)) :=
  (turned_track_decodes 7 (List.replicate trackData 0xa1) List.length_replicate 100003
    (by decide)).2.1 4000

end Rsemu.Amiga
