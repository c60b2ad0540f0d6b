import Rsemu.Amiga.Layout

/-!
# Sync words of an Amiga track

A clock is missing at two places of a sector, one in each sync word (`missing_sector`), and
behind each comes a one. So the sync word is read at those two places of each sector and
nowhere else (`reads_iff`), and behind the second a block is read back where it was laid
down (`block_read`), in whatever round of the track.
-/

namespace Rsemu.Amiga

open Mfm (Entry around)

variable {track : Byte} {data : List Byte}

variable {e : Entry} {sector : Nat}

theorem missing_plain {bits : List Bool} {i : Nat} (h : (plain bits)[i]? = some e) :
    e.missing = false := by
  unfold plain at h
  rw [List.getElem?_map] at h
  obtain ⟨b, _, rfl⟩ := Option.map_eq_some_iff.mp h
  rfl

theorem missing_sync {i : Nat} (h : Mfm.syncEntries[i]? = some e) (hm : e.missing = true) :
    i = 5 := by
  have hi : i < 8 := (List.getElem?_eq_some_iff.mp h).1
  have hall : ∀ i < 8, (Mfm.syncEntries.getD i default).missing = true → i = 5 := by decide
  refine hall i hi ?_
  rw [List.getD_eq_getElem?_getD, h]
  exact hm

theorem missing_append {xs ys : List Entry} {i : Nat} (h : (xs ++ ys)[i]? = some e) :
    (i < xs.length ∧ xs[i]? = some e) ∨ (xs.length ≤ i ∧ ys[i - xs.length]? = some e) := by
  rcases Nat.lt_or_ge i xs.length with hlt | hge
  · rw [List.getElem?_append_left hlt] at h
    exact .inl ⟨hlt, h⟩
  · rw [List.getElem?_append_right hge] at h
    exact .inr ⟨hge, h⟩

theorem missing_body {bytes : List Byte} {i : Nat}
    (h : (bodyEntries track sector bytes)[i]? = some e) : e.missing = false := by
  rcases missing_append h with ⟨_, h⟩ | ⟨_, h⟩
  · exact missing_plain h
  rcases missing_append h with ⟨_, h⟩ | ⟨_, h⟩
  · exact missing_plain h
  rcases missing_append h with ⟨_, h⟩ | ⟨_, h⟩
  · exact missing_plain h
  rcases missing_append h with ⟨_, h⟩ | ⟨_, h⟩
  · exact missing_plain h
  · exact missing_plain h

theorem missing_sector {bytes : List Byte} {i : Nat}
    (h : (sectorEntries track sector bytes)[i]? = some e) (hm : e.missing = true) :
    i = 21 ∨ i = 29 := by
  have hzeros : (blockEntries [0, 0]).length = 16 := by simp
  have hsync : Mfm.syncEntries.length = 8 := rfl
  rcases missing_append h with ⟨_, h⟩ | ⟨hge, h⟩
  · exact absurd (missing_plain h) (by simp [hm])
  rcases missing_append h with ⟨_, h⟩ | ⟨hge', h⟩
  · have := missing_sync h hm
    omega
  rcases missing_append h with ⟨_, h⟩ | ⟨_, h⟩
  · have := missing_sync h hm
    omega
  · exact absurd (missing_body h) (by simp [hm])

def sectorAt (sector : Nat) : Nat := 2128 + 4352 * sector

section

variable (hdata : data.length = trackData)
include hdata

theorem missing_track {i : Nat}
    (h : (trackEntries track data)[i]? = some e) (hm : e.missing = true) :
    ∃ sector < sectors, i = sectorAt sector + 21 ∨ i = sectorAt sector + 29 := by
  have hi : i < 50000 := by
    have := (List.getElem?_eq_some_iff.mp h).1
    rwa [length_trackEntries hdata] at this
  have hge : 2128 ≤ i := by
    by_contra hlt
    unfold trackEntries at h
    rw [List.getElem?_append_left (by rw [length_gapEntries]; omega)] at h
    exact absurd (missing_plain h) (by simp [hm])
  have hs : (i - 2128) / 4352 < sectors := by
    unfold sectors
    omega
  obtain ⟨rest, hdrop⟩ := drop_trackEntries hdata track hs
  have hlen := length_sectorEntries track ((i - 2128) / 4352) (length_slice hdata hs)
  have hget : (trackEntries track data)[2128 + 4352 * ((i - 2128) / 4352) + (i - 2128) % 4352]? =
      some e := by
    rw [show 2128 + 4352 * ((i - 2128) / 4352) + (i - 2128) % 4352 = i by omega]
    exact h
  rw [← List.getElem?_drop, hdrop, List.getElem?_append_left
    (by rw [hlen]; exact Nat.mod_lt _ (by decide))] at hget
  refine ⟨_, hs, ?_⟩
  unfold sectorAt
  rcases missing_sector hget hm with h21 | h29
  · left
    omega
  · right
    omega

theorem track_pos (track : Byte) : 0 < (trackEntries track data).length := by
  rw [length_trackEntries hdata]
  decide

theorem drop_sync (track : Byte) (hs : sector < sectors) :
    ∃ rest, (trackEntries track data).drop (sectorAt sector + 16) =
      Mfm.syncEntries ++ (Mfm.syncEntries ++ (bodyEntries track sector (slice data sector) ++
        rest)) := by
  obtain ⟨rest, hdrop⟩ := drop_trackEntries hdata track hs
  refine ⟨rest, ?_⟩
  unfold sectorAt
  rw [← List.drop_drop, hdrop]
  unfold sectorEntries
  rw [List.append_assoc, List.drop_left' (by simp)]
  simp only [List.append_assoc]

theorem drop_second (track : Byte) (hs : sector < sectors) :
    ∃ rest, (trackEntries track data).drop (sectorAt sector + 24) =
      Mfm.syncEntries ++ (bodyEntries track sector (slice data sector) ++ rest) := by
  obtain ⟨rest, hdrop⟩ := drop_sync hdata track hs
  exact ⟨rest, by rw [show sectorAt sector + 24 = sectorAt sector + 16 + 8 by omega,
    ← List.drop_drop, hdrop]; rfl⟩

theorem drop_body (track : Byte) (hs : sector < sectors) :
    ∃ rest, (trackEntries track data).drop (sectorAt sector + 32) =
      bodyEntries track sector (slice data sector) ++ rest := by
  obtain ⟨rest, hdrop⟩ := drop_second hdata track hs
  exact ⟨rest, by rw [show sectorAt sector + 32 = sectorAt sector + 24 + 8 by omega,
    ← List.drop_drop, hdrop]; rfl⟩

theorem shows_sync (track : Byte) {q : Nat} {rest : List Entry}
    (h : (trackEntries track data).drop q = Mfm.syncEntries ++ (⟨true, false⟩ :: rest)) (t : Nat) :
    (Mfm.ring _ (track_pos hdata track)).Shows ((trackEntries track data).length * t + q)
      (Mfm.Stream.a1 ++ [true]) := by
  have h' : (trackEntries track data).drop q = (Mfm.syncEntries ++ [⟨true, false⟩]) ++ rest := by
    rw [h, List.append_assoc]
    rfl
  exact Mfm.shows_of_drop (track_pos hdata track) h' t

theorem missing_around {p : Nat}
    (h : (around (trackEntries track data) (p + 5)).missing = true) :
    ∃ sector < sectors, ∃ t, p = 50000 * t + (sectorAt sector + 16) ∨
      p = 50000 * t + (sectorAt sector + 24) := by
  have hget := Mfm.getElem?_mod (track_pos hdata track) (p + 5)
  have hround := Nat.div_add_mod (p + 5) (trackEntries track data).length
  rw [length_trackEntries hdata] at hget hround
  obtain ⟨sector, hs, hi⟩ := missing_track hdata hget h
  refine ⟨sector, hs, (p + 5) / 50000, ?_⟩
  rcases hi with hi | hi
  · left
    omega
  · right
    omega

theorem marked_track (track : Byte) : (Mfm.ring _ (track_pos hdata track)).Marked := by
  intro p hmissing
  left
  obtain ⟨sector, hs, t, hp⟩ := missing_around hdata hmissing
  rcases hp with hp | hp
  · obtain ⟨rest, hdrop⟩ := drop_sync hdata track hs
    have := shows_sync hdata track hdrop t
    rwa [length_trackEntries hdata, ← hp] at this
  · obtain ⟨rest, hdrop⟩ := drop_second hdata track hs
    have := shows_sync hdata track hdrop t
    rwa [length_trackEntries hdata, ← hp] at this

end

def syncAt (sector : Nat) : Nat := 4288 + 8704 * sector

theorem reads_at (hdata : data.length = trackData) (track : Byte) {q : Nat}
    {rest : List Entry} (hq : q ≤ 50000)
    (h : (trackEntries track data).drop q = Mfm.syncEntries ++ rest) {at_ : Nat}
    (hat : at_ % 100000 = 2 * q) :
    Mfm.Reads (around (Mfm.cells false (trackEntries track data))) at_ := by
  have hsplit : trackEntries track data =
      (trackEntries track data).take q ++ Mfm.syncEntries ++ rest := by
    rw [List.append_assoc, ← h, List.take_append_drop]
  have htake : ((trackEntries track data).take q).length = q := by
    rw [List.length_take, length_trackEntries hdata, Nat.min_eq_left hq]
  rw [hsplit]
  refine Mfm.reads_written _ _ at_ ?_
  rw [← hsplit, length_trackEntries hdata, htake]
  exact hat

theorem reads_iff (hdata : data.length = trackData) (track : Byte) (at_ : Nat) :
    Mfm.Reads (around (Mfm.cells false (trackEntries track data))) at_ ↔
      ∃ sector < sectors, at_ % 100000 = syncAt sector ∨ at_ % 100000 = syncAt sector + 16 := by
  constructor
  · intro hreads
    obtain ⟨p, hat, _, hmissing⟩ := (marked_track hdata track).reads hreads
    obtain ⟨sector, hs, t, hp⟩ := missing_around hdata hmissing
    refine ⟨sector, hs, ?_⟩
    unfold sectorAt sectors syncAt at *
    rcases hp with hp | hp
    · left
      omega
    · right
      omega
  · intro hsync
    obtain ⟨sector, hs, hat⟩ := hsync
    rcases hat with hat | hat
    · obtain ⟨rest, hdrop⟩ := drop_sync hdata track hs
      refine reads_at hdata track ?_ hdrop ?_
      · unfold sectorAt sectors at *
        omega
      · unfold sectorAt syncAt at *
        omega
    · obtain ⟨rest, hdrop⟩ := drop_second hdata track hs
      refine reads_at hdata track ?_ hdrop ?_
      · unfold sectorAt sectors at *
        omega
      · unfold sectorAt syncAt at *
        omega

end Rsemu.Amiga
