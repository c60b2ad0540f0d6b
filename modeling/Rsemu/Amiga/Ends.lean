import Rsemu.Amiga.Adf

/-!
# When a scan ends

A step of the scan moves on by a cell at least, and stops past the last. Between two steps it
skips sync words, round and round the track, with nothing to stop it but a word that is not
one. So the scan ends on every track except those whose cells are the sync word over and over,
wherever in a byte the first one starts (`scan_ends_iff`).
-/

namespace Rsemu.Amiga

variable {c : Nat → Bool} {mfm : List Byte}

/-- **Nothing but sync words**, all the way round. -/
def OnlySyncs (mfm : List Byte) : Prop :=
  0 < mfm.length ∧ ∃ e, ∀ x, cell mfm x = Mfm.sync.getLsbD (15 - (x + e) % 16)

theorem scanFrom_sync {fuel at_ body : Nat} (hlt : at_ < mfm.length * 8)
    (hsync : Mfm.word (cell mfm) at_ = Mfm.sync)
    (hskip : skipSyncs (cell mfm) fuel (at_ + 16) = some body) :
    scanFrom mfm (fuel + 1) at_ =
      (scanFrom mfm fuel
        (if (readSector (cell mfm) at_ body).headerOk then body + sectorEnd else at_ + 1)).map
          (readSector (cell mfm) at_ body :: ·) := by
  rw [scanFrom, if_pos hlt, if_neg (not_not.mpr hsync), hskip]
  rfl

theorem skipSyncs_mono {fuel body found : Nat} (h : skipSyncs c fuel body = some found)
    {more : Nat} (hmore : fuel ≤ more) : skipSyncs c more body = some found := by
  induction fuel generalizing body more with
  | zero => exact absurd h (by simp [skipSyncs])
  | succ fuel ih =>
    obtain ⟨more, rfl⟩ : ∃ n, more = n + 1 := ⟨more - 1, by omega⟩
    rw [skipSyncs] at h ⊢
    split
    · rename_i hsync
      rw [if_pos hsync] at h
      exact ih h (by omega)
    · rename_i hsync
      rwa [if_neg hsync] at h

theorem scanFrom_mono {fuel at_ : Nat} {found : List Sector}
    (h : scanFrom mfm fuel at_ = some found) {more : Nat} (hmore : fuel ≤ more) :
    scanFrom mfm more at_ = some found := by
  induction fuel generalizing at_ more found with
  | zero => exact absurd h (by simp [scanFrom])
  | succ fuel ih =>
    obtain ⟨more, rfl⟩ : ∃ n, more = n + 1 := ⟨more - 1, by omega⟩
    by_cases hlt : at_ < mfm.length * 8
    · by_cases hsync : Mfm.word (cell mfm) at_ = Mfm.sync
      · obtain ⟨body, hskip⟩ : ∃ body, skipSyncs (cell mfm) fuel (at_ + 16) = some body := by
          rw [scanFrom, if_pos hlt, if_neg (not_not.mpr hsync), Option.bind_eq_some_iff] at h
          obtain ⟨body, hbody, -⟩ := h
          exact ⟨body, hbody⟩
        rw [scanFrom_sync hlt hsync hskip] at h
        obtain ⟨rest, hrest, rfl⟩ := Option.map_eq_some_iff.mp h
        rw [scanFrom_sync hlt hsync (skipSyncs_mono hskip (by omega)), ih hrest (by omega),
          Option.map_some]
      · rw [scanFrom, if_pos hlt, if_pos hsync] at h ⊢
        exact ih h (by omega)
    · rw [scanFrom, if_neg hlt] at h ⊢
      exact h

theorem skipSyncs_of_broken {k : Nat} {body : Nat}
    (h : Mfm.word c (body + 16 * k) ≠ Mfm.sync) :
    ∃ fuel found, skipSyncs c fuel body = some found ∧ body ≤ found := by
  induction k generalizing body with
  | zero => exact ⟨1, body, by rw [skipSyncs, if_neg (by simpa using h)], le_rfl⟩
  | succ k ih =>
    by_cases hsync : Mfm.word c body = Mfm.sync
    · obtain ⟨fuel, found, hskip, hle⟩ := @ih (body + 16)
        (by rwa [show body + 16 + 16 * k = body + 16 * (k + 1) by omega])
      exact ⟨fuel + 1, found, by rw [skipSyncs, if_pos hsync, hskip], by omega⟩
    · exact ⟨1, body, by rw [skipSyncs, if_neg hsync], le_rfl⟩

theorem cell_round (mfm : List Byte) (x n : Nat) :
    cell mfm (x + mfm.length * 8 * n) = cell mfm x := by
  unfold cell
  rw [Nat.add_mul_mod_self_left]

theorem onlySyncs_of_run (hpos : 0 < mfm.length) {at_ : Nat}
    (h : ∀ k, Mfm.word (cell mfm) (at_ + 16 * k) = Mfm.sync) : OnlySyncs mfm := by
  refine ⟨hpos, 15 * at_, fun x => ?_⟩
  -- the same cell, far enough round to lie behind the start of the run
  obtain ⟨far, hfar⟩ : ∃ far, far = mfm.length * 8 * at_ := ⟨_, rfl⟩
  have hle : at_ ≤ far := by
    rw [hfar]
    exact Nat.le_mul_of_pos_left _ (by omega)
  have hround : cell mfm (x + 16 * far) = cell mfm x := by
    rw [hfar, show 16 * (mfm.length * 8 * at_) = mfm.length * 8 * (16 * at_) by
      rw [Nat.mul_left_comm]]
    exact cell_round mfm x (16 * at_)
  have hread := Mfm.word_eq_sync_iff.mp (h ((x + 16 * far - at_) / 16))
    ((x + 16 * far - at_) % 16) (by omega)
  rw [show at_ + 16 * ((x + 16 * far - at_) / 16) + (x + 16 * far - at_) % 16 = x + 16 * far by
    omega, hround] at hread
  rw [hread]
  congr 2
  omega

theorem scanFrom_ends (h : ¬ OnlySyncs mfm) (at_ : Nat) :
    ∃ fuel found, scanFrom mfm fuel at_ = some found := by
  by_cases hlt : at_ < mfm.length * 8
  · by_cases hsync : Mfm.word (cell mfm) at_ = Mfm.sync
    · obtain ⟨k, hk⟩ : ∃ k, Mfm.word (cell mfm) (at_ + 16 + 16 * k) ≠ Mfm.sync := by
        by_contra hrun
        have hall : ∀ k, Mfm.word (cell mfm) (at_ + 16 + 16 * k) = Mfm.sync :=
          fun k => not_not.mp fun hne => hrun ⟨k, hne⟩
        exact h (onlySyncs_of_run (by omega) hall)
      obtain ⟨skip, body, hskip, hbody⟩ := skipSyncs_of_broken hk
      -- a good header or not, the next step starts further on
      have hahead : at_ <
          if (readSector (cell mfm) at_ body).headerOk then body + sectorEnd else at_ + 1 := by
        split
        · omega
        · omega
      obtain ⟨fuel, found, hrest⟩ := scanFrom_ends h
        (if (readSector (cell mfm) at_ body).headerOk then body + sectorEnd else at_ + 1)
      refine ⟨skip + fuel + 1, readSector (cell mfm) at_ body :: found, ?_⟩
      rw [scanFrom_sync hlt hsync (skipSyncs_mono hskip (by omega)),
        scanFrom_mono hrest (by omega), Option.map_some]
    · obtain ⟨fuel, found, hrest⟩ := scanFrom_ends h (at_ + 1)
      exact ⟨fuel + 1, found, by rw [scanFrom, if_pos hlt, if_pos hsync, hrest]⟩
  · exact ⟨1, [], by rw [scanFrom, if_neg hlt]⟩
termination_by mfm.length * 8 - at_

theorem sync_rotation : ∀ m < 16,
    (∀ k < 16, Mfm.sync.getLsbD (15 - (m + k) % 16) = Mfm.sync.getLsbD (15 - k)) → m = 0 := by
  decide

theorem word_eq_sync_of_cells {e at_ : Nat}
    (h : ∀ x, c x = Mfm.sync.getLsbD (15 - (x + e) % 16)) :
    Mfm.word c at_ = Mfm.sync ↔ (at_ + e) % 16 = 0 := by
  rw [Mfm.word_eq_sync_iff]
  constructor
  · intro hreads
    refine sync_rotation _ (by omega) fun k hk => ?_
    rw [← hreads k hk, h]
    congr 2
    omega
  · intro hzero k hk
    rw [h]
    congr 2
    omega

theorem skipSyncs_never {e body : Nat} (h : ∀ x, c x = Mfm.sync.getLsbD (15 - (x + e) % 16))
    (hbody : (body + e) % 16 = 0) (fuel : Nat) : skipSyncs c fuel body = none := by
  induction fuel generalizing body with
  | zero => rfl
  | succ fuel ih =>
    rw [skipSyncs, if_pos ((word_eq_sync_of_cells h).mpr hbody)]
    exact ih (by omega)

theorem length_of_cells {e : Nat} (h : ∀ x, cell mfm x = Mfm.sync.getLsbD (15 - (x + e) % 16)) :
    mfm.length * 8 % 16 = 0 := by
  refine sync_rotation _ (by omega) fun k _ => ?_
  -- the cell that stands `k` into a sync word, and the same cell a round later
  have hround := cell_round mfm (k + 15 * e) 1
  rw [Nat.mul_one, h, h] at hround
  rw [show (mfm.length * 8 % 16 + k) % 16 = (k + 15 * e + mfm.length * 8 + e) % 16 by omega,
    hround]
  congr 2
  omega

theorem scanFrom_never {e : Nat} (hpos : 0 < mfm.length)
    (h : ∀ x, cell mfm x = Mfm.sync.getLsbD (15 - (x + e) % 16)) (fuel : Nat) {at_ : Nat}
    (hat : at_ ≤ (16 - e % 16) % 16) : scanFrom mfm fuel at_ = none := by
  induction fuel generalizing at_ with
  | zero => rfl
  | succ fuel ih =>
    have hlength := length_of_cells h
    have hword := @word_eq_sync_of_cells _ e at_ h
    rw [scanFrom, if_pos (by omega)]
    by_cases hsync : Mfm.word (cell mfm) at_ = Mfm.sync
    · have haligned := hword.mp hsync
      rw [if_neg (not_not.mpr hsync), skipSyncs_never h (by omega), Option.bind_none]
    · have haligned := mt hword.mpr hsync
      rw [if_pos hsync]
      exact ih (by omega)

/--
**A scan ends on exactly the tracks that hold anything but sync words**, and so does the
decoding of one.
-/
theorem scan_ends_iff (mfm : List Byte) (track : Byte) :
    ((∃ fuel found, scanTrack fuel mfm = some found) ∧
      ∃ fuel out, decodeTrack fuel mfm track = some out) ↔ ¬ OnlySyncs mfm := by
  constructor
  · rintro ⟨⟨fuel, found, hfound⟩, -⟩ ⟨hpos, e, hcells⟩
    rw [scanTrack, scanFrom_never hpos hcells fuel (Nat.zero_le _)] at hfound
    exact absurd hfound (by simp)
  · intro h
    obtain ⟨fuel, found, hfound⟩ := scanFrom_ends h 0
    exact ⟨⟨fuel, found, hfound⟩, fuel, _, congrArg (Option.map _) hfound⟩

theorem getD_repeat (a b d : Byte) {n i : Nat} (hi : i < 2 * n) :
    ((List.replicate n [a, b]).flatten).getD i d = if i % 2 = 0 then a else b := by
  induction n generalizing i with
  | zero => omega
  | succ n ih =>
    rw [List.replicate_succ, List.flatten_cons]
    match i with
    | 0 => rfl
    | 1 => rfl
    | i + 2 =>
      rw [show [a, b] ++ (List.replicate n [a, b]).flatten =
        a :: b :: (List.replicate n [a, b]).flatten from rfl, List.getD_cons_succ,
        List.getD_cons_succ, ih (by omega), Nat.add_mod_right]

theorem onlySyncs_repeat {n : Nat} (hn : 0 < n) :
    OnlySyncs (List.replicate n [0x44, 0x89]).flatten := by
  have hlength : ((List.replicate n [(0x44 : Byte), 0x89]).flatten).length = 2 * n := by
    simp [Nat.mul_comm]
  refine ⟨by omega, 0, fun x => ?_⟩
  have hbits : ∀ m < 16, ((if m / 8 % 2 = 0 then (0x44 : Byte) else 0x89).getLsbD (7 - m % 8)) =
      Mfm.sync.getLsbD (15 - m) := by decide
  have hround : x % (2 * n * 8) % 16 = x % 16 := by
    rw [show 2 * n * 8 = 16 * n by omega, Nat.mod_mul_right_mod]
  have hlt := Nat.mod_lt x (show 0 < 2 * n * 8 by omega)
  have hbit := hbits (x % 16) (by omega)
  unfold cell
  rw [hlength]
  dsimp only
  rw [getD_repeat _ _ _ (by omega), Nat.add_zero, ← hbit,
    show x % (2 * n * 8) / 8 % 2 = x % 16 / 8 % 2 by omega,
    show x % (2 * n * 8) % 8 = x % 16 % 8 by omega]

/-- A revolution of nothing but sync words, as a disk write can lay down: neither the scan nor
the decoding of it ever ends. -/
theorem sync_ring_never_scanned :
    ¬ ((∃ fuel found,
        scanTrack fuel (List.replicate (trackBytes / 2) [0x44, 0x89]).flatten = some found) ∧
      ∃ fuel out,
        decodeTrack fuel (List.replicate (trackBytes / 2) [0x44, 0x89]).flatten 0 = some out) := by
  rintro ⟨⟨fuel, found, hfound⟩, -⟩
  obtain ⟨hpos, e, hcells⟩ := onlySyncs_repeat (n := trackBytes / 2) (by decide)
  rw [scanTrack, scanFrom_never hpos hcells fuel (Nat.zero_le _)] at hfound
  exact absurd hfound (by simp)

end Rsemu.Amiga
