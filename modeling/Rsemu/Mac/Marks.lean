import Rsemu.Mac.Layout
import Mathlib.Data.List.Sort

/-!
# Marks are where they were written

A track whose words are framed shows the sync word at its `$A1` sync bytes and nowhere else:
a missing clock belongs to one of two bytes (`missing_word`), what follows them rules the
other alignments out (`marked_of_framed`), and so the search that slides a window over the
cells finds just the positions the writer noted (`marks_eq`).
-/

namespace Rsemu.Mac

open Mfm (Entry shiftIn around)

variable {ws : List Word}

theorem Track.bit_eq (t : Track) (n : Nat) : t.bit n = around t.bits n := by
  unfold Track.bit Track.len around
  split
  · rename_i h
    rw [List.length_eq_zero_iff.mp h]
    rfl
  · rfl

theorem entries_pos (h : 0 < ws.length) : 0 < (entries ws).length := by
  rw [length_entries]
  omega

theorem around_word {k j : Nat} {w : Word} (hk : ws[k]? = some w) (hj : j < 8) (t : Nat) :
    around (entries ws) ((entries ws).length * t + (8 * k + j)) =
      ⟨w.byte.getLsbD (7 - j),
        decide ((if w.sync then suppressed w.byte else none) = some j)⟩ := by
  rw [Mfm.around_add]
  refine Mfm.around_of_getElem? ?_
  rw [getElem?_entries hk hj]
  exact getElem?_entriesOf _ _ hj

theorem data_word {k j : Nat} {w : Word} (hk : ws[k]? = some w) (hj : j < 8) (t : Nat) {p : Nat}
    (hp : p = (entries ws).length * t + 8 * k) :
    (around (entries ws) (p + j)).data = w.byte.getLsbD (7 - j) := by
  rw [hp, Nat.add_assoc, around_word hk hj]

theorem missing_word (hpos : 0 < ws.length) {p : Nat}
    (h : (around (entries ws) (p + 5)).missing = true) :
    (∃ t k, ws[k]? = some (mark syncA1) ∧ p = (entries ws).length * t + 8 * k) ∨
      ∃ t k, ws[k]? = some (mark syncC2) ∧ p + 1 = (entries ws).length * t + 8 * k := by
  have hlen := length_entries ws
  have hmod := Nat.mod_lt (p + 5) (entries_pos hpos)
  have hround := Nat.div_add_mod (p + 5) (entries ws).length
  obtain ⟨i, hi⟩ : ∃ i, i = (p + 5) % (entries ws).length := ⟨_, rfl⟩
  rw [← hi] at hmod hround
  obtain ⟨w, hw⟩ : ∃ w, ws[i / 8]? = some w :=
    ⟨_, List.getElem?_eq_getElem (show i / 8 < ws.length by omega)⟩
  have hj : i % 8 < 8 := Nat.mod_lt _ (by decide)
  rw [← hround, show i = 8 * (i / 8) + i % 8 by omega, around_word hw hj] at h
  have hsup := of_decide_eq_true h
  cases hsync : w.sync with
  | false => simp [hsync] at hsup
  | true =>
    rw [hsync, if_pos rfl] at hsup
    unfold suppressed at hsup
    split at hsup
    · rename_i hbyte
      have hj5 : 5 = i % 8 := Option.some.inj hsup
      have hw' : w = mark syncA1 := by rw [mark, ← hbyte, ← hsync]
      exact .inl ⟨(p + 5) / (entries ws).length, i / 8, hw' ▸ hw, by omega⟩
    · split at hsup
      · rename_i hbyte
        have hj4 : 4 = i % 8 := Option.some.inj hsup
        have hw' : w = mark syncC2 := by rw [mark, ← hbyte, ← hsync]
        exact .inr ⟨(p + 5) / (entries ws).length, i / 8, hw' ▸ hw, by omega⟩
      · cases hsup

theorem marked_of_framed (h : Framed ws) (hpos : 0 < ws.length) :
    (Mfm.ring (entries ws) (entries_pos hpos)).Marked := by
  intro p hmissing
  rcases missing_word hpos hmissing with ⟨t, k, hk, hp⟩ | ⟨t, k, hk, hp⟩
  · left
    obtain ⟨w', hk', hfollows⟩ := h.next hk rfl
    have hbit : w'.byte.getLsbD 7 = true := by
      rcases hfollows with hf | hf
      · exact hf.2
      · cases hf.1
    have hdata : ∀ j, j < 8 → (around (entries ws) (p + j)).data = syncA1.getLsbD (7 - j) :=
      fun j hj => data_word hk hj t hp
    have hnext : (around (entries ws) (p + 8 + 0)).data = w'.byte.getLsbD 7 :=
      data_word hk' (by omega) t (by omega)
    exact ⟨hdata 0 (by omega), hdata 1 (by omega), hdata 2 (by omega), hdata 3 (by omega),
      hdata 4 (by omega), hdata 5 (by omega), hdata 6 (by omega), hdata 7 (by omega),
      hnext.trans hbit, trivial⟩
  · right
    obtain ⟨w', hk', hfollows⟩ := h.next hk rfl
    obtain ⟨hbit, hbit'⟩ : w'.byte.getLsbD 7 = true ∧ w'.byte.getLsbD 6 = true := by
      rcases hfollows with hf | hf
      · cases hf.1
      · exact hf.2
    have hdata : ∀ j, j < 8 → (around (entries ws) (p + 1 + j)).data = syncC2.getLsbD (7 - j) :=
      fun j hj => data_word hk hj t hp
    have hnext : ∀ j, j < 8 → (around (entries ws) (p + 9 + j)).data = w'.byte.getLsbD (7 - j) :=
      fun j hj => data_word hk' hj t (by omega)
    exact ⟨hdata 0 (by omega), hdata 1 (by omega), hdata 2 (by omega), hdata 3 (by omega),
      hdata 4 (by omega), hdata 5 (by omega), hdata 6 (by omega), hdata 7 (by omega),
      (hnext 0 (by omega)).trans hbit, (hnext 1 (by omega)).trans hbit', trivial⟩

theorem entries_mark : (mark syncA1).entries = Mfm.syncEntries := by decide

theorem reads_iff (h : Framed ws) (hpos : 0 < ws.length) (at_ : Nat) :
    Mfm.Reads (around (Mfm.cells false (entries ws))) at_ ↔
      at_ % (16 * ws.length) ∈ a1Cells 0 ws := by
  have hlen := length_entries ws
  constructor
  · intro hreads
    obtain ⟨p, hat, hshows, hmissing⟩ := (marked_of_framed h hpos).reads hreads
    rcases missing_word hpos hmissing with ⟨t, k, hk, hp⟩ | ⟨t, k, hk, hp⟩
    · refine mem_a1Cells.mpr ⟨k, hk, ?_⟩
      have hkl : k < ws.length := (List.getElem?_eq_some_iff.mp hk).1
      have hsplit : at_ = 16 * ws.length * t + 16 * k := by
        rw [hat, hp, hlen, Nat.mul_add, ← Nat.mul_assoc, ← Nat.mul_assoc, ← Nat.mul_assoc]
      rw [hsplit, Nat.mul_add_mod, Nat.mod_eq_of_lt (by omega), Nat.zero_add]
    · -- a `$C2` one pair on starts with a one
      have hone : (around (entries ws) (p + 1 + 0)).data = true := data_word hk (by omega) t hp
      have hzero : (around (entries ws) (p + 1)).data = false := hshows.2.1
      exact absurd (hone.symm.trans hzero) (by decide)
  · intro hmem
    obtain ⟨k, hk, hat⟩ := mem_a1Cells.mp hmem
    obtain ⟨hkl, hkeq⟩ := List.getElem?_eq_some_iff.mp hk
    have hws : ws = ws.take k ++ ([mark syncA1] ++ ws.drop (k + 1)) := by
      rw [List.singleton_append, ← hkeq, ← List.drop_eq_getElem_cons hkl, List.take_append_drop]
    have hentries : entries ws =
        entries (ws.take k) ++ Mfm.syncEntries ++ entries (ws.drop (k + 1)) := by
      rw [← entries_mark, List.append_assoc, ← entries_cons, ← entries_append]
      exact congrArg entries hws
    have htake : (entries (ws.take k)).length = 8 * k := by
      rw [length_entries, List.length_take, Nat.min_eq_left (Nat.le_of_lt hkl)]
    rw [hentries]
    refine Mfm.reads_written _ _ at_ ?_
    rw [← hentries, hlen, htake, show 2 * (8 * ws.length) = 16 * ws.length by omega, hat]
    omega

theorem syncCells_a1 : syncCells syncA1 = Mfm.sync := by decide

theorem foldl_markStep (t : Track) (n : Nat) :
    (List.range n).foldl (markStep t) (0, []) =
      (((List.range n).map t.bit).foldl shiftIn 0,
       ((List.range n).map (· + 1)).filter fun e =>
         decide (16 ≤ e) && decide (Mfm.word t.bit (e - 16) = Mfm.sync)) := by
  induction n with
  | zero => rfl
  | succ n ih =>
    have hwindow : shiftIn (((List.range n).map t.bit).foldl shiftIn 0) (t.bit n) =
        ((List.range (n + 1)).map t.bit).foldl shiftIn (0 : BitVec 16) := by
      rw [List.range_succ, List.map_append, List.foldl_append]
      rfl
    have hword : 16 ≤ n + 1 → (((List.range (n + 1)).map t.bit).foldl shiftIn (0 : BitVec 16) =
        Mfm.word t.bit (n + 1 - 16)) := by
      intro hn
      refine BitVec.eq_of_getLsbD_eq fun j hj => ?_
      have hw := Mfm.getLsbD_word t.bit (n + 1 - 16) (15 - j) (by omega)
      rw [show 15 - (15 - j) = j by omega] at hw
      rw [hw, Mfm.getLsbD_foldl_shiftIn _ _ _ hj, List.length_map, List.length_range,
        if_pos (by omega), List.getD_eq_getElem?_getD, List.getElem?_map,
        List.getElem?_range (by omega)]
      change t.bit _ = _
      congr 1
      omega
    have hsucc : (List.range (n + 1)).map (· + 1) = (List.range n).map (· + 1) ++ [n + 1] := by
      rw [List.range_succ, List.map_append]
      rfl
    have hstep : (List.range (n + 1)).foldl (markStep t) (0, []) =
        markStep t ((List.range n).foldl (markStep t) (0, [])) n := by
      rw [List.range_succ, List.foldl_append]
      rfl
    rw [hstep, ih, markStep, syncCells_a1, hwindow, hsucc, List.filter_append]
    have hends : (16 ≤ n + 1 ∧ ((List.range (n + 1)).map t.bit).foldl shiftIn (0 : BitVec 16) =
        Mfm.sync) ↔ (decide (16 ≤ n + 1) && decide (Mfm.word t.bit (n + 1 - 16) = Mfm.sync)) =
        true := by
      rw [Bool.and_eq_true, decide_eq_true_iff, decide_eq_true_iff]
      exact and_congr_right fun hn => by rw [hword hn]
    refine Prod.ext rfl ?_
    rw [List.filter_cons, List.filter_nil]
    by_cases hend : (decide (16 ≤ n + 1) && decide (Mfm.word t.bit (n + 1 - 16) = Mfm.sync)) = true
    · rw [if_pos hend]
      exact if_pos (hends.mpr hend)
    · rw [if_neg hend, List.append_nil]
      exact if_neg fun h => hend (hends.mp h)

theorem marks_eq_filter (t : Track) :
    marks t = ((List.range (t.len + 16)).map (· + 1)).filter fun e =>
      decide (16 ≤ e) && decide (Mfm.word t.bit (e - 16) = Mfm.sync) := by
  unfold marks
  rw [foldl_markStep]

theorem a1Cells_lt {o : Nat} (ws : List Word) : (a1Cells o ws).Pairwise (· < ·) := by
  induction ws generalizing o with
  | nil => exact .nil
  | cons w ws ih =>
    rw [a1Cells]
    split
    · refine List.pairwise_cons.mpr ⟨fun e he => ?_, ih⟩
      obtain ⟨k, _, hk⟩ := mem_a1Cells.mp he
      omega
    · exact ih

theorem marks_eq {t : Track} (hframed : Framed ws) {w : Word} (hfirst : ws[0]? = some w)
    (hplain : w.sync = false) (hbits : t.bits = Mfm.cells false (entries ws)) :
    marks t = (a1Cells 0 ws).map (· + 16) := by
  have hpos : 0 < ws.length := (List.getElem?_eq_some_iff.mp hfirst).1
  have hlen : t.len = 16 * ws.length := by
    unfold Track.len
    rw [hbits, Mfm.length_cells, length_entries]
    omega
  have hbit : t.bit = around (Mfm.cells false (entries ws)) := by
    funext n
    rw [t.bit_eq, hbits]
  have hword : ∀ at_, Mfm.word t.bit at_ = Mfm.sync ↔ at_ % t.len ∈ a1Cells 0 ws := by
    intro at_
    rw [Mfm.word_eq_sync_iff, hbit, reads_iff hframed hpos, hlen]
  have hsorted : ((List.range (t.len + 16)).map (· + 1)).Pairwise (· < ·) :=
    List.pairwise_map.mpr (List.pairwise_lt_range.imp fun h => by omega)
  have hmarks : ((a1Cells 0 ws).map (· + 16)).Pairwise (· < ·) :=
    List.pairwise_map.mpr ((a1Cells_lt ws).imp fun h => by omega)
  rw [marks_eq_filter]
  refine (hsorted.filter _).eq_of_mem_iff hmarks fun e => ?_
  rw [List.mem_filter, List.mem_map, List.mem_map, Bool.and_eq_true, decide_eq_true_iff,
    decide_eq_true_iff, hword]
  constructor
  · rintro ⟨⟨n, hn, rfl⟩, hge, hmem⟩
    rw [List.mem_range] at hn
    rcases Nat.lt_or_ge (n + 1 - 16) t.len with hlt | hwrap
    · rw [Nat.mod_eq_of_lt hlt] at hmem
      exact ⟨_, hmem, by omega⟩
    · -- the window that ends a whole revolution later is the first one again
      rw [show n + 1 - 16 = t.len by omega, Nat.mod_self] at hmem
      obtain ⟨k, hk, hzero⟩ := mem_a1Cells.mp hmem
      rw [show k = 0 by omega, hfirst] at hk
      rw [Option.some.inj hk] at hplain
      cases hplain
  · rintro ⟨c, hc, rfl⟩
    obtain ⟨k, hk, hck⟩ := mem_a1Cells.mp hc
    have hkl : k < ws.length := (List.getElem?_eq_some_iff.mp hk).1
    refine ⟨⟨c + 15, List.mem_range.mpr (by omega), rfl⟩, by omega, ?_⟩
    rw [Nat.add_sub_cancel, Nat.mod_eq_of_lt (by omega)]
    exact hc

end Rsemu.Mac
