import Rsemu.Mac.Decode
import Mathlib.Data.List.Rotate
import Mathlib.Data.List.Pairwise

/-!
# Wherever the index falls

A disk has no first cell, so a track may be read from any: `Track.turn`. The search looks at
one revolution and sixteen cells more. Of a run of three marks that the index cuts it sees
parts only, and skips them (`walk_window`); a sector is found where the marks of its ID field
and those of its data field stand whole in the window, in this order (`walk_places`). A
revolution from a cell between the two shows them the other way round, and
`sameSectors_iff` says that such a sector is lost, and no other.
-/

namespace Rsemu.Mac

open Mfm (Entry shiftIn around)

def Track.turn (t : Track) (r : Nat) : Track := ⟨t.bits.rotate r⟩

section

variable {t : Track} {at_ : Nat} {xs : List Word}

@[simp] theorem Track.len_turn (t : Track) (r : Nat) : (t.turn r).len = t.len :=
  List.length_rotate _ _

theorem Track.bit_turn (t : Track) (r n : Nat) : (t.turn r).bit n = t.bit (n + r) := by
  unfold Track.bit
  rw [Track.len_turn]
  by_cases hempty : t.len = 0
  · rw [if_pos hempty, if_pos hempty]
  · rw [if_neg hempty, if_neg hempty]
    have hlt : n % t.len < (t.bits.rotate r).length := by
      rw [List.length_rotate]
      exact Nat.mod_lt _ (Nat.pos_of_ne_zero hempty)
    have hlt' : (n + r) % t.len < t.bits.length := Nat.mod_lt _ (Nat.pos_of_ne_zero hempty)
    change (t.bits.rotate r).getD (n % t.len) false = _
    rw [List.getD_eq_getElem _ _ hlt, List.getElem_rotate, List.getD_eq_getElem _ _ hlt']
    congr 1
    exact Nat.mod_add_mod n t.len r

theorem Track.bit_round (t : Track) (n : Nat) : t.bit (n + t.len) = t.bit n := by
  unfold Track.bit
  rw [Nat.add_mod_right]

theorem readByte_turn (t : Track) (r at_ : Nat) :
    readByte (t.turn r) at_ = readByte t (at_ + r) := by
  have hbit : ∀ n, (t.turn r).bit (at_ + n * 2 + 1) = t.bit (at_ + r + n * 2 + 1) := by
    intro n
    rw [Track.bit_turn]
    congr 1
    omega
  unfold readByte
  simp only [Track.len_turn, hbit]

theorem readByte_round (t : Track) (at_ : Nat) : readByte t (at_ + t.len) = readByte t at_ := by
  have hbit : ∀ n, t.bit (at_ + t.len + n * 2 + 1) = t.bit (at_ + n * 2 + 1) := by
    intro n
    rw [show at_ + t.len + n * 2 + 1 = at_ + n * 2 + 1 + t.len by omega, Track.bit_round]
  unfold readByte
  simp only [hbit]

theorem Track.Holds.turn {r : Nat} (h : t.Holds (at_ + r) xs) : (t.turn r).Holds at_ xs := by
  intro i w hi
  rw [readByte_turn, show at_ + 16 * i + r = at_ + r + 16 * i by omega]
  exact h i w hi

theorem Track.Holds.round (h : t.Holds at_ xs) : t.Holds (at_ + t.len) xs := by
  intro i w hi
  rw [show at_ + t.len + 16 * i = at_ + 16 * i + t.len by omega, readByte_round]
  exact h i w hi

end

def three (m : Nat) : List Nat := [m, m + 16, m + 32]

def fields (u : Track) (r hi : Nat) : List Nat → Scan → Scan
  | [], s => s
  | m :: runs, s =>
    if r ≤ m ∧ m + 32 ≤ hi then fields u r hi runs (s.field u (m - r + 48))
    else fields u r hi runs s

/-- The marks a search sees that starts at cell `r` and takes in those up to `hi`, each where
it ends. -/
def seen (r hi : Nat) (marks : List Nat) : List Nat :=
  (marks.filter fun y => r ≤ y ∧ y ≤ hi).map fun y => y - r + 16

section

variable {u : Track} {r hi : Nat}

theorem mem_seen {marks : List Nat} {e : Nat} :
    e ∈ seen r hi marks ↔ ∃ y ∈ marks, r ≤ y ∧ y ≤ hi ∧ e = y - r + 16 := by
  unfold seen
  rw [List.mem_map]
  constructor
  · rintro ⟨y, hy, rfl⟩
    obtain ⟨hmem, hwin⟩ := List.mem_filter.mp hy
    obtain ⟨hlo, hup⟩ := of_decide_eq_true hwin
    exact ⟨y, hmem, hlo, hup, rfl⟩
  · rintro ⟨y, hmem, hlo, hup, rfl⟩
    exact ⟨y, List.mem_filter.mpr ⟨hmem, decide_eq_true ⟨hlo, hup⟩⟩, rfl⟩

theorem seen_cons (y : Nat) (marks : List Nat) :
    seen r hi (y :: marks) =
      if r ≤ y ∧ y ≤ hi then (y - r + 16) :: seen r hi marks else seen r hi marks := by
  unfold seen
  by_cases hwin : r ≤ y ∧ y ≤ hi
  · rw [if_pos hwin, List.filter_cons_of_pos (by simpa using hwin), List.map_cons]
  · rw [if_neg hwin, List.filter_cons_of_neg (by simpa using hwin)]

theorem seen_sorted {marks : List Nat} (h : marks.Pairwise (· < ·)) :
    (seen r hi marks).Pairwise (· < ·) := by
  refine List.pairwise_map.mpr ((h.filter _).imp_of_mem fun ha _ hlt => ?_)
  have hlo := (of_decide_eq_true (List.mem_filter.mp ha).2).1
  omega

theorem walk_skip {k : Nat} {rest : List Nat} {s : Scan}
    (h : (∀ e ∈ rest[0]?, e ≠ k + 16) ∨ ∀ e ∈ rest[1]?, e ≠ k + 32) :
    Scan.walk u (k :: rest) s = Scan.walk u rest s := by
  rcases rest with _ | ⟨x, _ | ⟨y, zs⟩⟩
  · rfl
  · rfl
  · have hno : ¬ (x = k + 16 ∧ y = k + 32) := by
      rintro ⟨hx, hy⟩
      rcases h with h | h
      · exact h x rfl hx
      · exact h y rfl hy
    rw [Scan.walk, if_neg hno]

theorem walk_pair {x : Nat} {ys : List Nat} (hfar : ∀ y ∈ ys, x + 32 < y) (s : Scan) :
    Scan.walk u (seen r hi (x :: (x + 16) :: ys)) s = Scan.walk u (seen r hi ys) s := by
  have hlater : ∀ k ≤ x + 16, r ≤ k → ∀ e ∈ (seen r hi ys)[0]?, k - r + 16 + 16 < e := by
    intro k hk hr e he
    obtain ⟨y, hy, hlo, _, rfl⟩ := mem_seen.mp (List.mem_of_getElem? he)
    have := hfar y hy
    omega
  have hsecond : Scan.walk u (seen r hi ((x + 16) :: ys)) s = Scan.walk u (seen r hi ys) s := by
    rw [seen_cons]
    split
    · rename_i hwin
      exact walk_skip (.inl fun e he => Nat.ne_of_gt (hlater _ (Nat.le_refl _) hwin.1 e he))
    · rfl
  rw [seen_cons]
  split
  · rename_i hwin
    rw [walk_skip, hsecond]
    rw [seen_cons]
    split
    · -- the other mark is there, the third of the run is not
      right
      intro e he
      obtain ⟨y, hy, hlo, _, rfl⟩ := mem_seen.mp (List.mem_of_getElem? he)
      have := hfar y hy
      omega
    · exact .inl fun e he => Nat.ne_of_gt (hlater _ (by omega) hwin.1 e he)
  · exact hsecond

theorem walk_window {runs : List Nat} (hapart : runs.Pairwise fun m m' => m + 48 < m') (s : Scan) :
    Scan.walk u (seen r hi (runs.flatMap three)) s = fields u r hi runs s := by
  induction runs generalizing s with
  | nil => rfl
  | cons m runs ih =>
    obtain ⟨hm, hrest⟩ := List.pairwise_cons.mp hapart
    have hfar : ∀ y ∈ runs.flatMap three, m + 48 < y := by
      intro y hy
      obtain ⟨m', hm', hy⟩ := List.mem_flatMap.mp hy
      have := hm m' hm'
      simp only [three, List.mem_cons, List.not_mem_nil, or_false] at hy
      omega
    change Scan.walk u (seen r hi (m :: (m + 16) :: (m + 32) :: runs.flatMap three)) s = _
    by_cases hwhole : r ≤ m ∧ m + 32 ≤ hi
    · rw [fields, if_pos hwhole, ← ih hrest, seen_cons, if_pos ⟨hwhole.1, by omega⟩, seen_cons,
        if_pos ⟨by omega, by omega⟩, seen_cons, if_pos ⟨by omega, hwhole.2⟩, Scan.walk,
        if_pos ⟨by omega, by omega⟩, show m + 32 - r + 16 = m - r + 48 by omega]
    · rw [fields, if_neg hwhole, ← ih hrest]
      by_cases hlate : r ≤ m
      · -- its last mark is beyond the window
        have hdrop : seen r hi (m :: (m + 16) :: (m + 32) :: runs.flatMap three) =
            seen r hi (m :: (m + 16) :: runs.flatMap three) := by
          rw [seen_cons, seen_cons, seen_cons, if_neg (fun h : r ≤ m + 32 ∧ m + 32 ≤ hi =>
            hwhole ⟨hlate, h.2⟩), ← seen_cons (m + 16), ← seen_cons m]
        rw [hdrop]
        exact walk_pair (fun y hy => by have := hfar y hy; omega) s
      · -- its first mark is before it
        rw [seen_cons, if_neg fun h => hlate h.1]
        exact walk_pair (fun y hy => by have := hfar y hy; omega) s

end

def toData : Nat := 16 * (3 + 7 + gap2 + syncBytes)

/-- The sectors of words that start at word `o`, each with the cell its ID field's first mark
starts at. -/
def places : Nat → List Sector → List (Nat × Sector)
  | _, [] => []
  | o, s :: sectors => (16 * (o + syncBytes), s) :: places (o + (sectorWords s).length) sectors

def runs (ps : List (Nat × Sector)) : List Nat := ps.flatMap fun p => [p.1, p.1 + toData]

/-- Both sync marks of the sector lie between the two cells. -/
def Whole (r hi : Nat) (p : Nat × Sector) : Prop := r ≤ p.1 ∧ p.1 + toData + 32 ≤ hi

instance (r hi : Nat) (p : Nat × Sector) : Decidable (Whole r hi p) :=
  inferInstanceAs (Decidable (_ ∧ _))

/-- **A sector stands at its place** on a track that is read from cell `r` on. -/
structure Stands (u : Track) (r : Nat) (p : Nat × Sector) : Prop where
  id : r ≤ p.1 → u.Holds (p.1 - r + 48) (idWords p.2)
  data : r ≤ p.1 + toData → u.Holds (p.1 + toData - r + 48) (dataWords p.2)
  size : p.2.sizeCode = 2
  length : p.2.data.length = dataBytes

section

variable {u : Track} {r hi : Nat} {ps : List (Nat × Sector)}

theorem fields_late (h : ∀ p ∈ ps, hi < p.1) (s : Scan) : fields u r hi (runs ps) s = s := by
  have hruns : ∀ ms : List Nat, (∀ m ∈ ms, hi < m) → fields u r hi ms s = s := by
    intro ms hms
    induction ms with
    | nil => rfl
    | cons m ms ih =>
      obtain ⟨hm, hms'⟩ := List.forall_mem_cons.mp hms
      rw [fields, if_neg (by omega), ih hms']
  refine hruns _ fun m hm => ?_
  obtain ⟨p, hp, hm⟩ := List.mem_flatMap.mp hm
  have hlate := h p hp
  simp only [List.mem_cons, List.not_mem_nil, or_false] at hm
  omega

theorem filter_whole_late (h : ∀ p ∈ ps, hi < p.1) : ps.filter (Whole r hi ·) = [] := by
  refine List.filter_eq_nil_iff.mpr fun p hp hwin => ?_
  have hlate := h p hp
  have hin := (of_decide_eq_true hwin).2
  omega

theorem walk_places (hapart : ps.Pairwise fun p q => p.1 + toData + 48 < q.1)
    (hstands : ∀ p ∈ ps, Stands u r p) {found : List Sector}
    (hnew : (found ++ (ps.filter (Whole r hi ·)).map Prod.snd).Pairwise fun s s' =>
      s.sector ≠ s'.sector) :
    ∃ pending, fields u r hi (runs ps) ⟨none, found, []⟩ =
      ⟨pending, found ++ (ps.filter (Whole r hi ·)).map Prod.snd, []⟩ := by
  induction ps generalizing found with
  | nil => exact ⟨none, by simp [runs, fields]⟩
  | cons p ps ih =>
    obtain ⟨hfar, hapart'⟩ := List.pairwise_cons.mp hapart
    obtain ⟨hp, hstands'⟩ := List.forall_mem_cons.mp hstands
    change ∃ pending, fields u r hi (p.1 :: (p.1 + toData) :: runs ps) _ = _
    by_cases hdata : r ≤ p.1 + toData ∧ p.1 + toData + 32 ≤ hi
    · by_cases hid : r ≤ p.1
      · have hwhole : Whole r hi p := ⟨hid, hdata.2⟩
        have hsplit : ((p :: ps).filter (Whole r hi ·)).map Prod.snd =
            p.2 :: (ps.filter (Whole r hi ·)).map Prod.snd := by
          rw [List.filter_cons_of_pos (by simpa using hwhole), List.map_cons]
        rw [hsplit] at hnew ⊢
        have hfresh : ∀ f ∈ found, f.sector ≠ p.2.sector := fun f hf =>
          (List.pairwise_append.mp hnew).2.2 f hf p.2 List.mem_cons_self
        rw [fields, if_pos ⟨hid, by omega⟩, fields, if_pos hdata, scan_id (hp.id hid),
          scan_data (hp.data hdata.1) hp.size hp.length rfl hfresh]
        obtain ⟨pending, hrest⟩ := @ih hapart' hstands' (found ++ [p.2])
          (by rwa [List.append_assoc, List.singleton_append])
        refine ⟨pending, ?_⟩
        rwa [List.append_assoc, List.singleton_append] at hrest
      · -- the window starts between the two fields
        rw [List.filter_cons_of_neg (by simpa using fun h : Whole r hi p => hid h.1)] at hnew ⊢
        rw [fields, if_neg fun h => hid h.1, fields, if_pos hdata, field_data (hp.data hdata.1)]
        exact ih hapart' hstands' hnew
    · have hpart : ¬ Whole r hi p := fun h => hdata ⟨Nat.le_add_right_of_le h.1, h.2⟩
      rw [List.filter_cons_of_neg (by simpa using hpart)] at hnew ⊢
      by_cases hid : r ≤ p.1 ∧ p.1 + 32 ≤ hi
      · -- the window ends between the two fields
        have hlate : ∀ q ∈ ps, hi < q.1 := fun q hq => by
          have := hfar q hq
          omega
        rw [fields, if_pos hid, fields, if_neg hdata, scan_id (hp.id hid.1), fields_late hlate,
          filter_whole_late hlate]
        exact ⟨some (Sector.ofId p.2.id), by simp⟩
      · rw [fields, if_neg hid, fields, if_neg hdata]
        exact ih hapart' hstands' hnew

end

section

variable {ws : List Word} {t : Track} {r : Nat}

theorem marks_turn (hframed : Framed ws) (hpos : 0 < ws.length)
    (hbits : t.bits = Mfm.cells false (entries ws)) (hr : r < t.len) :
    marks (t.turn r) = seen r (r + t.len) (a1Cells 0 ws ++ (a1Cells 0 ws).map (· + t.len)) := by
  have hlen : t.len = 16 * ws.length := by
    unfold Track.len
    rw [hbits, Mfm.length_cells, length_entries]
    omega
  have hbit : (t.turn r).bit = fun n => around (Mfm.cells false (entries ws)) (n + r) := by
    funext n
    rw [t.bit_turn, t.bit_eq, hbits]
  have hword : ∀ at_, Mfm.word (t.turn r).bit at_ = Mfm.sync ↔
      (at_ + r) % t.len ∈ a1Cells 0 ws := by
    intro at_
    rw [Mfm.word_eq_sync_iff, hlen, ← reads_iff hframed hpos, hbit]
    refine forall₂_congr fun k _ => ?_
    rw [Nat.add_right_comm]
  have hbelow : ∀ a ∈ a1Cells 0 ws, a < t.len := by
    intro a ha
    obtain ⟨k, hk, rfl⟩ := mem_a1Cells.mp ha
    have := (List.getElem?_eq_some_iff.mp hk).1
    omega
  have hsorted : ((List.range (t.len + 16)).map (· + 1)).Pairwise (· < ·) :=
    List.pairwise_map.mpr (List.pairwise_lt_range.imp fun h => by omega)
  have hdouble : (a1Cells 0 ws ++ (a1Cells 0 ws).map (· + t.len)).Pairwise (· < ·) := by
    refine List.pairwise_append.mpr ⟨a1Cells_lt ws, List.pairwise_map.mpr
      ((a1Cells_lt ws).imp fun h => by omega), fun a ha b hb => ?_⟩
    obtain ⟨b', _, rfl⟩ := List.mem_map.mp hb
    have := hbelow a ha
    omega
  rw [marks_eq_filter, Track.len_turn]
  refine (hsorted.filter _).eq_of_mem_iff (seen_sorted hdouble) fun e => ?_
  rw [List.mem_filter, List.mem_map, mem_seen, Bool.and_eq_true, decide_eq_true_iff,
    decide_eq_true_iff, hword]
  constructor
  · rintro ⟨⟨n, hn, rfl⟩, hge, hmem⟩
    rw [List.mem_range] at hn
    refine ⟨n + 1 - 16 + r, ?_, by omega, by omega, by omega⟩
    rcases Nat.lt_or_ge (n + 1 - 16 + r) t.len with hlt | hwrap
    · rw [Nat.mod_eq_of_lt hlt] at hmem
      exact List.mem_append_left _ hmem
    · rw [Nat.mod_eq_sub_mod hwrap, Nat.mod_eq_of_lt (by omega)] at hmem
      exact List.mem_append_right _ (List.mem_map.mpr ⟨_, hmem, by omega⟩)
  · rintro ⟨y, hy, hlo, hup, rfl⟩
    refine ⟨⟨y - r + 15, List.mem_range.mpr (by omega), rfl⟩, by omega, ?_⟩
    rw [Nat.add_sub_cancel, Nat.sub_add_cancel hlo]
    rcases List.mem_append.mp hy with hy | hy
    · rwa [Nat.mod_eq_of_lt (hbelow y hy)]
    · obtain ⟨a, ha, rfl⟩ := List.mem_map.mp hy
      rwa [Nat.add_mod_right, Nat.mod_eq_of_lt (hbelow a ha)]

theorem a1Cells_sectors (o : Nat) (sectors : List Sector) :
    a1Cells o (sectors.flatMap sectorWords) = (runs (places o sectors)).flatMap three := by
  induction sectors generalizing o with
  | nil => rfl
  | cons s sectors ih =>
    have hsector : a1Cells o (sectorWords s) =
        three (16 * (o + syncBytes)) ++ three (16 * (o + syncBytes) + toData) := by
      refine List.map_injective_iff.mpr (add_left_injective 16) ?_
      change ends o (sectorWords s) = _
      rw [ends_sector, ends_preamble, ends_preamble]
      simp only [three, toData, syncBytes, gap2, List.map_cons, List.map_nil,
        List.cons_append, List.nil_append, List.cons.injEq, and_true]
      omega
    rw [List.flatMap_cons, a1Cells_append, ih, hsector, List.append_assoc]
    rfl

theorem runs_append (ps qs : List (Nat × Sector)) : runs (ps ++ qs) = runs ps ++ runs qs :=
  List.flatMap_append

theorem runs_later (ps : List (Nat × Sector)) (n : Nat) :
    ((runs ps).flatMap three).map (· + n) =
      (runs (ps.map fun p => (p.1 + n, p.2))).flatMap three := by
  induction ps with
  | nil => rfl
  | cons p ps ih =>
    have hruns : ∀ (q : Nat × Sector) (qs : List (Nat × Sector)), (runs (q :: qs)).flatMap three =
        three q.1 ++ (three (q.1 + toData) ++ (runs qs).flatMap three) := fun _ _ => rfl
    rw [List.map_cons, hruns, hruns, ← ih, List.map_append, List.map_append]
    simp only [three, List.map_cons, List.map_nil]
    rw [show p.1 + n + 16 = p.1 + 16 + n by omega, show p.1 + n + 32 = p.1 + 32 + n by omega,
      show p.1 + n + toData = p.1 + toData + n by omega,
      show p.1 + toData + n + 16 = p.1 + toData + 16 + n by omega,
      show p.1 + toData + n + 32 = p.1 + toData + 32 + n by omega]

theorem places_snd (o : Nat) (sectors : List Sector) :
    (places o sectors).map Prod.snd = sectors := by
  induction sectors generalizing o with
  | nil => rfl
  | cons s sectors ih => exact congrArg (s :: ·) (ih _)

/-- What is known of a sector's place, among words that start at word `o` and end before `n`. -/
structure Placed (t : Track) (o n : Nat) (p : Nat × Sector) : Prop where
  id : t.Holds (p.1 + 48) (idWords p.2)
  data : t.Holds (p.1 + toData + 48) (dataWords p.2)
  after : 16 * (o + syncBytes) ≤ p.1
  before : p.1 + toData + 48 < 16 * n

theorem placed (hbits : t.bits = Mfm.cells false (entries ws)) {o : Nat} {sectors : List Sector}
    {rest : List Word} (h : ws.drop o = sectors.flatMap sectorWords ++ rest)
    (hdata : ∀ s ∈ sectors, s.data.length = dataBytes) :
    (∀ p ∈ places o sectors, Placed t o ws.length p) ∧
      (places o sectors).Pairwise fun p q => p.1 + toData + 48 < q.1 := by
  induction sectors generalizing o with
  | nil => exact ⟨fun p hp => (List.not_mem_nil hp).elim, .nil⟩
  | cons s sectors ih =>
    obtain ⟨hd, hdata'⟩ := List.forall_mem_cons.mp hdata
    have hlength := length_sectorWords hd
    rw [List.flatMap_cons, List.append_assoc] at h
    have hroom : o + (sectorWords s).length ≤ ws.length := by
      have := congrArg List.length h
      simp only [List.length_drop, List.length_append] at this
      omega
    obtain ⟨hrest, hapart⟩ := ih (drop_append h) hdata'
    obtain ⟨hid, hfield⟩ := (Track.Holds.of_drop hbits h).fields
    have hfirst : Placed t o ws.length (16 * (o + syncBytes), s) := by
      refine ⟨?_, ?_, Nat.le_refl _, ?_⟩
      · rwa [show 16 * (o + 15) = 16 * (o + syncBytes) + 48 by unfold syncBytes; omega] at hid
      · rwa [show 16 * (o + 44 + 15) = 16 * (o + syncBytes) + toData + 48 by
          unfold toData gap2 syncBytes; omega] at hfield
      · unfold toData gap2 syncBytes
        omega
    constructor
    · intro p hp
      rcases List.mem_cons.mp hp with rfl | hp
      · exact hfirst
      · have hp' := hrest p hp
        refine ⟨hp'.id, hp'.data, ?_, hp'.before⟩
        have := hp'.after
        omega
    · refine List.pairwise_cons.mpr ⟨fun p hp => ?_, hapart⟩
      have := (hrest p hp).after
      unfold toData gap2 syncBytes
      omega

end

section

variable {sectors : List Sector}

/-- **The index cuts a sector**: it falls behind where the first mark of its ID field starts and
before where the last mark of its data field does. -/
def Cut (sectors : List Sector) (r : Nat) : Prop :=
  ∃ p ∈ places leadWords.length sectors, p.1 < r ∧ r < p.1 + toData + 32

def uncut (sectors : List Sector) (r : Nat) : List Sector :=
  let ps := places leadWords.length sectors
  ((ps.filter fun p => r ≤ p.1) ++ ps.filter fun p => p.1 + toData + 32 ≤ r).map Prod.snd

theorem places_distinct (hdistinct : sectors.Pairwise fun s s' => s.sector ≠ s'.sector) (o : Nat) :
    (places o sectors).Pairwise fun p q => p.2.sector ≠ q.2.sector := by
  rw [← places_snd o sectors, List.pairwise_map] at hdistinct
  exact hdistinct

theorem uncut_distinct (hdistinct : sectors.Pairwise fun s s' => s.sector ≠ s'.sector) (r : Nat) :
    (uncut sectors r).Pairwise fun s s' => s.sector ≠ s'.sector := by
  have hpairs := places_distinct hdistinct leadWords.length
  have hsymm : Std.Symm fun p q : Nat × Sector => p.2.sector ≠ q.2.sector :=
    ⟨fun _ _ h => h.symm⟩
  unfold uncut
  rw [List.pairwise_map]
  refine List.pairwise_append.mpr ⟨hpairs.filter _, hpairs.filter _, ?_⟩
  intro p hp q hq
  obtain ⟨hp, hfrom⟩ := List.mem_filter.mp hp
  obtain ⟨hq, hto⟩ := List.mem_filter.mp hq
  have hlo := of_decide_eq_true hfrom
  have hup := of_decide_eq_true hto
  refine hpairs.forall hp hq fun heq => ?_
  rw [heq] at hlo
  omega

def later (n : Nat) (ps : List (Nat × Sector)) : List (Nat × Sector) :=
  ps.map fun p => (p.1 + n, p.2)

theorem later_snd (n : Nat) (ps : List (Nat × Sector)) :
    (later n ps).map Prod.snd = ps.map Prod.snd := by
  unfold later
  rw [List.map_map]
  rfl

theorem runs_apart {ps : List (Nat × Sector)}
    (h : ps.Pairwise fun p q => p.1 + toData + 48 < q.1) :
    (runs ps).Pairwise fun m m' => m + 48 < m' := by
  induction ps with
  | nil => exact .nil
  | cons p ps ih =>
    obtain ⟨hfar, hrest⟩ := List.pairwise_cons.mp h
    have hbehind : ∀ m ∈ runs ps, p.1 + toData + 48 < m := by
      intro m hm
      obtain ⟨q, hq, hm⟩ := List.mem_flatMap.mp hm
      have := hfar q hq
      simp only [List.mem_cons, List.not_mem_nil, or_false] at hm
      omega
    refine List.pairwise_cons.mpr ⟨fun m hm => ?_, List.pairwise_cons.mpr ⟨hbehind, ih hrest⟩⟩
    rcases List.mem_cons.mp hm with rfl | hm
    · unfold toData gap2 syncBytes
      omega
    · have := hbehind m hm
      omega

theorem filter_revolution {ps : List (Nat × Sector)} {n r : Nat} (hr : r < n)
    (hbefore : ∀ p ∈ ps, p.1 + toData + 48 < n) :
    (ps ++ later n ps).filter (Whole r (r + n) ·) =
      (ps.filter fun p => r ≤ p.1) ++ later n (ps.filter fun p => p.1 + toData + 32 ≤ r) := by
  unfold later
  rw [List.filter_append, List.filter_map]
  congr 1
  · refine List.filter_congr fun p hp => decide_eq_decide.mpr ?_
    have := hbefore p hp
    exact ⟨fun h => h.1, fun h => ⟨h, by omega⟩⟩
  · refine congrArg _ (List.filter_congr fun p hp => decide_eq_decide.mpr ?_)
    constructor
    · intro h
      have : p.1 + n + toData + 32 ≤ r + n := h.2
      omega
    · intro h
      exact ⟨Nat.le_add_left_of_le (Nat.le_of_lt hr), by change p.1 + n + _ + _ ≤ _; omega⟩

theorem decodeTrack_turn (hdistinct : sectors.Pairwise fun s s' => s.sector ≠ s'.sector)
    (hsize : ∀ s ∈ sectors, s.sizeCode = 2) (hdata : ∀ s ∈ sectors, s.data.length = dataBytes)
    {r : Nat} (hr : r < (encodeTrack sectors).len) :
    decodeTrack ((encodeTrack sectors).turn r) = (uncut sectors r, []) := by
  obtain ⟨ws, h⟩ := encoded sectors
  obtain ⟨n, hdrop⟩ := h.fields
  have hlen := h.len
  have hmarks := marks_turn h.framed h.pos h.bits hr
  obtain ⟨hplaced, hapart⟩ := placed h.bits hdrop hdata
  have hsnd := places_snd leadWords.length sectors
  have hfound := uncut_distinct hdistinct r
  unfold uncut at hfound ⊢
  rw [h.marks, a1Cells_sectors, runs_later] at hmarks
  generalize encodeTrack sectors = t at *
  generalize places leadWords.length sectors = ps at *
  have hbefore : ∀ p ∈ ps, p.1 + toData + 48 < t.len := fun p hp => hlen ▸ (hplaced p hp).before
  have hwhole := filter_revolution hr hbefore
  have hsame : ((ps ++ later t.len ps).filter (Whole r (r + t.len) ·)).map Prod.snd =
      ((ps.filter fun p => r ≤ p.1) ++ ps.filter fun p => p.1 + toData + 32 ≤ r).map Prod.snd := by
    rw [hwhole, List.map_append, later_snd, List.map_append]
  have hapart' : (ps ++ later t.len ps).Pairwise fun p q => p.1 + toData + 48 < q.1 := by
    refine List.pairwise_append.mpr ⟨hapart, List.pairwise_map.mpr
      (hapart.imp fun hlt => by dsimp only; omega), fun p hp q hq => ?_⟩
    obtain ⟨q', _, rfl⟩ := List.mem_map.mp hq
    have := hbefore p hp
    omega
  have hsize' : ∀ p ∈ ps, p.2.sizeCode = 2 := fun p hp =>
    hsize _ (hsnd ▸ List.mem_map_of_mem hp)
  have hdata' : ∀ p ∈ ps, p.2.data.length = dataBytes := fun p hp =>
    hdata _ (hsnd ▸ List.mem_map_of_mem hp)
  have hstands : ∀ p ∈ ps ++ later t.len ps, Stands (t.turn r) r p := by
    intro p hp
    rcases List.mem_append.mp hp with hp | hp
    · have hp' := hplaced p hp
      refine ⟨fun hlo => .turn ?_, fun hlo => .turn ?_, hsize' p hp, hdata' p hp⟩
      · rw [show p.1 - r + 48 + r = p.1 + 48 by omega]
        exact hp'.id
      · rw [show p.1 + toData - r + 48 + r = p.1 + toData + 48 by omega]
        exact hp'.data
    · obtain ⟨q, hq, rfl⟩ := List.mem_map.mp hp
      have hq' := hplaced q hq
      refine ⟨fun hlo => .turn ?_, fun hlo => .turn ?_, hsize' q hq, hdata' q hq⟩
      · rw [show q.1 + t.len - r + 48 + r = q.1 + 48 + t.len by omega]
        exact hq'.id.round
      · rw [show q.1 + t.len + toData - r + 48 + r = q.1 + toData + 48 + t.len by omega]
        exact hq'.data.round
  have hruns : marks (t.turn r) =
      seen r (r + t.len) ((runs (ps ++ later t.len ps)).flatMap three) := by
    rw [hmarks, runs_append, List.flatMap_append]
    rfl
  obtain ⟨pending, hwalk⟩ := @walk_places (t.turn r) r (r + t.len) _ hapart' hstands []
    (by rw [List.nil_append, hsame]; exact hfound)
  unfold decodeTrack
  rw [if_neg (by rw [Track.len_turn]; omega), hruns, walk_window (runs_apart hapart')]
  rw [hwalk, List.nil_append, hsame]

theorem Track.turn_mod (t : Track) (r : Nat) : t.turn (r % t.len) = t.turn r := by
  unfold Track.turn Track.len
  rw [List.rotate_mod]

theorem Track.turn_zero (t : Track) : t.turn 0 = t := by
  unfold Track.turn
  rw [List.rotate_zero]

theorem len_encodeTrack_pos (sectors : List Sector) : 0 < (encodeTrack sectors).len := by
  obtain ⟨ws, h⟩ := encoded sectors
  have := h.len
  have := h.pos
  omega

theorem uncut_zero (sectors : List Sector) : uncut sectors 0 = sectors := by
  have hall : ∀ ps : List (Nat × Sector), (ps.filter fun p => 0 ≤ p.1) = ps := fun ps =>
    List.filter_eq_self.mpr fun p _ => decide_eq_true (Nat.zero_le _)
  have hnone : ∀ ps : List (Nat × Sector), (ps.filter fun p => p.1 + toData + 32 ≤ 0) = [] := by
    refine fun ps => List.filter_eq_nil_iff.mpr fun p _ hle => ?_
    have := of_decide_eq_true hle
    omega
  unfold uncut
  dsimp only
  rw [hall, hnone, List.append_nil, places_snd]

/-- **The index does not matter**: the track turned by `r` cells decodes to the sectors of the
track as it was laid down, each once, and to no bad field. -/
structure SameSectors (sectors : List Sector) (r : Nat) : Prop where
  same : ∀ s, s ∈ (decodeTrack ((encodeTrack sectors).turn r)).1 ↔
    s ∈ (decodeTrack (encodeTrack sectors)).1
  once : (decodeTrack ((encodeTrack sectors).turn r)).1.Nodup
  good : (decodeTrack ((encodeTrack sectors).turn r)).2 = []

theorem not_mem_uncut (hdistinct : sectors.Pairwise fun s s' => s.sector ≠ s'.sector) {r : Nat}
    {p : Nat × Sector} (hp : p ∈ places leadWords.length sectors) (hafter : p.1 < r)
    (hbefore : r < p.1 + toData + 32) : p.2 ∉ uncut sectors r := by
  intro hmem
  have hsymm : Std.Symm fun p q : Nat × Sector => p.2.sector ≠ q.2.sector :=
    ⟨fun _ _ h => h.symm⟩
  obtain ⟨q, hq, heq⟩ := List.mem_map.mp hmem
  have hsame : q ∈ places leadWords.length sectors → q = p := fun hq => by
    by_contra hne
    exact (places_distinct hdistinct _).forall hq hp hne (congrArg Sector.sector heq)
  rcases List.mem_append.mp hq with hq | hq
  · obtain ⟨hq, hlo⟩ := List.mem_filter.mp hq
    have := of_decide_eq_true hlo
    rw [hsame hq] at this
    omega
  · obtain ⟨hq, hup⟩ := List.mem_filter.mp hq
    have := of_decide_eq_true hup
    rw [hsame hq] at this
    omega

theorem SameSectors.mem_uncut (hdistinct : sectors.Pairwise fun s s' => s.sector ≠ s'.sector)
    (hsize : ∀ s ∈ sectors, s.sizeCode = 2) (hdata : ∀ s ∈ sectors, s.data.length = dataBytes)
    {r : Nat} (h : SameSectors sectors r) {s : Sector} (hs : s ∈ sectors) :
    s ∈ uncut sectors (r % (encodeTrack sectors).len) := by
  have hpos := len_encodeTrack_pos sectors
  have hturned := decodeTrack_turn hdistinct hsize hdata (Nat.mod_lt r hpos)
  have hstraight := decodeTrack_turn hdistinct hsize hdata hpos
  have hsame := h.same s
  rw [Track.turn_mod] at hturned
  rw [Track.turn_zero, uncut_zero] at hstraight
  rw [hturned, hstraight] at hsame
  exact hsame.mpr hs

/-- **A turned track decodes to the sectors of the track** unless the index cuts one of them. -/
theorem sameSectors_iff (hdistinct : sectors.Pairwise fun s s' => s.sector ≠ s'.sector)
    (hsize : ∀ s ∈ sectors, s.sizeCode = 2) (hdata : ∀ s ∈ sectors, s.data.length = dataBytes)
    (r : Nat) : SameSectors sectors r ↔ ¬ Cut sectors (r % (encodeTrack sectors).len) := by
  have hpos := len_encodeTrack_pos sectors
  have hturned := decodeTrack_turn hdistinct hsize hdata (Nat.mod_lt r hpos)
  rw [Track.turn_mod] at hturned
  have hstraight := decodeTrack_turn hdistinct hsize hdata hpos
  rw [Track.turn_zero, uncut_zero] at hstraight
  have hsnd := places_snd leadWords.length sectors
  constructor
  · rintro hsame ⟨p, hp, hafter, hbefore⟩
    have hmem : p.2 ∈ sectors := hsnd ▸ List.mem_map_of_mem hp
    exact not_mem_uncut hdistinct hp hafter hbefore (hsame.mem_uncut hdistinct hsize hdata hmem)
  · intro hwhole
    refine ⟨fun s => ?_, ?_, ?_⟩
    · rw [hturned, hstraight]
      constructor
      · intro hs
        obtain ⟨p, hp, rfl⟩ := List.mem_map.mp hs
        rw [← hsnd]
        rcases List.mem_append.mp hp with hp | hp
        · exact List.mem_map_of_mem (List.mem_of_mem_filter hp)
        · exact List.mem_map_of_mem (List.mem_of_mem_filter hp)
      · intro hs
        rw [← hsnd] at hs
        obtain ⟨p, hp, rfl⟩ := List.mem_map.mp hs
        refine List.mem_map_of_mem ?_
        by_cases hlo : r % (encodeTrack sectors).len ≤ p.1
        · exact List.mem_append_left _ (List.mem_filter.mpr ⟨hp, decide_eq_true hlo⟩)
        · refine List.mem_append_right _ (List.mem_filter.mpr ⟨hp, decide_eq_true ?_⟩)
          by_contra hup
          exact hwhole ⟨p, hp, by omega, by omega⟩
    · rw [hturned]
      exact (uncut_distinct hdistinct _).imp fun hne heq => hne (congrArg Sector.sector heq)
    · rw [hturned]

/-- Of two sectors, with the index between them. -/
theorem sameSectors_allSyncs : SameSectors [allSyncs 1 false, allSyncs 2 true] 5000 := by
  have hdata : ∀ s ∈ [allSyncs 1 false, allSyncs 2 true], s.data.length = dataBytes := by
    simp [allSyncs]
  refine (sameSectors_iff (by simp [allSyncs]) (by simp [allSyncs]) hdata 5000).mpr ?_
  have hplaces : places leadWords.length [allSyncs 1 false, allSyncs 2 true] =
      [(2528, allSyncs 1 false), (13056, allSyncs 2 true)] := by
    rw [length_leadWords, places, places, places, length_sectorWords (hdata _ List.mem_cons_self)]
    rfl
  have hlong : 5000 < (encodeTrack [allSyncs 1 false, allSyncs 2 true]).len := by
    obtain ⟨ws, h⟩ := encoded [allSyncs 1 false, allSyncs 2 true]
    obtain ⟨n, hdrop⟩ := h.fields
    obtain ⟨hplaced, _⟩ := placed h.bits hdrop hdata
    have hbefore : 13056 + 704 + 48 < 16 * ws.length :=
      (hplaced (13056, allSyncs 2 true) (by rw [hplaces]; simp)).before
    rw [h.len]
    omega
  rw [Nat.mod_eq_of_lt hlong]
  rintro ⟨p, hp, hafter, hbefore⟩
  rw [hplaces] at hp
  have htoData : toData = 704 := rfl
  rcases List.mem_pair.mp hp with rfl | rfl
  · omega
  · omega

/-- With the index in the gap between its two fields, the only sector of a track is lost. -/
theorem sector_lost_at_index : ¬ SameSectors [allSyncs 1 false] 3000 := by
  intro hsame
  have hplace : (2528, allSyncs 1 false) ∈ places leadWords.length [allSyncs 1 false] := by
    rw [length_leadWords]
    exact List.mem_cons_self
  have hdistinct : [allSyncs 1 false].Pairwise fun s s' => s.sector ≠ s'.sector := by simp
  have hsize : ∀ s ∈ [allSyncs 1 false], s.sizeCode = 2 := by simp [allSyncs]
  have hdata : ∀ s ∈ [allSyncs 1 false], s.data.length = dataBytes := by simp [allSyncs]
  have hlong : 3000 < (encodeTrack [allSyncs 1 false]).len := by
    obtain ⟨ws, h⟩ := encoded [allSyncs 1 false]
    obtain ⟨n, hdrop⟩ := h.fields
    obtain ⟨hplaced, _⟩ := placed h.bits hdrop hdata
    have hbefore : 2528 + 704 + 48 < 16 * ws.length := (hplaced _ hplace).before
    rw [h.len]
    omega
  have hmem := hsame.mem_uncut hdistinct hsize hdata List.mem_cons_self
  rw [Nat.mod_eq_of_lt hlong] at hmem
  exact not_mem_uncut hdistinct hplace (by decide) (by decide) hmem

end

end Rsemu.Mac
