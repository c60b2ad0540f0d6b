import Rsemu.Space.Sharing

/-!
# What a rebase does to a view

The index says, for every alias, which leaves its cell feeds: the position of the entry and
the position of the leaf in it, both as 32-bit numbers. A rebase walks the list and recomputes
those leaves one by one, in place.

`rebase_eq` is the result: as long as the positions fit in the numbers they are filed under,
the walk reaches exactly the leaves that have the alias among their terms, whichever entry
they are in and on whichever side of it, and nothing else changes.
-/

namespace Rsemu.Space

open Word

namespace FlatEntry

def mapLeaves (f : Nat → FlatLeaf → FlatLeaf) (e : FlatEntry) : FlatEntry :=
  { e with
    kind :=
      match e.kind with
      | .single l => .single (f 0 l)
      | .combine policy ms => .combine policy (ms.mapIdx f)
    writeTo := e.writeTo.map (f writeSide) }

def leaves (e : FlatEntry) : List FlatLeaf := e.indexedLeaves.map (·.2)

variable {e : FlatEntry} {f g : Nat → FlatLeaf → FlatLeaf}

@[simp] theorem mapLeaves_members : (e.mapLeaves f).members = e.members.mapIdx f := by
  cases hk : e.kind <;> simp [members, mapLeaves, hk]

@[simp] theorem mapLeaves_writeTo : (e.mapLeaves f).writeTo = e.writeTo.map (f writeSide) := rfl

theorem mem_indexedLeaves {m : Nat} {l : FlatLeaf} :
    (m, l) ∈ e.indexedLeaves ↔ e.members[m]? = some l ∨ m = writeSide ∧ e.writeTo = some l := by
  unfold indexedLeaves
  rw [List.mem_append]
  refine or_congr ?_ ?_
  · constructor
    · intro h
      obtain ⟨p, hp, heq⟩ := List.mem_map.mp h
      cases heq
      exact List.mk_mem_zipIdx_iff_getElem?.mp hp
    · intro h
      exact List.mem_map.mpr ⟨(l, m), List.mk_mem_zipIdx_iff_getElem?.mpr h, rfl⟩
  · cases hw : e.writeTo with
    | none => simp
    | some l' =>
      simp only [Option.map_some, Option.toList_some, List.mem_singleton, Prod.mk.injEq,
        Option.some.injEq]
      exact and_congr_right fun _ => eq_comm

theorem mapLeaves_mapLeaves : (e.mapLeaves f).mapLeaves g = e.mapLeaves fun m l => g m (f m l) := by
  cases hk : e.kind with
  | single l => simp [mapLeaves, hk, Function.comp_def]
  | combine policy ms => simp [mapLeaves, hk, Function.comp_def, List.mapIdx_mapIdx]

theorem mapLeaves_congr (h : ∀ m l, (m, l) ∈ e.indexedLeaves → f m l = g m l) :
    e.mapLeaves f = e.mapLeaves g := by
  have hw : e.writeTo.map (f writeSide) = e.writeTo.map (g writeSide) :=
    Option.map_congr fun l hl => h writeSide l (mem_indexedLeaves.mpr (Or.inr ⟨rfl, hl⟩))
  have hm : ∀ m l, e.members[m]? = some l → f m l = g m l :=
    fun m l hl => h m l (mem_indexedLeaves.mpr (Or.inl hl))
  cases hk : e.kind with
  | single l =>
    have := hm 0 l (by simp [members, hk])
    simp [mapLeaves, hk, hw, this]
  | combine policy ms =>
    have : ms.mapIdx f = ms.mapIdx g := by
      refine List.ext_getElem? fun m => ?_
      rw [List.getElem?_mapIdx, List.getElem?_mapIdx]
      refine Option.map_congr fun l hl => hm m l ?_
      simpa [members, hk] using hl
    simp [mapLeaves, hk, hw, this]

theorem mapLeaves_id (h : ∀ m l, (m, l) ∈ e.indexedLeaves → f m l = l) : e.mapLeaves f = e := by
  rw [mapLeaves_congr (g := fun _ l => l) h]
  obtain ⟨start, len, kind, writeTo⟩ := e
  cases kind with
  | single l => simp [mapLeaves]
  | combine policy ms => simp [mapLeaves, List.mapIdx_eq_zipIdx_map]

theorem mapLeaves_indexedLeaves :
    (e.mapLeaves f).indexedLeaves = e.indexedLeaves.map fun p => (p.1, f p.1 p.2) := by
  unfold indexedLeaves
  rw [mapLeaves_members, mapLeaves_writeTo, List.map_append]
  congr 1
  · refine List.ext_getElem? fun m => ?_
    simp [Option.map_map, Function.comp_def]
  · cases e.writeTo <;> rfl

theorem refresh_eq {cells : Cells} {index : Nat} (h : e.members.length ≤ writeSide) :
    e.refresh cells index = e.mapLeaves fun m l => if m = index then l.recompute cells else l := by
  obtain ⟨start, len, kind, writeTo⟩ := e
  by_cases hw : index = writeSide
  · subst hw
    -- the members are numbered below the write side, so only the write side changes
    cases kind with
    | single l => simp [refresh, mapLeaves, writeSide]
    | combine policy ms =>
      have hms : ms.mapIdx (fun m l => if m = writeSide then l.recompute cells else l) = ms := by
        refine List.ext_getElem? fun m => ?_
        rw [List.getElem?_mapIdx]
        cases hm : ms[m]? with
        | none => rfl
        | some l =>
          have hlt := (List.getElem?_eq_some_iff.mp hm).1
          have hne : m ≠ writeSide := Nat.ne_of_lt (Nat.lt_of_lt_of_le hlt h)
          rw [Option.map_some, if_neg hne]
      simp only [refresh, mapLeaves, hms, if_true]
  · have hside : writeTo.map (fun l => if writeSide = index then l.recompute cells else l)
        = writeTo := by
      cases writeTo with
      | none => rfl
      | some l => rw [Option.map_some, if_neg (Ne.symm hw)]
    simp only [refresh, mapLeaves, if_neg hw, hside]
    cases kind with
    | single l =>
      by_cases h0 : index = 0
      · subst h0
        rfl
      · simp only [if_neg h0, if_neg (Ne.symm h0)]
    | combine policy ms =>
      have hms : ms.modify index (·.recompute cells)
          = ms.mapIdx fun m l => if m = index then l.recompute cells else l := by
        refine List.ext_getElem? fun m => ?_
        rw [List.getElem?_modify, List.getElem?_mapIdx]
        refine Option.map_congr fun l _ => ?_
        by_cases hm : index = m
        · rw [if_pos hm, if_pos hm.symm]
        · rw [if_neg hm, if_neg (Ne.symm hm)]
      simp only [hms]

theorem refresh_length {cells : Cells} {index : Nat} :
    (e.refresh cells index).members.length = e.members.length := by
  unfold refresh
  split
  · rfl
  · split
    · rename_i l hk
      split <;> simp [members, hk]
    · rename_i policy ms hk
      simp [members, hk]

end FlatEntry

theorem foldl_refresh {cells : Cells} (ps : List (Nat × Nat)) :
    ∀ {es : List FlatEntry}, (∀ e ∈ es, e.members.length ≤ writeSide) →
      ps.foldl (fun es p => es.modify p.1 (FlatEntry.refresh cells p.2)) es =
        es.mapIdx fun i e => e.mapLeaves fun m l =>
          if (i, m) ∈ ps then l.recompute cells else l := by
  induction ps with
  | nil =>
    intro es _
    refine List.ext_getElem? fun i => ?_
    rw [List.foldl_nil, List.getElem?_mapIdx]
    cases es[i]? with
    | none => rfl
    | some e =>
      rw [Option.map_some, FlatEntry.mapLeaves_id]
      exact fun m l _ => if_neg (by simp)
  | cons p ps ih =>
    intro es hes
    have hes' : ∀ e ∈ es.modify p.1 (FlatEntry.refresh cells p.2),
        e.members.length ≤ writeSide := by
      intro e he
      rcases mem_modify he with he | ⟨e', he', rfl⟩
      · exact hes e he
      · rw [FlatEntry.refresh_length]
        exact hes e' (List.mem_of_getElem? he')
    rw [List.foldl_cons, ih hes']
    refine List.ext_getElem? fun i => ?_
    rw [List.getElem?_mapIdx, List.getElem?_mapIdx, List.getElem?_modify,
      Option.map_eq_map, Option.map_map]
    refine Option.map_congr fun e he => ?_
    simp only [Function.comp_apply]
    by_cases hi : p.1 = i
    · -- the entry of this position: one leaf is recomputed first, maybe again later
      rw [if_pos hi, FlatEntry.refresh_eq (hes e (List.mem_of_getElem? he)),
        FlatEntry.mapLeaves_mapLeaves]
      refine FlatEntry.mapLeaves_congr fun m l _ => ?_
      have hmem : (i, m) ∈ p :: ps ↔ m = p.2 ∨ (i, m) ∈ ps := by
        rw [List.mem_cons, Prod.ext_iff]
        simp [hi]
      by_cases hm : m = p.2
      · rw [if_pos hm, if_pos (hmem.mpr (Or.inl hm))]
        split <;> rfl
      · rw [if_neg hm]
        refine if_congr ?_ rfl rfl
        rw [hmem]
        exact ⟨Or.inr, fun h => h.resolve_left hm⟩
    · rw [if_neg hi]
      refine FlatEntry.mapLeaves_congr fun m l _ => if_congr ?_ rfl rfl
      rw [List.mem_cons, Prod.ext_iff]
      simp [Ne.symm hi]

/-- The positions of a view fit in the numbers the index files them under. -/
structure FlatView.Indexable (v : FlatView) : Prop where
  entries : v.entries.length ≤ 2 ^ 32
  /-- The last number is the write side's. -/
  members : ∀ e ∈ v.entries, e.members.length ≤ writeSide

def FlatView.feed (cells : Cells) (id : AliasId) (v : FlatView) : FlatView :=
  ⟨v.entries.map (FlatEntry.mapLeaves fun _ l =>
    if id ∈ l.terms then l.recompute cells else l)⟩

theorem mem_indexOf {v : FlatView} (h : v.Indexable) {id : AliasId} {i m : Nat} :
    (i, m) ∈ FlatView.indexOf v.entries id ↔
      ∃ e l, v.entries[i]? = some e ∧ (m, l) ∈ e.indexedLeaves ∧ id ∈ l.terms := by
  have hpos : ∀ {i m : Nat} {e : FlatEntry} {l : FlatLeaf}, v.entries[i]? = some e →
      (m, l) ∈ e.indexedLeaves → i % 2 ^ 32 = i ∧ min m (2 ^ 32 - 1) = m := by
    intro i m e l hi hm
    have hlt := (List.getElem?_eq_some_iff.mp hi).1
    have hle := h.entries
    refine ⟨Nat.mod_eq_of_lt (by omega), Nat.min_eq_left ?_⟩
    rcases FlatEntry.mem_indexedLeaves.mp hm with hm | ⟨rfl, _⟩
    · have h1 := (List.getElem?_eq_some_iff.mp hm).1
      have h2 := h.members e (List.mem_of_getElem? hi)
      unfold writeSide at h2
      omega
    · exact Nat.le_refl _
  unfold FlatView.indexOf FlatView.positions
  constructor
  · intro hin
    obtain ⟨q, hq, hqm⟩ := List.mem_filterMap.mp hin
    obtain ⟨⟨e, j⟩, he, hq⟩ := List.mem_flatMap.mp hq
    obtain ⟨⟨n, l⟩, hl, hq⟩ := List.mem_flatMap.mp hq
    obtain ⟨t, ht, rfl⟩ := List.mem_map.mp hq
    split at hqm
    · rename_i hid
      have hj := List.mk_mem_zipIdx_iff_getElem?.mp he
      obtain ⟨h1, h2⟩ := hpos hj hl
      simp only [Option.some.injEq, Prod.mk.injEq] at hqm
      refine ⟨e, l, ?_, ?_, hid ▸ ht⟩
      · rw [← hqm.1, h1]
        exact hj
      · rw [← hqm.2, h2]
        exact hl
    · exact absurd hqm (by simp)
  · rintro ⟨e, l, hi, hl, hid⟩
    obtain ⟨h1, h2⟩ := hpos hi hl
    refine List.mem_filterMap.mpr ⟨(id, i % 2 ^ 32, min m (2 ^ 32 - 1)), ?_, ?_⟩
    · refine List.mem_flatMap.mpr ⟨(e, i), List.mk_mem_zipIdx_iff_getElem?.mpr hi, ?_⟩
      exact List.mem_flatMap.mpr ⟨(m, l), hl, List.mem_map.mpr ⟨id, hid, rfl⟩⟩
    · rw [if_pos rfl, h1, h2]

theorem indexOf_eq_nil {es : List FlatEntry} {id : AliasId}
    (h : ∀ e ∈ es, ∀ p ∈ e.indexedLeaves, id ∉ p.2.terms) : FlatView.indexOf es id = [] := by
  refine List.filterMap_eq_nil_iff.mpr fun q hq => ?_
  obtain ⟨⟨e, j⟩, he, hq⟩ := List.mem_flatMap.mp hq
  obtain ⟨p, hp, hq⟩ := List.mem_flatMap.mp hq
  obtain ⟨t, ht, rfl⟩ := List.mem_map.mp hq
  have hmem := List.mem_of_getElem? (List.mk_mem_zipIdx_iff_getElem?.mp he)
  exact if_neg fun heq : t = id => h e hmem p hp (heq ▸ ht)

theorem mem_fromPiece {cells : Cells} {p : Piece} {m : Nat} {l : FlatLeaf}
    (h : (m, l) ∈ (FlatEntry.fromPiece cells p).indexedLeaves) :
    ∃ l' ∈ p.leaves, l = l'.intoLeaf cells := by
  unfold FlatEntry.fromPiece at h
  split at h
  · rename_i r w _ hp
    rcases FlatEntry.mem_indexedLeaves.mp h with h | ⟨_, h⟩
    · refine ⟨r, by simp [hp], ?_⟩
      exact List.mem_singleton.mp (List.mem_of_getElem? h)
    · exact ⟨w, by simp [hp], (Option.some.inj h).symm⟩
  · rename_i r hp
    rcases FlatEntry.mem_indexedLeaves.mp h with h | ⟨_, h⟩
    · refine ⟨r, by simp [hp], ?_⟩
      exact List.mem_singleton.mp (List.mem_of_getElem? h)
    · cases h
  · rcases FlatEntry.mem_indexedLeaves.mp h with h | ⟨_, h⟩
    · obtain ⟨l', hl', rfl⟩ := List.mem_map.mp (List.mem_of_getElem? h)
      exact ⟨l', hl', rfl⟩
    · cases h

theorem indexedLeaves_inj {e : FlatEntry} (h : e.members.length ≤ writeSide) {m : Nat}
    {l l' : FlatLeaf} (hl : (m, l) ∈ e.indexedLeaves) (hl' : (m, l') ∈ e.indexedLeaves) :
    l = l' := by
  have hlt : ∀ {l : FlatLeaf}, e.members[m]? = some l → m ≠ writeSide := by
    intro l hl
    have := (List.getElem?_eq_some_iff.mp hl).1
    omega
  rcases FlatEntry.mem_indexedLeaves.mp hl with h1 | ⟨h1, hw⟩ <;>
    rcases FlatEntry.mem_indexedLeaves.mp hl' with h2 | ⟨h2, hw'⟩
  · exact Option.some.inj (h1.symm.trans h2)
  · exact absurd h2 (hlt h1)
  · exact absurd h1 (hlt h2)
  · exact Option.some.inj (hw.symm.trans hw')

theorem rebase_eq {v : FlatView} (h : v.Indexable) (cells : Cells) (id : AliasId) :
    v.rebase cells (FlatView.indexOf v.entries) id = v.feed cells id := by
  unfold FlatView.rebase FlatView.feed
  rw [foldl_refresh _ h.members]
  congr 1
  refine List.ext_getElem? fun i => ?_
  rw [List.getElem?_mapIdx, List.getElem?_map]
  refine Option.map_congr fun e he => FlatEntry.mapLeaves_congr fun m l hl => if_congr ?_ rfl rfl
  rw [mem_indexOf h]
  constructor
  · rintro ⟨e', l', he', hl', hid⟩
    cases Option.some.inj (he.symm.trans he')
    rwa [indexedLeaves_inj (h.members e (List.mem_of_getElem? he)) hl hl']
  · exact fun hid => ⟨e, l, he, hl, hid⟩

theorem indexOf_feed (v : FlatView) (cells : Cells) (id : AliasId) :
    FlatView.indexOf (v.feed cells id).entries = FlatView.indexOf v.entries := by
  have hterms : ∀ l : FlatLeaf, (if id ∈ l.terms then l.recompute cells else l).terms = l.terms := by
    intro l
    split <;> rfl
  have hpos : FlatView.positions (v.feed cells id).entries = FlatView.positions v.entries := by
    unfold FlatView.positions FlatView.feed
    rw [List.zipIdx_map, List.flatMap_map]
    refine List.flatMap_congr fun p _ => ?_
    simp only [Prod.map_fst, Prod.map_snd, id_eq, FlatEntry.mapLeaves_indexedLeaves,
      List.flatMap_map, hterms]
  unfold FlatView.indexOf
  rw [hpos]

end Rsemu.Space
