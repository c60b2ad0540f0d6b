import Rsemu.Space.Refresh

/-!
# A rebase is a reflatten

A rebase touches cached offsets and nothing else, so it can only be right if
flattening again, with the new cell, would give the same pieces: the same ranges,
cut in the same places, answered by the same leaves. The flattener takes the cell of
a window that may slide out of every offset it hands up, so the pieces do not depend
on it, with one exception: a window that reaches past the end of its target is cut
short there, and where that is depends on the cell.

`Alias` checks that a window lies inside its target, and a rebase checks it again for
the new offset. `with_len` does not. `Fits` is the condition that it has not been used
to stretch a window over the end; `reflattened` is the result, for every run in which
the aliases that are slid meet it, and `stretched` is the run in which one does not.
-/

namespace Rsemu.Space

open Word

theorem choose_leaves {combine : CombinePolicy} {active : List Answer} {l : LeafSpec}
    (h : l ∈ (choose combine active).leaves) : ∃ a ∈ active, l ∈ a.leaves := by
  unfold choose at h
  split at h
  · exact List.mem_flatMap.mp h
  · split at h
    · rename_i r w hr hw
      have hr' := List.mem_of_find?_eq_some hr
      split at h
      · rcases List.mem_append.mp h with h | h
        · exact ⟨r, hr', h⟩
        · exact ⟨w, List.mem_of_find?_eq_some hw, h⟩
      · exact ⟨r, hr', h⟩
    · rename_i r hr _
      exact ⟨r, List.mem_of_find?_eq_some hr, h⟩
    · rename_i w _ hw
      exact ⟨w, List.mem_of_find?_eq_some hw, h⟩
    · cases active with
      | nil => cases h
      | cons a active => exact ⟨a, List.mem_cons_self .., h⟩

theorem resolveOverlaps_leaves {cands : List Cand} {combine : CombinePolicy}
    {C : LeafSpec → Prop} (hcut : ∀ l n, C l → C (l.cut n))
    (hc : ∀ c ∈ cands, ∀ l ∈ c.leaves, C l) :
    ∀ p ∈ resolveOverlaps cands combine, ∀ l ∈ p.leaves, C l := by
  have h : ∀ p ∈ Sweep.sweep (fun i : Cand × Nat => i.1.start) (fun i => i.1.stop) Ahead
      (emitPiece combine) cands.zipIdx [], ∀ l ∈ p.leaves, C l := by
    refine Sweep.sweep_invariant (P := fun ps : List Piece => ∀ p ∈ ps, ∀ l ∈ p.leaves, C l)
      (by simp) ?_
    intro a b act ps hact hps
    have hnew : ∀ l ∈ (choose combine (act.map fun i => i.1.cut a)).leaves, C l := by
      intro l hl
      obtain ⟨ans, hans, hl⟩ := choose_leaves hl
      obtain ⟨i, hi, rfl⟩ := List.mem_map.mp hans
      obtain ⟨l', hl', rfl⟩ := List.mem_map.mp hl
      have hmem := List.mem_zipIdx_iff_getElem?.mp (hact i hi)
      exact hcut l' _ (hc i.1 (List.mem_of_getElem? hmem) l' hl')
    unfold emitPiece pushPiece
    split
    · intro p hp l hl
      obtain rfl := List.mem_singleton.mp hp
      exact hnew l hl
    · rename_i prev rest
      split
      · intro p hp l hl
        rcases List.mem_cons.mp hp with rfl | hp
        · exact hps prev (List.mem_cons_self ..) l hl
        · exact hps p (List.mem_cons_of_mem _ hp) l hl
      · intro p hp l hl
        rcases List.mem_cons.mp hp with rfl | hp
        · exact hnew l hl
        · exact hps p hp l hl
  intro p hp
  exact h p (List.mem_reverse.mp hp)

theorem resolveChildren_leaves
    {resolve : Region → Nat → Nat → Perms → Except ConfigError (List Piece)}
    {children : List (Mapping Region)} {limit off len : Nat} {combine : CombinePolicy}
    {perms : Perms} {ps : List Piece} {C : LeafSpec → Prop} (hcut : ∀ l n, C l → C (l.cut n))
    (hres : ∀ m ∈ children, ∀ off len p qs, resolve m.region off len p = .ok qs →
      ∀ q ∈ qs, ∀ l ∈ q.leaves, C l)
    (h : resolveChildren resolve children limit off len combine perms = .ok ps) :
    ∀ p ∈ ps, ∀ l ∈ p.leaves, C l := by
  simp only [resolveChildren, bind, Except.bind] at h
  split at h
  · cases h
  · rename_i cands hg
    cases h
    refine resolveOverlaps_leaves hcut fun c hc l hl => ?_
    obtain ⟨child, hchild, cs, hcs, hmem⟩ := (mem_gather hg).mp hc
    simp only [childCands, bind, Except.bind] at hcs
    split at hcs
    · cases hcs
      cases hmem
    · split at hcs
      · cases hcs
      · rename_i sub hsub
        cases hcs
        obtain ⟨q, hq, rfl⟩ := List.mem_map.mp hmem
        have hm := List.mem_of_getElem? (List.mem_zipIdx_iff_getElem?.mp hchild)
        exact hres child.1 hm _ _ _ sub hsub q hq l hl

theorem resolveRegion_terms {cells : Cells} : ∀ {levels : Nat} {r : Region} {off len : Nat}
    {perms : Perms} {ps : List Piece}, resolveRegion cells levels r off len perms = .ok ps →
    ∀ p ∈ ps, ∀ l ∈ p.leaves, ∀ id ∈ l.terms, ∃ s a, Window r s a ∧ a.id = id := by
  intro levels
  induction levels with
  | zero => intro r off len perms ps h; exact absurd h (by simp [resolveRegion])
  | succ n ih =>
    intro r off len perms ps h p hp l hl id hid
    cases hk : r.kind with
    | «alias» a =>
      cases hrep : a.repeats with
      | true =>
        simp only [resolveRegion, hk, hrep, if_true] at h
        split at h
        · cases h
          cases hp
        · split at h
          · cases h
          · cases h
            obtain rfl := List.mem_singleton.mp hp
            obtain rfl := List.mem_singleton.mp hl
            cases hid
      | false =>
        rcases resolveRegion_window hk hrep h with ⟨_, rfl⟩ | ⟨sub, _, hsub, rfl⟩
        · cases hp
        · obtain ⟨q, hq, rfl⟩ := List.mem_map.mp hp
          obtain ⟨l', hl', rfl⟩ := List.mem_map.mp hl
          have hterms : id ∈ l'.terms ∨ id = a.id := by
            rw [windowLeaf_terms] at hid
            split at hid
            · rcases List.mem_append.mp hid with hid | hid
              · exact Or.inl hid
              · exact Or.inr (List.mem_singleton.mp hid)
            · exact Or.inl hid
          rcases hterms with h | rfl
          · obtain ⟨s, b, hw, rfl⟩ := ih hsub q hq l' hl' id h
            exact ⟨s, b, ⟨Sub.window hk hw.1, hw.2⟩, rfl⟩
          · exact ⟨r, a, ⟨Sub.refl r, hk⟩, rfl⟩
    | container cs combine =>
      rw [resolveRegion_container hk] at h
      split at h
      · cases h
        cases hp
      · refine resolveChildren_leaves
          (C := fun l => ∀ id ∈ l.terms, ∃ s a, Window r s a ∧ a.id = id)
          (fun l n hC => hC) ?_ h p hp l hl id hid
        intro m hm off' len' p' qs hqs q hq l hl id hid
        obtain ⟨s, b, hw, rfl⟩ := ih hqs q hq l hl id hid
        exact ⟨s, b, ⟨Sub.child hk hm hw.1, hw.2⟩, rfl⟩
    | _ =>
      obtain ⟨t, ht⟩ := isLeaf_iff.mp (show r.isLeaf = true by simp [Region.isLeaf, hk])
      rw [resolveRegion_leaf ht] at h
      cases h
      split at hp
      · cases hp
      · obtain rfl := List.mem_singleton.mp hp
        obtain rfl := List.mem_singleton.mp hl
        cases hid

/-- A leaf, or a window over one: the window lies inside its target, and so on down. -/
inductive Fits (cells : Cells) : Region → Prop where
  | leaf (r : Region) : r.isLeaf = true → Fits cells r
  | window (r : Region) (a : Alias Region) : r.kind = .alias a → a.repeats = false →
      cells a.id + r.len ≤ a.target.len → Fits cells a.target → Fits cells r

theorem Fits.resolvesToLeaf {cells : Cells} {r : Region} (hs : Shape r) (h : Fits cells r) :
    r.resolvesToLeaf = true := by
  induction h with
  | leaf r hl =>
    unfold Region.isLeaf at hl
    unfold Region.resolvesToLeaf
    cases hk : r.kind <;> simp_all
  | window r a hk hrep _ _ ih =>
    cases hs with
    | leaf _ hl _ _ => exact absurd hl (by simp [Region.isLeaf, hk])
    | window _ b hkb _ hok ht =>
      cases hk.symm.trans hkb
      have hreb : a.rebasable = true := by rw [hok.rebasable, hrep, ih ht]; rfl
      simp only [Region.resolvesToLeaf, hk, hreb, hrep, Bool.not_false, Bool.and_self]
    | container _ _ _ hkc _ _ _ _ _ => cases hk.symm.trans hkc

theorem Fits.congr {cells cells' : Cells} {r : Region} (h : Fits cells r)
    (hc : ∀ s a, Window r s a → cells' a.id = cells a.id) : Fits cells' r := by
  induction h with
  | leaf r hl => exact Fits.leaf r hl
  | window r a hk hrep hfit _ ih =>
    refine Fits.window r a hk hrep ?_ (ih fun s b hw => hc s b ⟨Sub.window hk hw.1, hw.2⟩)
    rw [hc r a ⟨Sub.refl r, hk⟩]
    exact hfit

def leafAt (off len : Nat) (l : LeafSpec) : List Piece :=
  if len = 0 then [] else leafPiece len { l with fixed := off }

theorem Fits.resolves {r : Region} (hs : Shape r) : r.resolvesToLeaf = true →
    ∃ leaf : Perms → LeafSpec, ∀ (cells : Cells) (levels off len : Nat) (perms : Perms),
      Fits cells r → r.depth ≤ levels → levels < 2 ^ 32 - 1 →
        resolveRegion cells levels r off len perms =
          .ok (leafAt off (min len (r.len - off)) (leaf perms)) := by
  induction hs with
  | leaf r hl hlt hd =>
    intro _
    obtain ⟨t, ht⟩ := isLeaf_iff.mp hl
    refine ⟨fun perms => ⟨t, 0, [], 0, r.constraints, perms⟩, ?_⟩
    intro cells levels off len perms _ hlev _
    obtain ⟨n, rfl⟩ : ∃ n, levels = n + 1 := ⟨levels - 1, by omega⟩
    rw [resolveRegion_leaf ht]
    rfl
  | window r a hk hlt hok ht ih =>
    intro hleaf
    simp only [Region.resolvesToLeaf, hk, Bool.and_eq_true, Bool.not_eq_true'] at hleaf
    have htgt : a.target.resolvesToLeaf = true := by
      have := hok.rebasable
      rw [hleaf.1] at this
      simpa [hleaf.2] using this.symm
    obtain ⟨leaf, hres⟩ := ih htgt
    refine ⟨fun perms => windowLeaf (fun _ => 0) r a (leaf (perms.intersect .rwx)), ?_⟩
    intro cells levels off len perms hf hlev hmax
    have hdep := hok.depth
    unfold saturatingAdd at hdep
    obtain ⟨n, rfl⟩ : ∃ n, levels = n + 1 := ⟨levels - 1, by omega⟩
    cases hf with
    | leaf _ hl => exact absurd hl (by simp [Region.isLeaf, hk])
    | window _ b hkb hrep hfit hfb =>
      cases hk.symm.trans hkb
      simp only [resolveRegion, hk, hrep, Bool.false_eq_true, if_false, leafAt]
      by_cases h0 : min len (r.len - off) = 0
      · simp only [if_pos h0]
      · have htlen := ht.len_lt
        -- inside the window nothing wraps and nothing is cut short
        have hoff : wrappingAdd 64 (cells a.id) off = cells a.id + off :=
          wrappingAdd_of_lt (by omega)
        have hmin : min (min len (r.len - off)) (a.target.len - (cells a.id + off))
            = min len (r.len - off) := by omega
        have hback : wrappingSub 64 (cells a.id + off) (cells a.id) = off := by
          rw [wrappingSub_of_le (by omega) (by omega)]
          omega
        rw [hoff, hres cells n _ _ _ hfb (by omega) (by omega), hmin]
        simp only [bind, Except.bind, leafAt, if_neg h0, leafPiece, List.map_cons,
          List.map_nil]
        have hleafw : windowLeaf cells r a
            { leaf (perms.intersect .rwx) with fixed := cells a.id + off } =
            { windowLeaf (fun _ => 0) r a (leaf (perms.intersect .rwx)) with fixed := off } := by
          unfold windowLeaf
          by_cases hcon : r.constraints ≠ a.target.constraints
          · simp only [if_pos hcon, if_pos hleaf.1, hback]
          · simp only [if_neg hcon, if_pos hleaf.1, hback]
        rw [hleafw]
  | container r cs c hk _ _ _ _ _ _ =>
    intro hleaf
    exact absurd hleaf (by simp [Region.resolvesToLeaf, hk])

theorem gather_congr {ε α β : Type} {f g : α → Except ε (List β)} {l : List α}
    (h : ∀ a ∈ l, f a = g a) : gather f l = gather g l := by
  induction l with
  | nil => rfl
  | cons a l ih =>
    unfold gather
    rw [h a (List.mem_cons_self ..), ih fun b hb => h b (List.mem_cons_of_mem _ hb)]

theorem resolveChildren_congr
    {resolve resolve' : Region → Nat → Nat → Perms → Except ConfigError (List Piece)}
    {children : List (Mapping Region)} {limit off len : Nat} {combine : CombinePolicy}
    {perms : Perms}
    (h : ∀ m ∈ children, ∀ off len p, resolve m.region off len p = resolve' m.region off len p) :
    resolveChildren resolve children limit off len combine perms =
      resolveChildren resolve' children limit off len combine perms := by
  unfold resolveChildren
  rw [gather_congr (g := childCands resolve' limit off (saturatingAdd 64 off len) perms)]
  intro c hc
  have hm := List.mem_of_getElem? (List.mem_zipIdx_iff_getElem?.mp hc)
  simp only [childCands, h c.1 hm]

/-- Each alias on the way kept its offset, or its window fits before and after. -/
def Slid (cells cells' : Cells) (r : Region) : Prop :=
  ∀ s a, Window r s a → cells' a.id = cells a.id ∨ Fits cells s ∧ Fits cells' s

theorem resolveRegion_congr {cells cells' : Cells} : ∀ {levels : Nat} {r : Region}, Shape r →
    r.depth ≤ levels → levels < 2 ^ 32 - 1 → Slid cells cells' r → ∀ off len perms,
    resolveRegion cells levels r off len perms = resolveRegion cells' levels r off len perms := by
  intro levels
  induction levels with
  | zero =>
    intro r hs hd
    have := hs.depth_pos
    omega
  | succ n ih =>
    intro r hs hd hn hsl off len perms
    cases hs with
    | leaf _ hl _ _ =>
      obtain ⟨t, ht⟩ := isLeaf_iff.mp hl
      rw [resolveRegion_leaf ht, resolveRegion_leaf ht]
    | window _ a hk hlt hok htgt =>
      rcases hsl r a ⟨Sub.refl r, hk⟩ with heq | ⟨hf, hf'⟩
      · cases hrep : a.repeats with
        | true =>
          obtain ⟨t, ht⟩ := isLeaf_iff.mp (hok.leaf hrep)
          rw [resolveRegion_mirror hk hrep ht, resolveRegion_mirror hk hrep ht]
        | false =>
          have hdep := hok.depth
          unfold saturatingAdd at hdep
          have hsub := ih htgt (by omega) (by omega)
            (fun s b hw => hsl s b ⟨Sub.window hk hw.1, hw.2⟩)
          have hwin : windowLeaf cells' r a = windowLeaf cells r a := by
            funext l
            unfold windowLeaf
            rw [heq]
          simp only [resolveRegion, hk, hrep, Bool.false_eq_true, if_false, heq, hsub, hwin]
      · have hs : Shape r := Shape.window r a hk hlt hok htgt
        obtain ⟨leaf, hres⟩ := Fits.resolves hs (hf.resolvesToLeaf hs)
        rw [hres cells _ _ _ _ hf hd hn, hres cells' _ _ _ _ hf' hd hn]
    | container _ cs c hk _ _ _ hdep hcs =>
      rw [resolveRegion_container hk, resolveRegion_container hk]
      split
      · rfl
      · refine resolveChildren_congr fun m hm off len p => ih (hcs m hm) ?_ (by omega) ?_ off len p
        · have := hdep m hm
          unfold saturatingAdd at this
          omega
        · exact fun s b hw => hsl s b ⟨Sub.child hk hm hw.1, hw.2⟩

/-- The region is in one of the mapped trees. -/
def AddressSpace.Maps (s : AddressSpace) (r : Region) : Prop := ∃ m ∈ s.mappings, Sub r m.region

/-- The view kept is the one a rebuild would give. -/
def AddressSpace.Reflattened (cells : Cells) (s : AddressSpace) : Prop :=
  FlatView.build cells s.mappings s.size s.combine = .ok (s.flat, s.index)

theorem fromPiece_mapLeaves {cells cells' : Cells} {f : FlatLeaf → FlatLeaf} {p : Piece}
    (h : ∀ l ∈ p.leaves, f (l.intoLeaf cells) = l.intoLeaf cells') :
    (FlatEntry.fromPiece cells p).mapLeaves (fun _ => f) = FlatEntry.fromPiece cells' p := by
  unfold FlatEntry.fromPiece
  split
  · rename_i l l' _ hp
    have h1 := h l (by simp [hp])
    have h2 := h l' (by simp [hp])
    simp only [FlatEntry.mapLeaves, h1, Option.map_some, h2]
  · rename_i l hp
    have h1 := h l (by simp [hp])
    simp only [FlatEntry.mapLeaves, h1, Option.map_none]
  · have h1 : (p.leaves.map (·.intoLeaf cells)).mapIdx (fun _ => f)
        = p.leaves.map (·.intoLeaf cells') := by
      refine List.ext_getElem? fun i => ?_
      simp only [List.getElem?_mapIdx, List.getElem?_map, Option.map_map]
      exact Option.map_congr fun l hl => h l (List.mem_of_getElem? hl)
    simp only [FlatEntry.mapLeaves, h1, Option.map_none]

theorem sum_congr {cells cells' : Cells} {terms : List AliasId}
    (h : ∀ id ∈ terms, cells' id = cells id) (v : Nat) :
    terms.foldl (fun v id => wrappingAdd 64 v (cells' id)) v =
      terms.foldl (fun v id => wrappingAdd 64 v (cells id)) v := by
  induction terms generalizing v with
  | nil => rfl
  | cons t ts ih =>
    rw [List.foldl_cons, List.foldl_cons, h t (List.mem_cons_self ..)]
    exact ih (fun id hid => h id (List.mem_cons_of_mem _ hid)) _

theorem intoLeaf_congr {cells cells' : Cells} {l : LeafSpec}
    (h : ∀ id ∈ l.terms, cells' id = cells id) : l.intoLeaf cells' = l.intoLeaf cells := by
  unfold LeafSpec.intoLeaf LeafSpec.offset
  rw [sum_congr h]

theorem intoLeaf_fed {cells cells' : Cells} {id : AliasId} (l : LeafSpec)
    (h : ∀ id' ≠ id, cells' id' = cells id') :
    (if id ∈ (l.intoLeaf cells).terms then (l.intoLeaf cells).recompute cells'
      else l.intoLeaf cells) = l.intoLeaf cells' := by
  by_cases hid : id ∈ l.terms
  · exact if_pos hid
  · have hne : ∀ id' ∈ l.terms, cells' id' = cells id' :=
      fun id' hid' => h id' fun heq => hid (heq ▸ hid')
    rw [intoLeaf_congr hne]
    exact if_neg hid

section Pieces

variable {cells cells' : Cells} {children : List (Mapping Region)} {limit : Nat}
  {combine : CombinePolicy} {ps : List Piece}

theorem pieces_slid (hm : Mapped children) (hsl : ∀ m ∈ children, Slid cells cells' m.region)
    (h : resolveChildren (resolveRegion cells maxDepth) children limit 0 limit combine .rwx
      = .ok ps) :
    FlatView.build cells' children limit combine =
      .ok (⟨ps.map (FlatEntry.fromPiece cells')⟩,
        FlatView.indexOf (ps.map (FlatEntry.fromPiece cells'))) := by
  have hcongr := @resolveChildren_congr (resolveRegion cells maxDepth)
    (resolveRegion cells' maxDepth) children limit 0 limit combine .rwx fun m hmem off len p =>
      resolveRegion_congr (hm.built m hmem).shape (hm.depth m hmem) (by decide) (hsl m hmem)
        off len p
  rw [h] at hcongr
  simp only [FlatView.build, ← hcongr, bind, Except.bind]

theorem pieces_terms
    (h : resolveChildren (resolveRegion cells maxDepth) children limit 0 limit combine .rwx
      = .ok ps) :
    ∀ p ∈ ps, ∀ l ∈ p.leaves, ∀ id ∈ l.terms,
      ∃ m ∈ children, ∃ s a, Window m.region s a ∧ a.id = id := by
  refine resolveChildren_leaves
    (C := fun l => ∀ id ∈ l.terms, ∃ m ∈ children, ∃ s a, Window m.region s a ∧ a.id = id)
    (fun l n hC => hC) ?_ h
  intro m hm off len p qs hqs q hq l hl id hid
  exact ⟨m, hm, resolveRegion_terms hqs q hq l hl id hid⟩

end Pieces

theorem Sane.same_node {w : World} (hw : Sane w) {sp : AddressSpace} (hsp : sp ∈ w.spaces)
    {m : Mapping Region} (hm : m ∈ sp.mappings) {r s : Region} {a b : Alias Region}
    (hr : r ∈ w.regions) (hk : r.kind = .alias a) (hb : Window m.region s b) (hid : b.id = a.id) :
    s = r :=
  hw.one m.region (hw.shared sp hsp m hm) r hr s b r a hb ⟨Sub.refl r, hk⟩ hid

theorem Reflattened.elsewhere {w : World} (hw : Sane w) {sp : AddressSpace}
    (hsp : sp ∈ w.spaces) {cells' : Cells} (h : sp.Reflattened w.cells)
    (hc : ∀ m ∈ sp.mappings, ∀ s a, Window m.region s a → cells' a.id = w.cells a.id) :
    sp.Reflattened cells' := by
  obtain ⟨ps, hps, hflat, hindex⟩ := build_pieces h
  have hnew := pieces_slid (hw.mapped hsp) (fun m hm s a hwin => Or.inl (hc m hm s a hwin)) hps
  have heq : ps.map (FlatEntry.fromPiece cells') = sp.flat.entries := by
    rw [hflat]
    refine List.map_congr_left fun p hp => ?_
    have hleaf : ∀ l ∈ p.leaves, id (l.intoLeaf w.cells) = l.intoLeaf cells' := by
      intro l hl
      refine (intoLeaf_congr fun id hid => ?_).symm
      obtain ⟨m, hm, s, a, hwin, rfl⟩ := pieces_terms hps p hp l hl id hid
      exact hc m hm s a hwin
    rw [← fromPiece_mapLeaves hleaf]
    exact FlatEntry.mapLeaves_id fun _ _ _ => rfl
  unfold AddressSpace.Reflattened
  rw [hnew, heq, ← hindex]

theorem Reflattened.rebased {w : World} (hw : Sane w) {sp : AddressSpace} (hsp : sp ∈ w.spaces)
    {r : Region} {a : Alias Region} {offset : Nat} {cells' : Cells} (hr : r ∈ w.regions)
    (hk : r.kind = .alias a) (hoff : offset + r.len ≤ a.target.len)
    (hcells : cells' = fun id => if id = a.id then offset else w.cells id)
    (h : sp.Reflattened w.cells) (hfit : sp.Maps r → Fits w.cells r ∧ sp.flat.Indexable) :
    ({ sp with flat := sp.flat.rebase cells' sp.index a.id } : AddressSpace).Reflattened cells' := by
  have hother : ∀ id ≠ a.id, cells' id = w.cells id := by
    intro id hne
    rw [hcells]
    exact if_neg hne
  obtain ⟨ps, hps, hflat, hindex⟩ := build_pieces h
  by_cases hmaps : sp.Maps r
  · obtain ⟨hf, hix⟩ := hfit hmaps
    -- below the window nothing has moved, and the window itself was checked
    have hf' : Fits cells' r := by
      cases hf with
      | leaf _ hl => exact absurd hl (by simp [Region.isLeaf, hk])
      | window _ b hkb hrep _ ht =>
        cases hk.symm.trans hkb
        refine Fits.window r a hk hrep ?_ (ht.congr fun s b hwin => hother b.id ?_)
        · rw [hcells]
          simpa using hoff
        · exact Nat.ne_of_lt (hw.earlier r hr r a ⟨Sub.refl r, hk⟩ s b hwin)
    have hsl : ∀ m ∈ sp.mappings, Slid w.cells cells' m.region := by
      intro m hm s b hwin
      by_cases hid : b.id = a.id
      · rw [hw.same_node hsp hm hr hk hwin hid]
        exact Or.inr ⟨hf, hf'⟩
      · exact Or.inl (hother b.id hid)
    have hnew := pieces_slid (hw.mapped hsp) hsl hps
    have heq : (sp.flat.rebase cells' sp.index a.id).entries
        = ps.map (FlatEntry.fromPiece cells') := by
      rw [hindex, rebase_eq hix, hflat]
      simp only [FlatView.feed, List.map_map]
      refine List.map_congr_left fun p _ => ?_
      exact fromPiece_mapLeaves fun l _ => intoLeaf_fed l hother
    have hidx : FlatView.indexOf (ps.map (FlatEntry.fromPiece cells')) = sp.index := by
      rw [← heq, hindex, rebase_eq hix, indexOf_feed]
    show FlatView.build cells' sp.mappings sp.size sp.combine = _
    rw [hnew, hidx, ← heq]
  · -- no leaf of this view has the alias among its terms, so there is nothing to refresh
    have hc : ∀ m ∈ sp.mappings, ∀ s b, Window m.region s b → cells' b.id = w.cells b.id := by
      intro m hm s b hwin
      refine hother b.id fun hid => hmaps ⟨m, hm, ?_⟩
      rw [← hw.same_node hsp hm hr hk hwin hid]
      exact hwin.1
    have hnone : sp.index a.id = [] := by
      rw [hindex, hflat]
      refine indexOf_eq_nil fun e he q hq hid => ?_
      obtain ⟨p, hp, rfl⟩ := List.mem_map.mp he
      obtain ⟨l, hl, hql⟩ := mem_fromPiece (show (q.1, q.2) ∈ _ from hq)
      rw [hql] at hid
      obtain ⟨m, hm, s, b, hwin, hb⟩ := pieces_terms hps p hp l hl a.id hid
      refine hmaps ⟨m, hm, ?_⟩
      rw [← hw.same_node hsp hm hr hk hwin hb]
      exact hwin.1
    have hsame : sp.flat.rebase cells' sp.index a.id = sp.flat := by
      unfold FlatView.rebase
      rw [hnone]
      rfl
    rw [hsame]
    exact Reflattened.elsewhere hw hsp h hc

/-- A view not marked dirty is the one a rebuild would give. -/
def UpToDate (cells : Cells) (s : AddressSpace) : Prop := s.dirty = false → s.Reflattened cells

theorem sync_reflattened {cells : Cells} {s : AddressSpace} (hm : Mapped s.mappings)
    (h : UpToDate cells s) : (s.sync cells).Reflattened cells := by
  unfold AddressSpace.sync
  cases hd : s.dirty with
  | false => exact h hd
  | true =>
    obtain ⟨v, index, hb⟩ := @build_ok cells s.mappings s.size s.combine hm
    simp only [Bool.not_true, Bool.false_eq_true, if_false, hb]
    exact hb

theorem guardOp_upToDate {w : World} {s s' : AddressSpace} {op : GuardOp}
    (hok : ∀ m ∈ s.mappings, MapOk w m) (hw : Sane w) (h : UpToDate w.cells s)
    (hop : w.guardOp s op = .ok s') : UpToDate w.cells s' := by
  rcases guardOp_derived hop with ⟨_, _, hd | rfl⟩ | ⟨d, hd, rfl⟩
  · exact fun hf => absurd (hd.symm.trans hf) (by simp)
  · exact h
  · refine fun _ => sync_reflattened (s := { s with dirty := d }) (MapOk.mapped hw hok) fun hf => ?_
    rcases hd with rfl | rfl
    · cases hf
    · exact h hf

theorem guard_reflattened {w : World} {s : AddressSpace} {ops : List GuardOp} (hw : Sane w)
    (hs : ∀ op ∈ ops, op.Sized) (hok : ∀ m ∈ s.mappings, MapOk w m)
    (h : s.Reflattened w.cells) : (w.guard s ops).Reflattened w.cells := by
  have hrun := guard_induction
    (C := fun s => (∀ m ∈ s.mappings, MapOk w m) ∧ UpToDate w.cells s)
    (fun op hop s s' hc heq =>
      ⟨guardOp_mapOk (hs op hop) hc.1 heq, guardOp_upToDate hc.1 hw hc.2 heq⟩)
    ⟨hok, fun _ => h⟩
  exact sync_reflattened (MapOk.mapped hw hrun.1) hrun.2

/-- Space `j` rebases its view for the alias moved to `offset`. -/
def Slides (w : World) (j : Nat) (h : RegionRef) (offset : Nat) (r : Region) : Prop :=
  ∃ s out, w.spaces[j]? = some s ∧ w.region h = some r ∧ s.rebase w.cells r offset = .ok out

/--
What is asked of the rebases of a run, from the side of space `i`: an alias this space
maps is slid through this space, and lies inside its target when it is.
-/
def InPlace (i : Nat) (w : World) : Action → Prop
  | .rebase j h offset => ∀ r s, Slides w j h offset r → w.spaces[i]? = some s → s.Maps r →
      j = i ∧ Fits w.cells r ∧ s.flat.Indexable
  | _ => True

/-- **Everything one action can do.** -/
inductive Stepped (w : World) : Action → World → Prop where
  | refused (act : Action) : Stepped w act w
  | share {recipe : Recipe} {mods : List Modifier} {q : Region} {w' : World} (r : Region) :
      Made w q w' →
      Stepped w (.share recipe mods) { w' with regions := w'.regions ++ [r] }
  | space (name : String) (bits : Nat) (combine : CombinePolicy) :
      Stepped w (.space name bits combine)
        { w with spaces := w.spaces ++ [AddressSpace.new name bits combine] }
  | guard (i : Nat) (ops : List GuardOp) :
      Stepped w (.guard i ops) { w with spaces := w.spaces.modify i fun s => w.guard s ops }
  | rebase {j : Nat} {h : RegionRef} {offset : Nat} {s : AddressSpace} {r : Region}
      {a : Alias Region} {cells' : Cells} :
      w.spaces[j]? = some s → Slides w j h offset r → r ∈ w.regions → r.kind = .alias a →
      offset + r.len ≤ a.target.len →
      cells' = (fun id => if id = a.id then offset else w.cells id) →
      Stepped w (.rebase j h offset)
        { w with
          cells := cells'
          spaces := w.spaces.set j { s with flat := s.flat.rebase cells' s.index a.id } }

theorem stepped {w : World} {act : Action} (hw : Sane w) (hs : act.Sized) :
    Stepped w act (w.step act) := by
  cases act with
  | share recipe mods =>
    simp only [World.step]
    split
    · rename_i q w' hmake
      exact Stepped.share _ (make_spec hw hs.1 hmake)
    · exact Stepped.refused _
  | space name bits combine => exact Stepped.space name bits combine
  | guard i ops => exact Stepped.guard i ops
  | rebase j h offset =>
    simp only [World.step]
    split
    · rename_i s r hget hr
      split
      · rename_i cells' s' hok
        have hsl : Slides w j h offset r := ⟨s, _, hget, hr, hok⟩
        obtain ⟨a, hk, _, hfit, hcells, rfl⟩ := rebase_eq_ok hok
        exact Stepped.rebase hget hsl (List.mem_of_getElem? hr) hk hfit hcells
      · exact Stepped.refused _
    · exact Stepped.refused _

theorem getElem?_snoc {α : Type} {l : List α} {x y : α} {i : Nat}
    (h : (l ++ [x])[i]? = some y) : l[i]? = some y ∨ y = x := by
  rcases Nat.lt_or_ge i l.length with hi | hi
  · rw [List.getElem?_append_left hi] at h
    exact Or.inl h
  · rw [List.getElem?_append_right hi] at h
    exact Or.inr (List.mem_singleton.mp (List.mem_of_getElem? h))

theorem getElem?_set_some {α : Type} {l : List α} {x y : α} {i j : Nat}
    (h : (l.set j x)[i]? = some y) : (j = i ∧ y = x) ∨ (j ≠ i ∧ l[i]? = some y) := by
  rw [List.getElem?_set] at h
  split at h
  · rename_i hji
    split at h
    · exact Or.inl ⟨hji, (Option.some.inj h).symm⟩
    · cases h
  · rename_i hji
    exact Or.inr ⟨hji, h⟩

theorem reflattened_new (cells : Cells) (name : String) (bits : Nat) (combine : CombinePolicy) :
    (AddressSpace.new name bits combine).Reflattened cells := rfl

theorem reflattened_step {i : Nat} {w w' : World} {act : Action} {s' : AddressSpace}
    (hw : Sane w) (hstep : Stepped w act w') (hsz : act.Sized) (hact : InPlace i w act)
    (hold : ∀ s, w.spaces[i]? = some s → s.Reflattened w.cells)
    (hs : w'.spaces[i]? = some s') : s'.Reflattened w'.cells := by
  cases hstep with
  | refused => exact hold s' hs
  | share r hmade =>
    have hs : w.spaces[i]? = some s' := hmade.spaces ▸ hs
    have hsp := List.mem_of_getElem? hs
    -- a new alias's cell is nobody's yet
    refine Reflattened.elsewhere hw hsp (hold s' hs) fun m hm s a hwin => ?_
    exact hmade.cells a.id (hw.taken m.region (hw.shared s' hsp m hm) s a hwin)
  | space name bits combine =>
    rcases getElem?_snoc hs with h | rfl
    · exact hold s' h
    · exact reflattened_new _ name bits combine
  | guard j ops =>
    simp only [List.getElem?_modify] at hs
    obtain ⟨s, hget, rfl⟩ := Option.map_eq_some_iff.mp hs
    by_cases hj : j = i
    · rw [if_pos hj]
      show (w.guard s ops).Reflattened w.cells
      exact guard_reflattened hw hsz (hw.mapOk (List.mem_of_getElem? hget)) (hold s hget)
    · rw [if_neg hj]
      exact hold s hget
  | rebase hget hsl hr hk hfit hcells =>
    rename_i j h offset s r a cells'
    rcases getElem?_set_some hs with ⟨rfl, rfl⟩ | ⟨hne, hs⟩
    · refine Reflattened.rebased hw (List.mem_of_getElem? hget) hr hk hfit hcells
        (hold s hget) fun hmaps => ?_
      exact (hact r s hsl hget hmaps).2
    · -- slid through another space, so not one of this space's aliases
      have hsp := List.mem_of_getElem? hs
      refine Reflattened.elsewhere hw hsp (hold s' hs) fun m hm t b hwin => ?_
      rw [hcells]
      refine if_neg fun hid => hne (hact r s' hsl hs ⟨m, hm, ?_⟩).1
      rw [← hw.same_node hsp hm hr hk hwin hid]
      exact hwin.1

/--
**A rebase is a reflatten.** In every state of every run whose rebases are in place, a
space holds exactly the view and the index the flattener would build from its mappings
and the cells as they are.
-/
theorem reflattened {i : Nat} {w : World} {s : AddressSpace} (h : Reached (InPlace i) w)
    (hs : w.spaces[i]? = some s) :
    FlatView.build w.cells s.mappings s.size s.combine = .ok (s.flat, s.index) := by
  suffices ∀ s, w.spaces[i]? = some s → s.Reflattened w.cells from this s hs
  clear hs
  induction h with
  | empty => exact fun s hs => absurd hs (by simp [World.empty])
  | step w act hr hsz hact ih =>
    have hw := sane_reached hr
    exact fun s hs => reflattened_step hw (stepped hw hsz) hsz hact ih hs

def bankWorld : World :=
  (World.empty.step (.share (.ram "prg" ⟨1, 0x200⟩) [])
    |>.step (.share (.window "bank" 0 0x100 0x80) [])
    |>.step (.space "cpu" 16 .priority)
    |>.step (.guard 0 [.mapWith ⟨1, 0x1000, 0, .rwx⟩]))

theorem bank_reached {P : World → Action → Prop} (hshare : ∀ w r m, P w (.share r m))
    (hspace : ∀ w n b c, P w (.space n b c)) (hguard : ∀ w i o, P w (.guard i o)) :
    Reached P bankWorld := by
  refine Reached.step _ _ (Reached.step _ _ (Reached.step _ _ (Reached.step _ _ Reached.empty
    ?_ (hshare ..)) ?_ (hshare ..)) ?_ (hspace ..)) ?_ (hguard ..)
  · exact ⟨show 0x200 < 2 ^ 64 by decide, fun m hm => absurd hm (by simp)⟩
  · exact ⟨show 0x100 < 2 ^ 64 by decide, fun m hm => absurd hm (by simp)⟩
  · exact ⟨by decide, by decide⟩
  · intro op hop
    obtain rfl := List.mem_singleton.mp hop
    exact show 0x1000 < 2 ^ 64 by decide

theorem bank_indexable {s : AddressSpace} (hs : bankWorld.spaces[0]? = some s) :
    s.flat.Indexable := by
  have h : (bankWorld.spaces[0]?.all fun s => decide (s.flat.entries.length ≤ 2 ^ 32) &&
      s.flat.entries.all fun e => decide (e.members.length ≤ writeSide)) = true := by
    decide
  rw [hs] at h
  simp only [Option.all_some, Bool.and_eq_true, decide_eq_true_eq, List.all_eq_true] at h
  exact ⟨h.1, h.2⟩

theorem bank_fits {r : Region} (hr : bankWorld.region 1 = some r) : Fits bankWorld.cells r := by
  have h : bankWorld.region 1 = some ⟨"bank", 0x80, .any,
      .alias ⟨Region.ram "prg" ⟨1, 0x200⟩, 1, true, false⟩, 2⟩ := rfl
  obtain rfl := Option.some.inj (hr.symm.trans h)
  exact Fits.window _ _ rfl rfl (show bankWorld.cells 1 + 0x80 ≤ 0x200 by decide)
    (Fits.leaf _ rfl)

theorem reflattened_bank : ∃ s, (bankWorld.step (.rebase 0 1 0)).spaces[0]? = some s ∧
    FlatView.build (bankWorld.step (.rebase 0 1 0)).cells s.mappings s.size s.combine
      = .ok (s.flat, s.index) := by
  have hrun : Reached (InPlace 0) (bankWorld.step (.rebase 0 1 0)) := by
    refine Reached.step _ _ (bank_reached (fun _ _ _ => trivial) (fun _ _ _ _ => trivial)
      fun _ _ _ => trivial) (show 0 < 2 ^ 64 by decide) ?_
    intro r s hsl hs hmaps
    obtain ⟨_, _, _, hr, _⟩ := hsl
    exact ⟨rfl, bank_fits hr, bank_indexable hs⟩
  obtain ⟨s, hs⟩ := Option.isSome_iff_exists.mp
    (show ((bankWorld.step (.rebase 0 1 0)).spaces[0]?).isSome = true by decide)
  exact ⟨s, hs, reflattened hrun hs⟩

def stretchedWorld : World :=
  (World.empty.step (.share (.ram "prg" ⟨1, 0x150⟩) [])
    |>.step (.share (.window "bank" 0 0x100 0x50) [.len 0x120])
    |>.step (.space "cpu" 16 .priority)
    |>.step (.guard 0 [.mapWith ⟨1, 0x1000, 0, .rwx⟩])
    |>.step (.rebase 0 1 0x10))

theorem stretched_reached : Reached (fun _ _ => True) stretchedWorld := by
  refine Reached.step _ _ (Reached.step _ _ (Reached.step _ _ (Reached.step _ _ (Reached.step _ _
    Reached.empty ?_ trivial) ?_ trivial) ?_ trivial) ?_ trivial) ?_ trivial
  · exact ⟨show 0x150 < 2 ^ 64 by decide, fun m hm => absurd hm (by simp)⟩
  · refine ⟨show 0x100 < 2 ^ 64 by decide, fun m hm => ?_⟩
    obtain rfl := List.mem_singleton.mp hm
    exact show 0x120 < 2 ^ 64 by decide
  · exact ⟨by decide, by decide⟩
  · intro op hop
    obtain rfl := List.mem_singleton.mp hop
    exact show 0x1000 < 2 ^ 64 by decide
  · exact show 0x10 < 2 ^ 64 by decide

/-- The view still ends where the window was cut before it was slid. -/
theorem stretched_stale : Reached (fun _ _ => True) stretchedWorld ∧
    ∃ s v index, stretchedWorld.spaces[0]? = some s ∧
      FlatView.build stretchedWorld.cells s.mappings s.size s.combine = .ok (v, index) ∧
      s.flat.readsAt 0x1060 = [] ∧
      v.readsAt 0x1060 = [⟨.ram ⟨1, 0x150⟩, 0x70, .rwx⟩] := by
  refine ⟨stretched_reached, ?_⟩
  have h : (stretchedWorld.spaces[0]?.any fun s =>
      (FlatView.build stretchedWorld.cells s.mappings s.size s.combine).toOption.any fun b =>
        s.flat.readsAt 0x1060 == [] && b.1.readsAt 0x1060 == [⟨.ram ⟨1, 0x150⟩, 0x70, .rwx⟩])
      = true := by
    decide
  obtain ⟨s, hs, h⟩ := (Option.any_eq_true _ _).mp h
  obtain ⟨b, hb, h⟩ := (Option.any_eq_true _ _).mp h
  simp only [Bool.and_eq_true, beq_iff_eq] at h
  refine ⟨s, b.1, b.2, hs, ?_, h.1, h.2⟩
  cases hbuild : FlatView.build stretchedWorld.cells s.mappings s.size s.combine with
  | error e => rw [hbuild] at hb; exact absurd hb (by simp [Except.toOption])
  | ok b' => rw [hbuild] at hb; cases hb; rfl

end Rsemu.Space
