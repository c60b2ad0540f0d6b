import Rsemu.Space.Rebase

/-!
# One cell, several views

A region handle can be mapped in more than one space, and the cell of an alias is the
node's, so it is shared by all of them. The cached offsets are not: every space has its
own leaves and its own index, and a rebase refreshes the leaves of the space it was
called on.

`Coherent` says that a leaf's cached offset is the sum of its cells. It is kept by
everything but a rebase that another space should have seen: `coherent_reached` is the
result for runs without one, and `twoSpaces_stale` is a run with one.
-/

namespace Rsemu.Space

open Word

/-- Some entry of the view depends on the alias's offset. -/
def FlatView.Feeds (id : AliasId) (v : FlatView) : Prop :=
  ∃ e ∈ v.entries, ∃ l ∈ e.leaves, id ∈ l.terms

/-- **A space whose cached offsets are what the cells say.** -/
structure Coherent (w : World) (s : AddressSpace) : Prop where
  index : s.index = FlatView.indexOf s.flat.entries
  /-- The cached offset is `fixed` plus the cells of `terms`. -/
  cached : ∀ e ∈ s.flat.entries, ∀ l ∈ e.leaves, l.recompute w.cells = l
  /-- No leaf adds a cell that no alias has. -/
  known : ∀ e ∈ s.flat.entries, ∀ l ∈ e.leaves, ∀ id ∈ l.terms, id < w.nextAlias

theorem mem_leaves {e : FlatEntry} {l : FlatLeaf} :
    l ∈ e.leaves ↔ ∃ m, (m, l) ∈ e.indexedLeaves := by
  unfold FlatEntry.leaves
  rw [List.mem_map]
  constructor
  · rintro ⟨p, hp, rfl⟩
    exact ⟨p.1, hp⟩
  · rintro ⟨m, hm⟩
    exact ⟨(m, l), hm, rfl⟩

variable {s : AddressSpace} {w : World}

theorem Coherent.congr {w' : World} (h : Coherent w s)
    (hc : ∀ id < w.nextAlias, s.flat.Feeds id → w'.cells id = w.cells id)
    (hn : w.nextAlias ≤ w'.nextAlias) : Coherent w' s where
  index := h.index
  known := fun e he l hl id hid => Nat.lt_of_lt_of_le (h.known e he l hl id hid) hn
  cached := by
    intro e he l hl
    have hsum := @sum_congr w.cells w'.cells l.terms
      (fun id hid => hc id (h.known e he l hl id hid) ⟨e, he, l, hl, hid⟩) l.fixed
    have hold := h.cached e he l hl
    unfold FlatLeaf.recompute at hold ⊢
    rw [hsum]
    exact hold

theorem coherent_built (hw : Sane w) (hok : ∀ m ∈ s.mappings, MapOk w m) (h : s.Reflattened w.cells) :
    Coherent w s := by
  obtain ⟨ps, hps, hflat, hindex⟩ := build_pieces h
  have hleaf : ∀ e ∈ s.flat.entries, ∀ l ∈ e.leaves,
      ∃ p ∈ ps, ∃ l' ∈ p.leaves, l = l'.intoLeaf w.cells := by
    intro e he l hl
    rw [hflat] at he
    obtain ⟨p, hp, rfl⟩ := List.mem_map.mp he
    obtain ⟨m, hm⟩ := mem_leaves.mp hl
    exact ⟨p, hp, mem_fromPiece hm⟩
  refine ⟨hindex, ?_, ?_⟩
  · intro e he l hl
    obtain ⟨_, _, l', _, rfl⟩ := hleaf e he l hl
    rfl
  · intro e he l hl id hid
    obtain ⟨p, hp, l', hl', rfl⟩ := hleaf e he l hl
    obtain ⟨m, hm, t, a, hwin, rfl⟩ := pieces_terms hps p hp l' hl' id hid
    exact hw.taken m.region (hok m hm).shared t a hwin

theorem coherent_sync (hw : Sane w) (hok : ∀ m ∈ s.mappings, MapOk w m) (h : Coherent w s) :
    Coherent w (s.sync w.cells) := by
  cases hd : s.dirty with
  | false =>
    have hsame : s.sync w.cells = s := by simp [AddressSpace.sync, hd]
    rw [hsame]
    exact h
  | true =>
    refine coherent_built hw (by rw [sync_mappings]; exact hok) ?_
    exact sync_reflattened (MapOk.mapped hw hok) fun hf => absurd (hd.symm.trans hf) (by simp)

theorem coherent_guard {ops : List GuardOp} (hw : Sane w) (hs : ∀ op ∈ ops, op.Sized)
    (hok : ∀ m ∈ s.mappings, MapOk w m) (h : Coherent w s) : Coherent w (w.guard s ops) := by
  have hrun := guard_induction (C := fun s => (∀ m ∈ s.mappings, MapOk w m) ∧ Coherent w s)
    (fun op hop s s' hc heq => ⟨guardOp_mapOk (hs op hop) hc.1 heq, ?_⟩) ⟨hok, h⟩
  · exact coherent_sync hw hrun.1 hrun.2
  · rcases guardOp_derived heq with ⟨hflat, hindex, _⟩ | ⟨d, _, rfl⟩
    · refine ⟨?_, ?_, ?_⟩
      · rw [hindex, hflat]
        exact hc.2.index
      · rw [hflat]
        exact hc.2.cached
      · rw [hflat]
        exact hc.2.known
    · exact coherent_sync hw (s := { s with dirty := d }) hc.1 ⟨hc.2.index, hc.2.cached, hc.2.known⟩

theorem coherent_rebase {id : AliasId} {cells' : Cells} (hc : ∀ id' ≠ id, cells' id' = w.cells id')
    (hix : s.flat.Feeds id → s.flat.Indexable) (h : Coherent w s) :
    Coherent { w with cells := cells' }
      { s with flat := s.flat.rebase cells' s.index id } := by
  by_cases hfeed : s.flat.Feeds id
  · have hrebase : s.flat.rebase cells' s.index id = s.flat.feed cells' id := by
      rw [h.index]
      exact rebase_eq (hix hfeed) cells' id
    rw [hrebase]
    -- every leaf of the fed view is an old one, recomputed if the alias feeds it
    have hleaf : ∀ e ∈ (s.flat.feed cells' id).entries, ∀ l ∈ e.leaves,
        ∃ e' ∈ s.flat.entries, ∃ l' ∈ e'.leaves,
          l = if id ∈ l'.terms then l'.recompute cells' else l' := by
      intro e he l hl
      obtain ⟨e', he', rfl⟩ := List.mem_map.mp he
      obtain ⟨m, hm⟩ := mem_leaves.mp hl
      rw [FlatEntry.mapLeaves_indexedLeaves] at hm
      obtain ⟨p, hp, heq⟩ := List.mem_map.mp hm
      cases heq
      exact ⟨e', he', p.2, mem_leaves.mpr ⟨p.1, hp⟩, rfl⟩
    refine ⟨?_, ?_, ?_⟩
    · show s.index = FlatView.indexOf (s.flat.feed cells' id).entries
      rw [indexOf_feed, h.index]
    · intro e he l hl
      obtain ⟨e', he', l', hl', rfl⟩ := hleaf e he l hl
      by_cases hid : id ∈ l'.terms
      · rw [if_pos hid]
        rfl
      · rw [if_neg hid]
        have hold := h.cached e' he' l' hl'
        have hsum := @sum_congr w.cells cells' l'.terms
          (fun id' hid' => hc id' fun heq => hid (heq ▸ hid')) l'.fixed
        unfold FlatLeaf.recompute at hold ⊢
        simp only [hsum]
        exact hold
    · intro e he l hl id' hid'
      obtain ⟨e', he', l', hl', rfl⟩ := hleaf e he l hl
      have hterms : (if id ∈ l'.terms then l'.recompute cells' else l').terms = l'.terms := by
        split <;> rfl
      exact h.known e' he' l' hl' id' (hterms ▸ hid')
  · have hnone : s.index id = [] := by
      rw [h.index]
      refine indexOf_eq_nil fun e he p hp hid => hfeed ⟨e, he, p.2, ?_, hid⟩
      exact mem_leaves.mpr ⟨p.1, hp⟩
    have hsame : s.flat.rebase cells' s.index id = s.flat := by
      unfold FlatView.rebase
      rw [hnone]
      rfl
    rw [hsame]
    refine h.congr (fun id' _ hf => hc id' ?_) (Nat.le_refl _)
    exact fun heq => hfeed (heq ▸ hf)

/--
What is asked of the rebases of a run: when the offset changes, no other space has a
leaf that adds the cell.
-/
def Seen (w : World) : Action → Prop
  | .rebase j h offset => ∀ r a, Slides w j h offset r → r.kind = .alias a →
      (∀ s, w.spaces[j]? = some s → s.flat.Feeds a.id → s.flat.Indexable) ∧
      (w.cells a.id = offset ∨
        ∀ (k : Nat) s, k ≠ j → w.spaces[k]? = some s → ¬ s.flat.Feeds a.id)
  | _ => True

theorem coherent_step {w' : World} {act : Action} {i : Nat} {s' : AddressSpace} (hw : Sane w)
    (hstep : Stepped w act w') (hsz : act.Sized) (hact : Seen w act)
    (hold : ∀ (i : Nat) s, w.spaces[i]? = some s → Coherent w s) (hs : w'.spaces[i]? = some s') :
    Coherent w' s' := by
  cases hstep with
  | refused => exact hold i s' hs
  | share r hmade =>
    have hs : w.spaces[i]? = some s' := hmade.spaces ▸ hs
    exact (hold i s' hs).congr (fun id hid _ => hmade.cells id hid) hmade.next
  | space name bits combine =>
    rcases getElem?_snoc hs with h | rfl
    · exact (hold i s' h).congr (fun _ _ _ => rfl) (Nat.le_refl _)
    · exact ⟨rfl, fun e he => absurd he (by simp [AddressSpace.new]),
        fun e he => absurd he (by simp [AddressSpace.new])⟩
  | guard j ops =>
    simp only [List.getElem?_modify] at hs
    obtain ⟨s, hget, rfl⟩ := Option.map_eq_some_iff.mp hs
    have hc : Coherent w (if j = i then w.guard s ops else s) := by
      split
      · exact coherent_guard hw hsz (hw.mapOk (List.mem_of_getElem? hget)) (hold i s hget)
      · exact hold i s hget
    exact hc.congr (fun _ _ _ => rfl) (Nat.le_refl _)
  | rebase hget hsl hr hk hfit hcells =>
    rename_i j h offset s r a cells'
    have hother : ∀ id ≠ a.id, cells' id = w.cells id := by
      intro id hne
      rw [hcells]
      exact if_neg hne
    obtain ⟨hix, halone⟩ := hact r a hsl hk
    rcases getElem?_set_some hs with ⟨rfl, rfl⟩ | ⟨hne, hs⟩
    · exact (coherent_rebase hother (hix s hget) (hold j s hget)).congr (fun _ _ _ => rfl)
        (Nat.le_refl _)
    · refine (hold i s' hs).congr (fun id _ hfeed => ?_) (Nat.le_refl _)
      by_cases hid : id = a.id
      · rcases halone with heq | hnone
        · subst hid
          rw [hcells, heq]
          exact if_pos rfl
        · exact absurd (hid ▸ hfeed) (hnone i s' (Ne.symm hne) hs)
      · exact hother id hid

/--
**Alias offsets stay coherent across spaces.** In every state of every run in which no
rebase goes unseen by a space that shows the alias, the cached offset of every leaf of
every space is `fixed` plus the sum of its cells.
-/
theorem coherent_reached {w : World} (h : Reached Seen w) :
    ∀ s ∈ w.spaces, ∀ e ∈ s.flat.entries, ∀ l ∈ e.leaves,
      l.offset = l.terms.foldl (fun v id => wrappingAdd 64 v (w.cells id)) l.fixed := by
  have hall : ∀ (i : Nat) s, w.spaces[i]? = some s → Coherent w s := by
    induction h with
    | empty => exact fun i s hs => absurd hs (by simp [World.empty])
    | step w act hr hsz hact ih =>
      have hw := sane_reached hr
      exact fun i s hs => coherent_step hw (stepped hw hsz) hsz hact ih hs
  intro s hs e he l hl
  obtain ⟨i, hi⟩ := List.mem_iff_getElem?.mp hs
  exact (congrArg FlatLeaf.offset ((hall i s hi).cached e he l hl)).symm

theorem bank_seen : Reached Seen (bankWorld.step (.rebase 0 1 0)) := by
  refine Reached.step _ _ (bank_reached (fun _ _ _ => trivial)
    (fun _ _ _ _ => trivial) fun _ _ _ => trivial) (show 0 < 2 ^ 64 by decide) ?_
  intro r a _ _
  refine ⟨fun s hs _ => bank_indexable hs, Or.inr fun k s hk hs => ?_⟩
  have hlen : bankWorld.spaces.length = 1 := by decide
  have := (List.getElem?_eq_some_iff.mp hs).1
  omega

theorem coherent_bank : ∃ s e l, s ∈ (bankWorld.step (.rebase 0 1 0)).spaces ∧
    e ∈ s.flat.entries ∧ l ∈ e.leaves ∧ l.terms = [1] ∧
    l.offset = l.terms.foldl
      (fun v id => wrappingAdd 64 v ((bankWorld.step (.rebase 0 1 0)).cells id)) l.fixed := by
  have h : ((bankWorld.step (.rebase 0 1 0)).spaces.any fun s => s.flat.entries.any fun e =>
      e.leaves.any fun l => l.terms == [1]) = true := by
    decide
  simp only [List.any_eq_true, beq_iff_eq] at h
  obtain ⟨s, hs, e, he, l, hl, hterms⟩ := h
  exact ⟨s, e, l, hs, he, hl, hterms, coherent_reached bank_seen s hs e he l hl⟩

/-- A window that two spaces map. -/
def twoWorld : World :=
  (World.empty.step (.share (.ram "prg" ⟨1, 0x200⟩) [])
    |>.step (.share (.window "bank" 0 0x100 0x80) [])
    |>.step (.space "cpu" 16 .priority)
    |>.step (.space "dma" 16 .priority)
    |>.step (.guard 0 [.mapWith ⟨1, 0x1000, 0, .rwx⟩])
    |>.step (.guard 1 [.mapWith ⟨1, 0x1000, 0, .rwx⟩])
    |>.step (.rebase 0 1 0))

theorem two_reached : Reached (fun _ _ => True) twoWorld := by
  have hmap : ∀ op ∈ [GuardOp.mapWith ⟨1, 0x1000, 0, .rwx⟩], op.Sized := by
    intro op hop
    obtain rfl := List.mem_singleton.mp hop
    exact show 0x1000 < 2 ^ 64 by decide
  refine Reached.step _ _ (Reached.step _ _ (Reached.step _ _ (Reached.step _ _ (Reached.step _ _
    (Reached.step _ _ (Reached.step _ _ Reached.empty ?_ trivial) ?_ trivial) ?_ trivial) ?_
    trivial) ?_ trivial) ?_ trivial) ?_ trivial
  · exact ⟨show 0x200 < 2 ^ 64 by decide, fun m hm => absurd hm (by simp)⟩
  · exact ⟨show 0x100 < 2 ^ 64 by decide, fun m hm => absurd hm (by simp)⟩
  · exact ⟨by decide, by decide⟩
  · exact ⟨by decide, by decide⟩
  · exact hmap
  · exact hmap
  · exact show 0 < 2 ^ 64 by decide

/-- The second space still reads the window where it was. -/
theorem twoSpaces_stale : Reached (fun _ _ => True) twoWorld ∧
    ∃ s t e l, twoWorld.spaces = [s, t] ∧ twoWorld.cells 1 = 0 ∧
      s.flat.readsAt 0x1000 = [⟨.ram ⟨1, 0x200⟩, 0, .rwx⟩] ∧
      t.flat.readsAt 0x1000 = [⟨.ram ⟨1, 0x200⟩, 0x100, .rwx⟩] ∧
      e ∈ t.flat.entries ∧ l ∈ e.leaves ∧
      l.offset ≠ l.terms.foldl (fun v id => wrappingAdd 64 v (twoWorld.cells id)) l.fixed := by
  refine ⟨two_reached, ?_⟩
  obtain ⟨s, t, hst⟩ : ∃ s t, twoWorld.spaces = [s, t] :=
    List.length_eq_two.mp (by decide)
  have hcpu : (twoWorld.spaces[0]?.all fun s =>
      s.flat.readsAt 0x1000 == [⟨.ram ⟨1, 0x200⟩, 0, .rwx⟩]) = true := by
    decide
  have hdma : (twoWorld.spaces[1]?.all fun t =>
      t.flat.readsAt 0x1000 == [⟨.ram ⟨1, 0x200⟩, 0x100, .rwx⟩] &&
        t.flat.entries.any fun e => e.leaves.any fun l =>
          l.offset != l.terms.foldl (fun v id => wrappingAdd 64 v (twoWorld.cells id)) l.fixed)
      = true := by
    decide
  rw [hst] at hcpu hdma
  have hs : s.flat.readsAt 0x1000 = [⟨.ram ⟨1, 0x200⟩, 0, .rwx⟩] := beq_iff_eq.mp hcpu
  obtain ⟨ht, h⟩ := (Bool.and_eq_true _ _).mp hdma
  simp only [List.any_eq_true, bne_iff_ne] at h
  obtain ⟨e, he, l, hl, hne⟩ := h
  exact ⟨s, t, e, l, hst, by decide, hs, beq_iff_eq.mp ht, he, hl, hne⟩

end Rsemu.Space
