import Mathlib.Data.List.TakeWhile
import Rsemu.Space.Decode

/-!
# The built view

What `FlatView::build` returns, address by address: the entries are in order, apart
and not empty, one covers an address exactly when the tree reaches a leaf there, and
the leaf a read or a write finds through it is the one the declarative decode names.

`build_decodes` is the whole of it, wherever no window is entered past the top of the
address range. A read is always right. A write is right where no pair of leaves is
stacked under a split, and only there unless one leaf is reached twice;
`build_misroutes_stacked` is a board where one is: a write-only chip in front of a
container that already sends reads and writes to different chips.
-/

namespace Rsemu.Space

open Word

def FlatLeaf.hitAt (rel : Nat) (l : FlatLeaf) : Hit := ⟨l.target, l.offsetOf rel, l.perms⟩

namespace FlatView

def entryAt (v : FlatView) (x : Nat) : Option FlatEntry := (v.find x).bind fun i => v.entries[i]?

def readsAt (v : FlatView) (x : Nat) : List Hit :=
  match v.entryAt x with
  | none => []
  | some e => e.readers.map (·.hitAt (x - e.start))

def writesAt (v : FlatView) (x : Nat) : List Hit :=
  match v.entryAt x with
  | none => []
  | some e => e.writers.map (·.hitAt (x - e.start))

/-- Entries in order: apart, none empty, and all below the limit. -/
structure Ordered (limit : Nat) (v : FlatView) : Prop where
  apart : v.entries.Pairwise fun e f => e.start + e.len ≤ f.start
  pos : ∀ e ∈ v.entries, 0 < e.len
  below : ∀ e ∈ v.entries, e.start + e.len ≤ limit

end FlatView

def rootOf (children : List (Mapping Region)) (limit : Nat) : Region :=
  Region.container "" limit children

theorem find_eq_some {limit x i : Nat} {v : FlatView} (h : v.Ordered limit)
    (hlim : limit < 2 ^ 64) :
    v.find x = some i ↔ ∃ e, v.entries[i]? = some e ∧ e.start ≤ x ∧ x < e.start + e.len := by
  have hstop : ∀ e ∈ v.entries, e.stop = e.start + e.len := by
    intro e he
    have := h.below e he
    exact wrappingAdd_of_lt (by omega)
  constructor
  · intro hf
    simp only [FlatView.find] at hf
    split at hf
    · cases hf
    · split at hf
      · cases hf
      · rename_i e he
        split at hf
        · rename_i hx
          cases hf
          rw [hstop e (List.mem_of_getElem? he)] at hx
          refine ⟨e, he, ?_, hx⟩
          -- it is one of those that were passed over
          have hmem : e ∈ v.entries.takeWhile fun e => e.start ≤ x := by
            have hpre := List.takeWhile_prefix (l := v.entries) fun e => decide (e.start ≤ x)
            have hlt : (v.entries.takeWhile fun e => decide (e.start ≤ x)).length - 1 <
                (v.entries.takeWhile fun e => decide (e.start ≤ x)).length := by omega
            have hget := hpre.getElem hlt
            rw [(List.getElem?_eq_some_iff.mp he).2] at hget
            exact hget ▸ List.getElem_mem hlt
          simpa using List.mem_takeWhile_imp hmem
        · cases hf
  · rintro ⟨e, he, hle, hlt⟩
    obtain ⟨hil, hie⟩ := List.getElem?_eq_some_iff.mp he
    have hsep : ∀ j k (hj : j < v.entries.length) (hk : k < v.entries.length), j < k →
        v.entries[j].start + v.entries[j].len ≤ v.entries[k].start :=
      fun j k hj hk hjk => List.pairwise_iff_getElem.mp h.apart j k hj hk hjk
    have htake : (v.entries.takeWhile fun e => e.start ≤ x) = v.entries.take (i + 1) := by
      conv_lhs => rw [← List.take_append_drop (i + 1) v.entries]
      rw [List.takeWhile_append_of_pos]
      · have hnil : (v.entries.drop (i + 1)).takeWhile (fun e => decide (e.start ≤ x)) = [] := by
          rw [List.takeWhile_eq_nil_iff]
          intro hl
          simp only [List.get_eq_getElem, List.getElem_drop, decide_eq_true_eq]
          have := hsep i (i + 1 + 0) hil (by simp at hl; omega) (by omega)
          rw [hie] at this
          omega
        rw [hnil, List.append_nil]
      · intro f hf
        obtain ⟨j, hj, rfl⟩ := List.getElem_of_mem hf
        rw [List.length_take] at hj
        simp only [List.getElem_take, decide_eq_true_eq]
        by_cases hji : j = i
        · subst hji
          rw [hie]
          exact hle
        · have := hsep j i (by omega) hil (by omega)
          rw [hie] at this
          omega
    simp only [FlatView.find, htake, List.length_take, Nat.min_eq_left hil]
    simp [he, hstop e (List.mem_of_getElem? he), hlt]

theorem intoLeaf_hitAt {cells : Cells} {l : LeafSpec} {n : Nat}
    (hstill : l.period ≠ 0 → l.terms = []) : (l.intoLeaf cells).hitAt n = (l.seen n).hit cells := by
  have hoff : (l.intoLeaf cells).offsetOf n = ((l.seen n).hit cells).offset := by
    unfold FlatLeaf.offsetOf LeafSpec.hit
    by_cases hper : l.period = 0
    · simp only [if_pos (show (l.intoLeaf cells).period = 0 from hper),
        if_pos (show (l.seen n).period = 0 from hper)]
      have hfix : (l.seen n).fixed = wrappingAdd 64 l.fixed n := if_pos hper
      rw [LeafSpec.offset_eq (hfix ▸ wrappingAdd_lt 64 _ _), hfix]
      have hmod := @LeafSpec.offset_mod cells l
      show (l.offset cells + n) % 2 ^ 64 = ((l.fixed + n) % 2 ^ 64 + (l.terms.map cells).sum) % 2 ^ 64
      rw [Nat.add_mod, hmod, ← Nat.add_mod, Nat.mod_add_mod]
      congr 1
      omega
    · simp only [if_neg (show ¬ (l.intoLeaf cells).period = 0 from hper),
        if_neg (show ¬ (l.seen n).period = 0 from hper)]
      have hfix : (l.seen n).fixed = wrappingAdd 64 l.fixed n % l.period := if_neg hper
      have hterms := hstill hper
      have hoff : (l.intoLeaf cells).offset = l.fixed := by
        simp [LeafSpec.intoLeaf, LeafSpec.offset, hterms]
      have hoff' : (l.seen n).offset cells = (l.seen n).fixed := by
        simp [LeafSpec.offset, LeafSpec.seen, hterms]
      rw [hoff, hoff', hfix]
      exact (Nat.mod_mod _ _).symm
  unfold FlatLeaf.hitAt
  rw [hoff]
  rfl

theorem map_filter_intoLeaf {cells : Cells} {l : LeafSpec} {n : Nat}
    (h : (l.intoLeaf cells).hitAt n = (l.seen n).hit cells) (want : Perms) :
    ([l.intoLeaf cells].filter (·.perms.contains want)).map (·.hitAt n) =
      ([l.seen n].filter (·.perms.contains want)).map (·.hit cells) := by
  have hperms : (l.intoLeaf cells).perms = (l.seen n).perms := rfl
  simp only [List.filter_cons, List.filter_nil, hperms]
  split
  · simp [h]
  · rfl

section Entry

variable {cells : Cells} {levels : Nat} {r : Region} {y n : Nat} {p : Perms} {q : Piece}

theorem fromPiece_start : (FlatEntry.fromPiece cells q).start = q.start := by
  unfold FlatEntry.fromPiece
  split <;> rfl

theorem fromPiece_len : (FlatEntry.fromPiece cells q).len = q.len := by
  unfold FlatEntry.fromPiece
  split <;> rfl

theorem fromPiece_hits (hf : Faithful cells levels r y p (q.toAnswer.seen n)) :
    (FlatEntry.fromPiece cells q).readers.map (·.hitAt n) =
        (q.toAnswer.seen n).readers.map (·.hit cells) ∧
      (FlatEntry.fromPiece cells q).writers.map (·.hitAt n) =
        (q.toAnswer.seen n).writers.map (·.hit cells) := by
  have hhit : ∀ l ∈ q.leaves, (l.intoLeaf cells).hitAt n = (l.seen n).hit cells := by
    intro l hl
    exact intoLeaf_hitAt (hf.still (l.seen n) (List.mem_map_of_mem hl))
  have hdir : (q.toAnswer.seen n).directed = q.directed := rfl
  rcases hf.plain with ⟨l, hl, hd⟩ | ⟨l, m, hl, hd, _, _⟩
  · rw [hdir] at hd
    obtain ⟨k, hk, hkl⟩ := List.map_eq_singleton_iff.mp hl
    have hent : FlatEntry.fromPiece cells q
        = ⟨q.start, q.len, .single (k.intoLeaf cells), none⟩ := by
      simp [FlatEntry.fromPiece, hk]
    have hk' := hhit k (by simp [hk])
    rw [← hkl] at hl
    constructor
    · simp only [hent, FlatEntry.readers, FlatEntry.members, Answer.readers, hl,
        List.take_succ_cons, List.take_zero]
      exact map_filter_intoLeaf hk' .read
    · simp only [hent, FlatEntry.writers, FlatEntry.members, Answer.writers, hdir, hd, hl,
        List.take_succ_cons, List.take_zero, Bool.false_eq_true, if_false]
      exact map_filter_intoLeaf hk' .write
  · rw [hdir] at hd
    obtain ⟨k, k', hk, hkl, hkm⟩ : ∃ k k', q.leaves = [k, k'] ∧ k.seen n = l ∧ k'.seen n = m := by
      simp only [Answer.seen] at hl
      rcases hq : q.leaves with _ | ⟨k, _ | ⟨k', _ | ⟨k'', ks⟩⟩⟩
      · exact absurd hl (by simp [hq])
      · exact absurd hl (by simp [hq])
      · simp only [hq, List.map_cons, List.map_nil, List.cons.injEq, and_true] at hl
        exact ⟨k, k', rfl, hl.1, hl.2⟩
      · exact absurd hl (by simp [hq])
    have hent : FlatEntry.fromPiece cells q
        = ⟨q.start, q.len, .single (k.intoLeaf cells), some (k'.intoLeaf cells)⟩ := by
      simp [FlatEntry.fromPiece, hk, hd]
    have hk1 := hhit k (by simp [hk])
    have hk2 := hhit k' (by simp [hk])
    rw [← hkl, ← hkm] at hl
    constructor
    · simp only [hent, FlatEntry.readers, FlatEntry.members, Answer.readers, hl,
        List.take_succ_cons, List.take_zero]
      exact map_filter_intoLeaf hk1 .read
    · simp only [hent, FlatEntry.writers, Answer.writers, hdir, hd, hl, if_true,
        List.drop_succ_cons, List.drop_zero]
      exact map_filter_intoLeaf hk2 .write

end Entry

theorem foldr_max_le {l : List Nat} {n : Nat} (h : ∀ a ∈ l, a ≤ n) : l.foldr max 0 ≤ n := by
  induction l with
  | nil => exact Nat.zero_le n
  | cons a l ih =>
    exact Nat.max_le.mpr ⟨h a (List.mem_cons_self ..),
      ih fun b hb => h b (List.mem_cons_of_mem _ hb)⟩

/-- The mappings a space holds: built regions, placed at 64-bit addresses, not nested too deeply. -/
structure Mapped (children : List (Mapping Region)) : Prop where
  built : ∀ m ∈ children, Built m.region
  base : ∀ m ∈ children, m.base < 2 ^ 64
  depth : ∀ m ∈ children, m.region.depth ≤ maxDepth

section Build

variable {cells : Cells} {children : List (Mapping Region)} {limit : Nat}
  {combine : CombinePolicy}

theorem Mapped.shape (h : Mapped children) (hlim : limit < 2 ^ 64) :
    Shape (rootOf children limit) :=
  (Built.container "" limit children .priority hlim h.base h.built).shape

theorem Mapped.depth_root (h : Mapped children) : (rootOf children limit).depth ≤ maxDepth + 1 := by
  have := @foldr_max_le (children.map (·.region.depth)) maxDepth (by
    intro a ha
    obtain ⟨m, hm, rfl⟩ := List.mem_map.mp ha
    exact h.depth m hm)
  show saturatingAdd 32 _ 1 ≤ maxDepth + 1
  unfold saturatingAdd
  omega

theorem build_ok (h : Mapped children) :
    ∃ v index, FlatView.build cells children limit combine = .ok (v, index) := by
  obtain ⟨ps, hps⟩ := @resolveChildren_ok (resolveRegion cells maxDepth) children limit 0 limit
    combine .rwx fun m hm off len p =>
      resolveRegion_ok (h.built m hm).shape (h.depth m hm) (by decide) off len p
  exact ⟨⟨ps.map (FlatEntry.fromPiece cells)⟩,
    FlatView.indexOf (ps.map (FlatEntry.fromPiece cells)),
    by simp only [FlatView.build, hps, bind, Except.bind]⟩

theorem build_pieces {v : FlatView} {index : RebaseIndex}
    (h : FlatView.build cells children limit combine = .ok (v, index)) :
    ∃ ps, resolveChildren (resolveRegion cells maxDepth) children limit 0 limit combine .rwx
        = .ok ps ∧ v = ⟨ps.map (FlatEntry.fromPiece cells)⟩ ∧ index = FlatView.indexOf v.entries := by
  simp only [FlatView.build, bind, Except.bind] at h
  split at h
  · exact absurd h (by simp)
  · rename_i ps hps
    simp only [Except.ok.injEq, Prod.mk.injEq] at h
    exact ⟨ps, hps, h.1.symm, by rw [← h.1, h.2]⟩

theorem build_point {ps : List Piece} (hm : Mapped children) (hlim : limit < 2 ^ 64)
    (h : resolveChildren (resolveRegion cells maxDepth) children limit 0 limit .priority .rwx
      = .ok ps) :
    Tiles limit ps ∧ ∀ x < limit, ¬ Wraps cells (rootOf children limit) 0 x →
      answerAt ps x = point cells (maxDepth + 1) (rootOf children limit) x .rwx := by
  have hres : ∀ m ∈ children, ResolvesTo cells (resolveRegion cells maxDepth)
      (point cells maxDepth) m.region :=
    fun m hmem => resolveRegion_point (hm.built m hmem).shape
  obtain ⟨htiles, hanswer⟩ := resolveChildren_point hlim (by omega) hres h
  refine ⟨htiles, fun x hx hflat => ?_⟩
  rw [hanswer x hx fun m hmem hcov hw => hflat (.child rfl hx hmem (Nat.zero_add x ▸ hcov)
    (Nat.zero_add x ▸ hw)), Nat.zero_add]
  have hin : ¬ (rootOf children limit).len ≤ x := Nat.not_le.mpr hx
  exact (if_neg hin).symm

theorem Tiles.ordered {ps : List Piece} (h : Tiles limit ps) :
    FlatView.Ordered limit ⟨ps.map (FlatEntry.fromPiece cells)⟩ := by
  refine ⟨List.pairwise_map.mpr (h.apart.imp fun {p q} hpq => ?_), ?_, ?_⟩
  · rw [fromPiece_start, fromPiece_len, fromPiece_start]
    exact hpq
  · intro e he
    obtain ⟨p, hp, rfl⟩ := List.mem_map.mp he
    rw [fromPiece_len]
    exact h.pos p hp
  · intro e he
    obtain ⟨p, hp, rfl⟩ := List.mem_map.mp he
    rw [fromPiece_len, fromPiece_start]
    exact h.below p hp

theorem entryAt_eq {ps : List Piece} (h : Tiles limit ps) (hlim : limit < 2 ^ 64) (x : Nat) :
    FlatView.entryAt ⟨ps.map (FlatEntry.fromPiece cells)⟩ x =
      (ps.find? (·.covers x)).map (FlatEntry.fromPiece cells) := by
  have hord := @Tiles.ordered cells limit ps h
  unfold FlatView.entryAt
  cases hf : FlatView.find ⟨ps.map (FlatEntry.fromPiece cells)⟩ x with
  | none =>
    cases hp : ps.find? (·.covers x) with
    | none => rfl
    | some p =>
      obtain ⟨i, hi⟩ := List.mem_iff_getElem?.mp (List.mem_of_find?_eq_some hp)
      have hcov := covers_iff.mp (List.find?_some hp)
      have : FlatView.find ⟨ps.map (FlatEntry.fromPiece cells)⟩ x = some i :=
        (find_eq_some hord hlim).mpr ⟨FlatEntry.fromPiece cells p, by simp [hi],
          by rw [fromPiece_start]; exact hcov.1,
          by rw [fromPiece_start, fromPiece_len]; exact hcov.2⟩
      rw [hf] at this
      exact absurd this (by simp)
  | some i =>
    obtain ⟨e, he, hle, hlt⟩ := (find_eq_some hord hlim).mp hf
    simp only [List.getElem?_map, Option.map_eq_some_iff] at he
    obtain ⟨p, hp, rfl⟩ := he
    rw [fromPiece_start] at hle hlt
    rw [fromPiece_len] at hlt
    have hcov := covers_iff.mpr ⟨hle, hlt⟩
    cases hq : ps.find? (·.covers x) with
    | none => exact absurd hcov (List.find?_eq_none.mp hq p (List.mem_of_getElem? hp))
    | some q =>
      have := h.unique p (List.mem_of_getElem? hp) q (List.mem_of_find?_eq_some hq) hcov
        (List.find?_some hq)
      simp [hp, this]

/--
**The built view is the declarative decode.** It is always built, and its entries are in
order, apart and not empty. Where no window is entered past the top of the address range,
an entry covers an address exactly when some path reaches a leaf there; a read finds the
leaf that decodes reads; and a write the leaf that decodes writes, unless a pair is stacked
under a split at that address, and then not, unless some leaf is reached twice.
-/
theorem build_decodes (hm : Mapped children) (hlim : limit < 2 ^ 64)
    (hprio : AllPriority (rootOf children limit)) :
    ∃ v index, FlatView.build cells children limit .priority = .ok (v, index) ∧
      v.Ordered limit ∧ ∀ x < limit, ¬ Wraps cells (rootOf children limit) 0 x →
        ((v.find x).isSome ↔ ∃ h, Reaches cells (rootOf children limit) x .rwx h) ∧
        Serves cells .read (rootOf children limit) x .rwx (v.readsAt x) ∧
        (¬ Stacked cells (maxDepth + 1) (rootOf children limit) x .rwx →
          Serves cells .write (rootOf children limit) x .rwx (v.writesAt x)) ∧
        (¬ Twice cells (rootOf children limit) x .rwx →
          Serves cells .write (rootOf children limit) x .rwx (v.writesAt x) →
          ¬ Stacked cells (maxDepth + 1) (rootOf children limit) x .rwx) := by
  obtain ⟨v, index, hb⟩ := @build_ok cells children limit .priority hm
  obtain ⟨ps, hps, rfl, _⟩ := build_pieces hb
  obtain ⟨htiles, hanswer⟩ := build_point hm hlim hps
  refine ⟨_, index, hb, htiles.ordered, fun x hx hflat => ?_⟩
  have hfa := @point_faithful cells (maxDepth + 1) (rootOf children limit) (hm.shape hlim) hprio
    hm.depth_root (by decide) x .rwx (by decide)
  rw [← hanswer x hx hflat] at hfa
  have hentry := @entryAt_eq cells limit ps htiles hlim x
  have hfind : (FlatView.find ⟨ps.map (FlatEntry.fromPiece cells)⟩ x).isSome ↔
      (ps.find? (·.covers x)).isSome := by
    rw [← @Option.isSome_map _ _ (FlatEntry.fromPiece cells), ← hentry]
    unfold FlatView.entryAt
    cases hf : FlatView.find ⟨ps.map (FlatEntry.fromPiece cells)⟩ x with
    | none => simp
    | some i =>
      obtain ⟨e, he, _⟩ := (find_eq_some (@Tiles.ordered cells limit ps htiles) hlim).mp hf
      simp only [Option.bind_some, he, Option.isSome_some]
  unfold answerAt at hfa
  cases hp : ps.find? (·.covers x) with
  | none =>
    -- nothing is mapped here
    rw [hp] at hfa hentry hfind
    simp only [FlatView.readsAt, FlatView.writesAt, hentry, Option.map_none]
    exact ⟨⟨fun h => absurd (hfind.mp h) (by simp), fun h => absurd h.choose_spec (hfa _)⟩,
      Or.inl ⟨rfl, fun h hr => absurd hr (hfa h)⟩,
      fun _ => Or.inl ⟨rfl, fun h hr => absurd hr (hfa h)⟩,
      fun _ _ hs => absurd hs.reaches.choose_spec (hfa _)⟩
  | some q =>
    rw [hp] at hfa hentry hfind
    have hfq : Faithful cells (maxDepth + 1) (rootOf children limit) x .rwx
      (q.toAnswer.seen (x - q.start)) := hfa
    obtain ⟨hr, hw⟩ := fromPiece_hits hfq
    simp only [FlatView.readsAt, FlatView.writesAt, hentry, Option.map_some, fromPiece_start,
      hr, hw]
    refine ⟨⟨fun _ => ?_, fun _ => hfind.mpr rfl⟩, hfq.read, hfq.write,
      fun htwice hserve hs => hfq.stray hs htwice hserve⟩
    rcases hfq.plain with ⟨l, hl, _⟩ | ⟨l, m, hl, _⟩
    · exact ⟨_, hfq.reach l (by simp [hl])⟩
    · exact ⟨_, hfq.reach l (by simp [hl])⟩

end Build

theorem Wraps.window_node {cells : Cells} {r : Region} {off y : Nat} (h : Wraps cells r off y) :
    ∃ s a, Sub s r ∧ s.kind = .alias a ∧ a.repeats = false := by
  induction h with
  | here hk hrep _ _ _ => exact ⟨_, _, .refl _, hk, hrep⟩
  | window hk _ _ _ _ ih =>
    obtain ⟨s, a, hs, h⟩ := ih
    exact ⟨s, a, .window hk hs, h⟩
  | child hk _ hm _ _ ih =>
    obtain ⟨s, a, hs, h⟩ := ih
    exact ⟨s, a, .child hk hm hs, h⟩

section Nodes

variable {s r : Region}

theorem sub_leaf {t : FlatTarget} (ht : leafTarget r = some t) (h : Sub s r) : s = r := by
  cases h <;> simp_all [leafTarget]

theorem sub_window {a : Alias Region} (hk : r.kind = .alias a) (h : Sub s r) :
    s = r ∨ Sub s a.target := by
  cases h <;> simp_all

theorem sub_container {children : List (Mapping Region)} {combine : CombinePolicy}
    (hk : r.kind = .container children combine) (h : Sub s r) :
    s = r ∨ ∃ m ∈ children, Sub s m.region := by
  cases h with
  | child hk' hm hs =>
    cases hk.symm.trans hk'
    exact Or.inr ⟨_, hm, hs⟩
  | _ => simp_all

end Nodes

def slotMappings : List (Mapping Region) :=
  [⟨⟨"work", 0x2000, .any, .alias ⟨Region.ram "ram" ⟨1, 0x800⟩, 1, false, true⟩, 2⟩, 0, 0, .rwx⟩,
    ⟨Region.rom "bank" ⟨2, 0x4000⟩ .ignore, 0x8000, 0, ⟨5⟩⟩,
    ⟨Region.ram "battery" ⟨3, 0x4000⟩, 0x8000, 0, .write⟩]

theorem slot_mapped : Mapped slotMappings := by
  refine ⟨fun m hm => ?_, fun m hm => ?_, fun m hm => ?_⟩
  all_goals
    simp only [slotMappings, List.mem_cons, List.not_mem_nil, or_false] at hm
    rcases hm with rfl | rfl | rfl
  · exact Built.mirror "work" (Region.ram "ram" ⟨1, 0x800⟩) 0x2000 1 _
      (Built.ram _ _ (by decide)) (by decide) rfl
  · exact Built.rom _ _ _ (by decide)
  · exact Built.ram _ _ (by decide)
  all_goals decide

theorem slot_nodes {s : Region} (h : Sub s (rootOf slotMappings 0x10000)) :
    s = rootOf slotMappings 0x10000 ∨ (∃ t, leafTarget s = some t) ∨
      ∃ a, s.kind = .alias a ∧ a.repeats = true := by
  rcases sub_container rfl h with rfl | ⟨m, hm, hs⟩
  · exact Or.inl rfl
  · simp only [slotMappings, List.mem_cons, List.not_mem_nil, or_false] at hm
    rcases hm with rfl | rfl | rfl
    · rcases sub_window rfl hs with rfl | hs
      · exact Or.inr (Or.inr ⟨_, rfl, rfl⟩)
      · rw [sub_leaf rfl hs]
        exact Or.inr (Or.inl ⟨_, rfl⟩)
    · rw [sub_leaf rfl hs]
      exact Or.inr (Or.inl ⟨_, rfl⟩)
    · rw [sub_leaf rfl hs]
      exact Or.inr (Or.inl ⟨_, rfl⟩)

theorem slot_priority : AllPriority (rootOf slotMappings 0x10000) := by
  intro s cs k hs hk
  rcases slot_nodes hs with rfl | ⟨t, ht⟩ | ⟨a, ha, _⟩
  · cases hk
    rfl
  · exact absurd ht (by simp [leafTarget, hk])
  · cases hk.symm.trans ha

theorem slot_flat (cells : Cells) (x : Nat) : ¬ Wraps cells (rootOf slotMappings 0x10000) 0 x := by
  intro h
  obtain ⟨s, a, hs, hk, hrep⟩ := h.window_node
  rcases slot_nodes hs with rfl | ⟨t, ht⟩ | ⟨b, hb, hbrep⟩
  · cases hk
  · exact absurd ht (by simp [leafTarget, hk])
  · rw [hk] at hb
    cases hb
    cases hrep.symm.trans hbrep

theorem slot_not_stacked (cells : Cells) (x : Nat) :
    ¬ Stacked cells (maxDepth + 1) (rootOf slotMappings 0x10000) x .rwx := by
  -- each chip is one leaf, for reads and for writes
  have hchild : ∀ c ∈ slotMappings.zipIdx, ∀ n y p,
      ¬ Paired cells n c.1.region y p ∧ ¬ Stacked cells n c.1.region y p := by
    rintro c hc (_ | n) y p
    · exact ⟨fun ⟨_, ha, _⟩ => (nomatch ha), fun h => (nomatch h)⟩
    have hm := fst_mem_of_zipIdx hc
    simp only [slotMappings, List.mem_cons, List.not_mem_nil, or_false] at hm
    rcases hm with hm | hm | hm
    all_goals rw [hm]
    · refine ⟨fun ⟨a, ha, hd⟩ => ?_, not_stacked_mirror rfl rfl⟩
      rw [point_mirror (t := .ram ⟨1, 0x800⟩) rfl rfl rfl] at ha
      split at ha <;> cases ha
      cases hd
    all_goals
      refine ⟨fun ⟨a, ha, hd⟩ => ?_, not_stacked_leaf rfl⟩
      rw [point_leaf rfl] at ha
      split at ha <;> cases ha
      cases hd
  intro h
  cases h with
  | window hk => cases hk
  | here hk _ hc hd _ hs =>
    cases hk
    exact hs.elim (hchild _ hc.mem _ _ _).1 (hchild _ hd.mem _ _ _).1
  | child hk _ hd hs =>
    cases hk
    exact (hchild _ hd.mem _ _ _).2 hs

/-- In the slot, a read and a write of one address go to the ROM and to the battery RAM. -/
theorem build_decodes_slot :
    ∃ v index, FlatView.build (fun _ => 0) slotMappings 0x10000 .priority = .ok (v, index) ∧
      v.Ordered 0x10000 ∧
      Serves (fun _ => 0) .read (rootOf slotMappings 0x10000) 0x8010 .rwx (v.readsAt 0x8010) ∧
      Serves (fun _ => 0) .write (rootOf slotMappings 0x10000) 0x8010 .rwx (v.writesAt 0x8010) := by
  obtain ⟨v, index, hb, hord, h⟩ := @build_decodes (fun _ => 0) slotMappings 0x10000 slot_mapped
    (by decide) slot_priority
  obtain ⟨_, hr, hw, _⟩ := h 0x8010 (by decide) (slot_flat _ _)
  exact ⟨v, index, hb, hord, hr, hw (slot_not_stacked _ _)⟩

def stackedMappings : List (Mapping Region) :=
  [⟨Region.container "aperture" 0x100
      [⟨Region.ram "reads" ⟨1, 0x100⟩, 0, 0, .read⟩, ⟨Region.ram "writes" ⟨2, 0x100⟩, 0, 0, .write⟩],
      0, 0, .rwx⟩,
    ⟨Region.ram "front" ⟨3, 0x100⟩, 0, 1, .write⟩]

theorem stacked_mapped : Mapped stackedMappings := by
  refine ⟨fun m hm => ?_, fun m hm => ?_, fun m hm => ?_⟩
  all_goals
    simp only [stackedMappings, List.mem_cons, List.not_mem_nil, or_false] at hm
    rcases hm with rfl | rfl
  · refine Built.container _ _ _ _ (by decide) (fun m hm => ?_) (fun m hm => ?_)
    all_goals
      simp only [List.mem_cons, List.not_mem_nil, or_false] at hm
      rcases hm with rfl | rfl
    all_goals first | decide | exact Built.ram _ _ (by decide)
  · exact Built.ram _ _ (by decide)
  all_goals decide

theorem stacked_nodes {s : Region} (h : Sub s (rootOf stackedMappings 0x1000)) :
    (∃ cs, s.kind = .container cs .priority) ∨ ∃ t, leafTarget s = some t := by
  rcases sub_container rfl h with rfl | ⟨m, hm, hs⟩
  · exact Or.inl ⟨_, rfl⟩
  · simp only [stackedMappings, List.mem_cons, List.not_mem_nil, or_false] at hm
    rcases hm with rfl | rfl
    · rcases sub_container rfl hs with rfl | ⟨m, hm, hs⟩
      · exact Or.inl ⟨_, rfl⟩
      · simp only [List.mem_cons, List.not_mem_nil, or_false] at hm
        rcases hm with rfl | rfl
        · rw [sub_leaf rfl hs]
          exact Or.inr ⟨_, rfl⟩
        · rw [sub_leaf rfl hs]
          exact Or.inr ⟨_, rfl⟩
    · rw [sub_leaf rfl hs]
      exact Or.inr ⟨_, rfl⟩

theorem stacked_decodes :
    Decodes (fun _ => 0) .write (rootOf stackedMappings 0x1000) 0x10 .rwx
      ⟨.ram ⟨3, 0x100⟩, 0x10, .write⟩ := by
  have hleaf : Reaches (fun _ => 0) (Region.ram "front" ⟨3, 0x100⟩) 0x10 .write
      ⟨.ram ⟨3, 0x100⟩, 0x10, .write⟩ := Reaches.leaf rfl (by decide)
  have hwins : Wins (fun _ => 0) .write stackedMappings 0x10 .rwx
      (⟨Region.ram "front" ⟨3, 0x100⟩, 0, 1, .write⟩, 1) := by
    refine ⟨by simp [stackedMappings], ⟨⟨by decide, by decide⟩, _, hleaf, by decide⟩, ?_⟩
    intro d hd hout
    simp only [stackedMappings, List.zipIdx_cons, List.zipIdx_nil, List.mem_cons,
      List.not_mem_nil, or_false] at hd
    rcases hd with rfl | rfl <;> simp [Outranks] at hout
  exact Decodes.child rfl (by decide) hwins (Decodes.leaf rfl (by decide) (by decide))

/-- **The flattener sends it to the chip behind instead.** -/
theorem build_misroutes_stacked :
    Mapped stackedMappings ∧ AllPriority (rootOf stackedMappings 0x1000) ∧
      ¬ Wraps (fun _ => 0) (rootOf stackedMappings 0x1000) 0 0x10 ∧
      ∃ v index, FlatView.build (fun _ => 0) stackedMappings 0x1000 .priority = .ok (v, index) ∧
        v.writesAt 0x10 = [⟨.ram ⟨2, 0x100⟩, 0x10, .write⟩] ∧
        ¬ Serves (fun _ => 0) .write (rootOf stackedMappings 0x1000) 0x10 .rwx (v.writesAt 0x10) := by
  refine ⟨stacked_mapped, fun s cs k hs hk => ?_, fun h => ?_, ?_⟩
  · rcases stacked_nodes hs with ⟨cs', hk'⟩ | ⟨t, ht⟩
    · rw [hk] at hk'
      cases hk'
      rfl
    · exact absurd ht (by simp [leafTarget, hk])
  · obtain ⟨s, a, hs, hk, _⟩ := h.window_node
    rcases stacked_nodes hs with ⟨cs', hk'⟩ | ⟨t, ht⟩
    · exact absurd (hk.symm.trans hk') (by simp)
    · exact absurd ht (by simp [leafTarget, hk])
  · obtain ⟨v, index, hb⟩ := @build_ok (fun _ => 0) stackedMappings 0x1000 .priority stacked_mapped
    have heval : (FlatView.build (fun _ => 0) stackedMappings 0x1000 .priority).toOption.map
        (fun p => p.1.writesAt 0x10) = some [⟨.ram ⟨2, 0x100⟩, 0x10, .write⟩] := by
      decide +kernel
    rw [hb] at heval
    have hw : v.writesAt 0x10 = [⟨.ram ⟨2, 0x100⟩, 0x10, .write⟩] := Option.some.inj heval
    refine ⟨v, index, hb, hw, fun hserve => ?_⟩
    rw [hw] at hserve
    rcases hserve with ⟨hnil, _⟩ | ⟨h, heq, hd⟩
    · exact absurd hnil (by simp)
    · have := hd.unique stacked_decodes
      rw [this] at heq
      exact absurd heq (by decide)

end Rsemu.Space
