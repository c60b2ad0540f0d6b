import Rsemu.Space.Point

/-!
# The declarative decode

What an address *means* in a region tree, said without flattening: a path of
mappings and windows leads from the root to a leaf, each leaf reached at some offset
and on some terms; a read is answered by the leaf that the highest-priority child
leads to among those that lead to a readable one, at every container on the way; a
write independently. `Reaches` is the paths and `Decodes` the choice.

The flattener agrees, with one exception. Where the child that answers reads is not
the one that answers writes, it pairs the two, but only if each is a single leaf. If
one of them is such a pair already (`Paired`), the child that answers reads is kept
whole instead, and the write goes to a leaf of that child or to none. `Stacked` is that
shape; `point_faithful` says what a container's decision is otherwise, and that it is
wrong there unless the same leaf is reached twice; `build_decodes` is about the built
view.
-/

namespace Rsemu.Space

open Word

/-- A leaf reached: which memory or device, where in it, and on what terms. -/
structure Hit where
  target : FlatTarget
  offset : Nat
  perms : Perms
  deriving DecidableEq

/-- **Some path leads from offset `y` of the region to the leaf.** -/
inductive Reaches (cells : Cells) : Region → Nat → Perms → Hit → Prop where
  | leaf {r : Region} {y : Nat} {p : Perms} {t : FlatTarget} :
      leafTarget r = some t → y < r.len → Reaches cells r y p ⟨t, y, p⟩
  | mirror {r : Region} {a : Alias Region} {y : Nat} {p : Perms} {t : FlatTarget} :
      r.kind = .alias a → a.repeats = true → leafTarget a.target = some t → y < r.len →
      Reaches cells r y p ⟨t, y % a.target.len, p⟩
  | window {r : Region} {a : Alias Region} {y : Nat} {p : Perms} {h : Hit} :
      r.kind = .alias a → a.repeats = false → y < r.len →
      Reaches cells a.target (cells a.id + y) p h → Reaches cells r y p h
  | child {r : Region} {children : List (Mapping Region)} {combine : CombinePolicy}
      {m : Mapping Region} {y : Nat} {p : Perms} {h : Hit} :
      r.kind = .container children combine → y < r.len → m ∈ children → m.Covers y →
      Reaches cells m.region (y - m.base) (p.intersect m.perms) h → Reaches cells r y p h

/-- `d` is consulted before `c`. -/
def Outranks (d c : Mapping Region × Nat) : Prop :=
  c.1.priority < d.1.priority ∨ d.1.priority = c.1.priority ∧ c.2 < d.2

/-- The child leads at `y` to a leaf that permits `want`. -/
def ReachesFor (cells : Cells) (want : Perms) (y : Nat) (p : Perms)
    (c : Mapping Region × Nat) : Prop :=
  c.1.Covers y ∧ ∃ h, Reaches cells c.1.region (y - c.1.base) (p.intersect c.1.perms) h ∧
    h.perms.contains want = true

/-- **The child that answers `want` at `y`**: it leads to a leaf that permits it, and none that is
consulted before it does. -/
structure Wins (cells : Cells) (want : Perms) (children : List (Mapping Region)) (y : Nat)
    (p : Perms) (c : Mapping Region × Nat) : Prop where
  mem : c ∈ children.zipIdx
  reaches : ReachesFor cells want y p c
  first : ∀ d ∈ children.zipIdx, Outranks d c → ¬ ReachesFor cells want y p d

/-- **The leaf that answers `want`**: the winner's, at every container on the way. -/
inductive Decodes (cells : Cells) (want : Perms) : Region → Nat → Perms → Hit → Prop where
  | leaf {r : Region} {y : Nat} {p : Perms} {t : FlatTarget} :
      leafTarget r = some t → y < r.len → p.contains want = true →
      Decodes cells want r y p ⟨t, y, p⟩
  | mirror {r : Region} {a : Alias Region} {y : Nat} {p : Perms} {t : FlatTarget} :
      r.kind = .alias a → a.repeats = true → leafTarget a.target = some t → y < r.len →
      p.contains want = true → Decodes cells want r y p ⟨t, y % a.target.len, p⟩
  | window {r : Region} {a : Alias Region} {y : Nat} {p : Perms} {h : Hit} :
      r.kind = .alias a → a.repeats = false → y < r.len →
      Decodes cells want a.target (cells a.id + y) p h → Decodes cells want r y p h
  | child {r : Region} {children : List (Mapping Region)} {combine : CombinePolicy}
      {c : Mapping Region × Nat} {y : Nat} {p : Perms} {h : Hit} :
      r.kind = .container children combine → y < r.len → Wins cells want children y p c →
      Decodes cells want c.1.region (y - c.1.base) (p.intersect c.1.perms) h →
      Decodes cells want r y p h

/-- What the flattener has at `y` is a pair of leaves, one for reads and one for writes. -/
def Paired (cells : Cells) (levels : Nat) (r : Region) (y : Nat) (p : Perms) : Prop :=
  ∃ a, point cells levels r y p = some a ∧ a.directed = true

/--
**A pair under a split.** At some container that the write decode passes through, the children
that answer reads and writes differ, and what one of them has there is a pair already.
-/
inductive Stacked (cells : Cells) : Nat → Region → Nat → Perms → Prop where
  | window {n : Nat} {r : Region} {a : Alias Region} {y : Nat} {p : Perms} :
      r.kind = .alias a → a.repeats = false → y < r.len →
      Stacked cells n a.target (cells a.id + y) p → Stacked cells (n + 1) r y p
  | here {n : Nat} {r : Region} {children : List (Mapping Region)} {combine : CombinePolicy}
      {c d : Mapping Region × Nat} {y : Nat} {p : Perms} :
      r.kind = .container children combine → y < r.len → Wins cells .read children y p c →
      Wins cells .write children y p d → c ≠ d →
      (Paired cells n c.1.region (y - c.1.base) (p.intersect c.1.perms) ∨
        Paired cells n d.1.region (y - d.1.base) (p.intersect d.1.perms)) →
      Stacked cells (n + 1) r y p
  | child {n : Nat} {r : Region} {children : List (Mapping Region)} {combine : CombinePolicy}
      {d : Mapping Region × Nat} {y : Nat} {p : Perms} :
      r.kind = .container children combine → y < r.len → Wins cells .write children y p d →
      Stacked cells n d.1.region (y - d.1.base) (p.intersect d.1.perms) →
      Stacked cells (n + 1) r y p

/-- **Some leaf is reached twice**, through two children of one container, on the same terms. -/
inductive Twice (cells : Cells) : Region → Nat → Perms → Prop where
  | window {r : Region} {a : Alias Region} {y : Nat} {p : Perms} :
      r.kind = .alias a → a.repeats = false → y < r.len →
      Twice cells a.target (cells a.id + y) p → Twice cells r y p
  | here {r : Region} {children : List (Mapping Region)} {combine : CombinePolicy}
      {c d : Mapping Region × Nat} {y : Nat} {p : Perms} {h : Hit} :
      r.kind = .container children combine → y < r.len → c ∈ children.zipIdx →
      d ∈ children.zipIdx → c ≠ d → c.1.Covers y → d.1.Covers y →
      Reaches cells c.1.region (y - c.1.base) (p.intersect c.1.perms) h →
      Reaches cells d.1.region (y - d.1.base) (p.intersect d.1.perms) h → Twice cells r y p
  | child {r : Region} {children : List (Mapping Region)} {combine : CombinePolicy}
      {c : Mapping Region × Nat} {y : Nat} {p : Perms} :
      r.kind = .container children combine → y < r.len → c ∈ children.zipIdx → c.1.Covers y →
      Twice cells c.1.region (y - c.1.base) (p.intersect c.1.perms) → Twice cells r y p

/-- Every container of the tree goes by priority. -/
def AllPriority (r : Region) : Prop :=
  ∀ s children combine, Sub s r → s.kind = .container children combine → combine = .priority

theorem AllPriority.target {r : Region} {a : Alias Region} (h : AllPriority r)
    (hk : r.kind = .alias a) : AllPriority a.target :=
  fun s cs k hs => h s cs k (Sub.window hk hs)

theorem AllPriority.child {r : Region} {children : List (Mapping Region)}
    {combine : CombinePolicy} {m : Mapping Region} (h : AllPriority r)
    (hk : r.kind = .container children combine) (hm : m ∈ children) : AllPriority m.region :=
  fun s cs k hs => h s cs k (Sub.child hk hm hs)

/-! ## What a region of each kind leads to -/

section Kinds

variable {cells : Cells} {want : Perms} {n : Nat} {r : Region} {w : Alias Region}
  {children : List (Mapping Region)} {combine : CombinePolicy} {y : Nat} {p : Perms} {h : Hit}
  {t : FlatTarget}

theorem eq_of_reaches_leaf (ht : leafTarget r = some t) (hr : Reaches cells r y p h) :
    h = ⟨t, y, p⟩ := by
  cases hr <;> simp_all [leafTarget]

theorem eq_of_reaches_mirror (hk : r.kind = .alias w) (hrep : w.repeats = true)
    (ht : leafTarget w.target = some t) (hr : Reaches cells r y p h) :
    h = ⟨t, y % w.target.len, p⟩ := by
  cases hr <;> simp_all [leafTarget]

theorem reaches_window_iff (hk : r.kind = .alias w) (hrep : w.repeats = false) (hy : y < r.len) :
    Reaches cells r y p h ↔ Reaches cells w.target (cells w.id + y) p h := by
  refine ⟨fun hr => ?_, .window hk hrep hy⟩
  cases hr <;> simp_all [leafTarget]

theorem decodes_window_iff (hk : r.kind = .alias w) (hrep : w.repeats = false) (hy : y < r.len) :
    Decodes cells want r y p h ↔ Decodes cells want w.target (cells w.id + y) p h := by
  refine ⟨fun hd => ?_, .window hk hrep hy⟩
  cases hd <;> simp_all [leafTarget]

theorem child_of_reaches (hk : r.kind = .container children combine) (hr : Reaches cells r y p h) :
    ∃ m ∈ children, m.Covers y ∧ Reaches cells m.region (y - m.base) (p.intersect m.perms) h := by
  cases hr with
  | child hk' _ hm hcov hr =>
    cases hk.symm.trans hk'
    exact ⟨_, hm, hcov, hr⟩
  | _ => simp_all [leafTarget]

theorem winner_of_decodes (hk : r.kind = .container children combine)
    (hd : Decodes cells want r y p h) : ∃ c, Wins cells want children y p c ∧
      Decodes cells want c.1.region (y - c.1.base) (p.intersect c.1.perms) h := by
  cases hd with
  | child hk' _ hw hd =>
    cases hk.symm.trans hk'
    exact ⟨_, hw, hd⟩
  | _ => simp_all [leafTarget]

theorem not_stacked_leaf (ht : leafTarget r = some t) : ¬ Stacked cells n r y p := by
  intro hs
  cases hs <;> simp_all [leafTarget]

theorem not_stacked_mirror (hk : r.kind = .alias w) (hrep : w.repeats = true) :
    ¬ Stacked cells n r y p := by
  intro hs
  cases hs <;> simp_all

theorem stacked_window (hk : r.kind = .alias w) (hs : Stacked cells (n + 1) r y p) :
    Stacked cells n w.target (cells w.id + y) p := by
  cases hs <;> simp_all

theorem Reaches.lt_len (hr : Reaches cells r y p h) : y < r.len := by
  cases hr <;> assumption

end Kinds

/-! ## Winners -/

section Winners

variable {cells : Cells} {want : Perms} {children : List (Mapping Region)} {y : Nat} {p : Perms}
  {c d : Mapping Region × Nat}

theorem fst_mem_of_zipIdx (h : c ∈ children.zipIdx) : c.1 ∈ children := by
  rw [List.mem_zipIdx_iff_getElem?] at h
  exact List.mem_of_getElem? h

theorem exists_zipIdx_of_mem {m : Mapping Region} (h : m ∈ children) :
    ∃ i, (m, i) ∈ children.zipIdx := by
  obtain ⟨i, hi⟩ := List.mem_iff_getElem?.mp h
  exact ⟨i, List.mk_mem_zipIdx_iff_getElem?.mpr hi⟩

theorem outranks_total (hc : c ∈ children.zipIdx) (hd : d ∈ children.zipIdx) :
    Outranks c d ∨ c = d ∨ Outranks d c := by
  rcases Nat.lt_trichotomy c.2 d.2 with h | h | h
  · unfold Outranks
    omega
  · exact Or.inr (Or.inl (zipIdx_inj hc hd h))
  · unfold Outranks
    omega

theorem Wins.unique (hc : Wins cells want children y p c) (hd : Wins cells want children y p d) :
    c = d := by
  rcases outranks_total hc.mem hd.mem with h | h | h
  · exact absurd hc.reaches (hd.first c hc.mem h)
  · exact h
  · exact absurd hd.reaches (hc.first d hd.mem h)

theorem find?_ranked {q : Mapping Region × Nat → Bool}
    (h : (rankedChildren children).find? q = some c) :
    c ∈ children.zipIdx ∧ q c = true ∧ ∀ d ∈ children.zipIdx, Outranks d c → q d = false := by
  obtain ⟨hq, before, after, heq, hbefore⟩ := List.find?_eq_some_iff_append.mp h
  have hsort := rankedChildren_sorted children
  refine ⟨mem_rankedChildren.mp (heq ▸ by simp), hq, fun d hd hdc => ?_⟩
  have hd' := mem_rankedChildren.mpr hd
  rw [heq] at hd' hsort
  obtain ⟨_, hsort, _⟩ := List.pairwise_append.mp hsort
  rcases List.mem_append.mp hd' with hd' | hd'
  · simpa using hbefore d hd'
  · -- from the found one on, everything is outranked by it
    unfold Outranks at hdc
    rcases List.mem_cons.mp hd' with rfl | hd'
    · omega
    · have := (List.pairwise_cons.mp hsort).1 d hd'
      omega

theorem exists_wins (h : ∃ c ∈ children.zipIdx, ReachesFor cells want y p c) :
    ∃ c, Wins cells want children y p c := by
  classical
  obtain ⟨c, hc, hr⟩ := h
  cases hf : (rankedChildren children).find? fun d => ReachesFor cells want y p d with
  | none =>
    have := List.find?_eq_none.mp hf c (mem_rankedChildren.mpr hc)
    exact absurd hr (by simpa using this)
  | some d =>
    obtain ⟨hd, hq, hfirst⟩ := find?_ranked hf
    exact ⟨d, hd, by simpa using hq, fun e he heo => by simpa using hfirst e he heo⟩

theorem Wins.reaches_region {r : Region} {combine : CombinePolicy}
    (hk : r.kind = .container children combine) (hy : y < r.len)
    (hw : Wins cells want children y p c) :
    ∃ h, Reaches cells r y p h ∧ h.perms.contains want = true := by
  obtain ⟨hcov, h, hr, hp⟩ := hw.reaches
  exact ⟨h, Reaches.child hk hy (fst_mem_of_zipIdx hw.mem) hcov hr, hp⟩

end Winners

theorem exists_wins_of_reaches {cells : Cells} {want : Perms} {r : Region} {y : Nat} {p : Perms}
    {children : List (Mapping Region)} {combine : CombinePolicy} {h : Hit}
    (hk : r.kind = .container children combine) (hr : Reaches cells r y p h)
    (hp : h.perms.contains want = true) : ∃ c, Wins cells want children y p c := by
  obtain ⟨m, hm, hcov, hr⟩ := child_of_reaches hk hr
  obtain ⟨i, hi⟩ := exists_zipIdx_of_mem hm
  exact exists_wins ⟨_, hi, hcov, _, hr, hp⟩

theorem Decodes.reaches {cells : Cells} {want : Perms} {r : Region} {y : Nat} {p : Perms} {h : Hit}
    (hd : Decodes cells want r y p h) : Reaches cells r y p h := by
  induction hd with
  | leaf ht hy _ => exact Reaches.leaf ht hy
  | mirror hk hrep ht hy _ => exact Reaches.mirror hk hrep ht hy
  | window hk hrep hy _ ih => exact Reaches.window hk hrep hy ih
  | child hk hy hw _ ih =>
    exact Reaches.child hk hy (fst_mem_of_zipIdx hw.mem) hw.reaches.1 ih

theorem Decodes.unique {cells : Cells} {want : Perms} {r : Region} {y : Nat} {p : Perms}
    {h h' : Hit} (hd : Decodes cells want r y p h) (hd' : Decodes cells want r y p h') :
    h = h' := by
  induction hd with
  | leaf ht => exact (eq_of_reaches_leaf ht hd'.reaches).symm
  | mirror hk hrep ht => exact (eq_of_reaches_mirror hk hrep ht hd'.reaches).symm
  | window hk hrep hy _ ih => exact ih ((decodes_window_iff hk hrep hy).mp hd')
  | child hk hy hw _ ih =>
    obtain ⟨c, hw', hd'⟩ := winner_of_decodes hk hd'
    cases hw.unique hw'
    exact ih hd'

/-! ## What a container's decision owes -/

def LeafSpec.hit (cells : Cells) (l : LeafSpec) : Hit :=
  ⟨l.target, if l.period = 0 then l.offset cells else l.offset cells % l.period, l.perms⟩

def Answer.readers (a : Answer) : List LeafSpec :=
  (a.leaves.take 1).filter (·.perms.contains .read)

def Answer.writers (a : Answer) : List LeafSpec :=
  (if a.directed then a.leaves.drop 1 else a.leaves.take 1).filter (·.perms.contains .write)

/-- **The hits are what the decode of `want` says**: one leaf, or none because none permits it. -/
def Serves (cells : Cells) (want : Perms) (r : Region) (y : Nat) (p : Perms)
    (hits : List Hit) : Prop :=
  (hits = [] ∧ ∀ h, Reaches cells r y p h → h.perms.contains want = false) ∨
    ∃ h, hits = [h] ∧ Decodes cells want r y p h

/-- One leaf, or a read side and a write side. -/
def Answer.Plain (a : Answer) : Prop :=
  (∃ l, a.leaves = [l] ∧ a.directed = false) ∨
    ∃ l m, a.leaves = [l, m] ∧ a.directed = true ∧ l.perms.contains .read = true ∧
      m.perms.contains .write = true

/-- **What an answer owes the tree it is the answer of**, with so many levels left. -/
structure Faithful (cells : Cells) (n : Nat) (r : Region) (y : Nat) (p : Perms) (a : Answer) :
    Prop where
  plain : a.Plain
  /-- Offsets are 64-bit values. -/
  bounded : ∀ l ∈ a.leaves, l.fixed < 2 ^ 64
  /-- A repeating window does not slide. -/
  still : ∀ l ∈ a.leaves, l.period ≠ 0 → l.terms = []
  /-- A region that resolves to a leaf does not repeat. -/
  once : r.resolvesToLeaf = true → ∀ l ∈ a.leaves, l.period = 0
  reach : ∀ l ∈ a.leaves, Reaches cells r y p (l.hit cells)
  read : Serves cells .read r y p (a.readers.map (·.hit cells))
  write : ¬ Stacked cells n r y p → Serves cells .write r y p (a.writers.map (·.hit cells))
  /-- A stacked pair does send a write astray. -/
  stray : Stacked cells n r y p → ¬ Twice cells r y p →
    ¬ Serves cells .write r y p (a.writers.map (·.hit cells))

section Faithful

variable {cells : Cells} {n : Nat} {r : Region} {y : Nat} {p : Perms} {a : Answer}

theorem Faithful.reaches_of_answers (h : Faithful cells n r y p a) {want : Perms}
    (ha : a.answers want = true) : ∃ h, Reaches cells r y p h ∧ h.perms.contains want = true := by
  obtain ⟨l, hl, hp⟩ := List.any_eq_true.mp ha
  exact ⟨l.hit cells, h.reach l hl, hp⟩

theorem answers_of_mem {l : LeafSpec} {want : Perms} (hl : l ∈ a.leaves)
    (hp : l.perms.contains want = true) : a.answers want = true :=
  List.any_eq_true.mpr ⟨l, hl, hp⟩

theorem answers_of_serves {want : Perms} {ls : List LeafSpec} (hls : ∀ l ∈ ls, l ∈ a.leaves)
    (h : Serves cells want r y p ((ls.filter (·.perms.contains want)).map (·.hit cells)))
    (hr : ∃ h, Reaches cells r y p h ∧ h.perms.contains want = true) : a.answers want = true := by
  obtain ⟨hit, hreach, hp⟩ := hr
  rcases h with ⟨_, hnone⟩ | ⟨hit', heq, _⟩
  · exact absurd (hnone hit hreach) (by simp [hp])
  · obtain ⟨l, hl, _⟩ := List.mem_map.mp (heq ▸ List.mem_singleton_self hit')
    obtain ⟨hl, hp'⟩ := List.mem_filter.mp hl
    exact answers_of_mem (hls l hl) hp'

theorem mem_of_mem_readers {l : LeafSpec} (h : l ∈ a.leaves.take 1) : l ∈ a.leaves :=
  List.mem_of_mem_take h

theorem mem_of_mem_writers {l : LeafSpec}
    (h : l ∈ if a.directed then a.leaves.drop 1 else a.leaves.take 1) : l ∈ a.leaves := by
  split at h
  · exact List.mem_of_mem_drop h
  · exact List.mem_of_mem_take h

end Faithful

/-! ## One container's decision -/

theorem findIdx_filterMap_eq_iff {α β : Type} {f : α → Option β} {p q : β → Bool} {l : List α}
    {c d : α} (hnd : l.Nodup) (hc : l.find? (fun x => (f x).any p) = some c)
    (hd : l.find? (fun x => (f x).any q) = some d) :
    (l.filterMap f).findIdx p = (l.filterMap f).findIdx q ↔ c = d := by
  induction l with
  | nil => cases hc
  | cons x l ih =>
    obtain ⟨hx, hnd⟩ := List.nodup_cons.mp hnd
    cases hf : f x with
    | none =>
      simp only [List.find?_cons, hf, Option.any_none] at hc hd
      rw [List.filterMap_cons_none hf]
      exact ih hnd hc hd
    | some a =>
      simp only [List.find?_cons, hf, Option.any_some] at hc hd
      simp only [List.filterMap_cons_some hf, List.findIdx_cons]
      cases hp : p a <;> cases hq : q a <;> simp only [hp, hq, cond_true, cond_false] at hc hd ⊢
      · rw [Nat.add_right_cancel_iff]
        exact ih hnd hc hd
      · cases hd
        exact ⟨nofun, fun h => absurd (h ▸ List.mem_of_find?_eq_some hc) hx⟩
      · cases hc
        exact ⟨nofun, fun h => absurd (h ▸ List.mem_of_find?_eq_some hd) hx⟩
      · cases hc
        cases hd
        simp

/-- Each child that answers is faithful to its own tree, and one that does not leads nowhere. -/
structure ChildrenFaithful (cells : Cells) (n : Nat) (children : List (Mapping Region)) (y : Nat)
    (p : Perms) (f : Mapping Region × Nat → Option Answer) : Prop where
  here : ∀ c ∈ children.zipIdx, ∀ a, f c = some a →
    point cells n c.1.region (y - c.1.base) (p.intersect c.1.perms) = some a
  some : ∀ c ∈ children.zipIdx, ∀ a, f c = some a → c.1.Covers y ∧
    Faithful cells n c.1.region (y - c.1.base) (p.intersect c.1.perms) a
  none : ∀ c ∈ children.zipIdx, f c = none → c.1.Covers y →
    ∀ h, ¬ Reaches cells c.1.region (y - c.1.base) (p.intersect c.1.perms) h

section Container

variable {cells : Cells} {n : Nat} {r : Region} {children : List (Mapping Region)}
  {combine : CombinePolicy} {y : Nat} {p : Perms} {f : Mapping Region × Nat → Option Answer}
  {want : Perms} {a : Answer}

theorem rankedChildren_nodup (children : List (Mapping Region)) :
    (rankedChildren children).Nodup := by
  refine (rankedChildren_sorted children).imp fun {i j} h hij => ?_
  subst hij
  omega

theorem find?_active
    (h : ((rankedChildren children).filterMap f).find? (·.answers want) = some a) :
    ∃ c, (rankedChildren children).find? (fun c => (f c).any (·.answers want)) = some c ∧
      c ∈ children.zipIdx ∧ f c = some a ∧ a.answers want = true ∧
      ∀ d ∈ children.zipIdx, Outranks d c → ∀ b, f d = some b → b.answers want = false := by
  have ha := List.find?_some h
  rw [List.find?_filterMap] at h
  obtain ⟨c, hc, hfc⟩ := Option.bind_eq_some_iff.mp h
  obtain ⟨hmem, _, hfirst⟩ := find?_ranked hc
  refine ⟨c, hc, hmem, hfc, ha, fun d hd hdc b hb => ?_⟩
  simpa [hb] using hfirst d hd hdc

theorem find?_active_none
    (h : ((rankedChildren children).filterMap f).find? (·.answers want) = none) :
    ∀ c ∈ children.zipIdx, ∀ b, f c = some b → b.answers want = false := by
  intro c hc b hb
  have := List.find?_eq_none.mp h b
    (List.mem_filterMap.mpr ⟨c, mem_rankedChildren.mpr hc, hb⟩)
  simpa using this

variable {c d : Mapping Region × Nat}

section

variable (hf : ChildrenFaithful cells n children y p f)
include hf

theorem ChildrenFaithful.exists_answer
    (hc : c ∈ children.zipIdx) (hr : ReachesFor cells want y p c) : ∃ b, f c = Option.some b := by
  cases hfc : f c with
  | none =>
    obtain ⟨hcov, h, hreach, _⟩ := hr
    exact absurd hreach (hf.none c hc hfc hcov h)
  | some b => exact ⟨b, rfl⟩

theorem ChildrenFaithful.reachesFor
    (hc : c ∈ children.zipIdx) (hfc : f c = Option.some a) (ha : a.answers want = true) :
    ReachesFor cells want y p c := by
  obtain ⟨hcov, hfa⟩ := hf.some c hc a hfc
  exact ⟨hcov, hfa.reaches_of_answers ha⟩

theorem ChildrenFaithful.read_winner
    (hw : Wins cells .read children y p c) (hfc : f c = Option.some a) : a.answers .read = true :=
  answers_of_serves (fun _ => mem_of_mem_readers) (hf.some c hw.mem a hfc).2.read hw.reaches.2

theorem ChildrenFaithful.write_winner (hk : r.kind = .container children combine) (hy : y < r.len)
    (hns : ¬ Stacked cells (n + 1) r y p) (hw : Wins cells .write children y p c)
    (hfc : f c = Option.some a) : a.answers .write = true :=
  answers_of_serves (fun _ => mem_of_mem_writers)
    ((hf.some c hw.mem a hfc).2.write fun h => hns (.child hk hy hw h)) hw.reaches.2

theorem ChildrenFaithful.wins
    (hans : ∀ {d b}, Wins cells want children y p d → f d = Option.some b → b.answers want = true)
    (hc : c ∈ children.zipIdx) (hfc : f c = Option.some a) (ha : a.answers want = true)
    (hfirst : ∀ d ∈ children.zipIdx, Outranks d c → ∀ b, f d = Option.some b →
      b.answers want = false) : Wins cells want children y p c := by
  obtain ⟨d, hd⟩ := exists_wins ⟨c, hc, hf.reachesFor hc hfc ha⟩
  obtain ⟨b, hb⟩ := hf.exists_answer hd.mem hd.reaches
  rcases outranks_total hc hd.mem with h | rfl | h
  · exact absurd (hf.reachesFor hc hfc ha) (hd.first c hc h)
  · exact hd
  · exact absurd (hans hd hb) (by simp [hfirst d hd.mem h b hb])

theorem ChildrenFaithful.none_leads
    (hans : ∀ {d b}, Wins cells want children y p d → f d = Option.some b → b.answers want = true)
    (hk : r.kind = .container children combine)
    (hnone : ∀ c ∈ children.zipIdx, ∀ b, f c = Option.some b → b.answers want = false) :
    ∀ h, Reaches cells r y p h → h.perms.contains want = false := by
  intro h hr
  by_contra hp
  obtain ⟨c, hc⟩ := exists_wins_of_reaches hk hr (Bool.not_eq_false _ ▸ hp)
  obtain ⟨b, hb⟩ := hf.exists_answer hc.mem hc.reaches
  exact absurd (hans hc hb) (by simp [hnone c hc.mem b hb])

end

theorem Serves.lift {hits : List Hit} (hk : r.kind = .container children combine) (hy : y < r.len)
    (hw : Wins cells want children y p c)
    (h : Serves cells want c.1.region (y - c.1.base) (p.intersect c.1.perms) hits) :
    Serves cells want r y p hits := by
  rcases h with ⟨_, hnone⟩ | ⟨hit, heq, hd⟩
  · obtain ⟨_, hit, hr, hp⟩ := hw.reaches
    exact absurd (hnone hit hr) (by simp [hp])
  · exact Or.inr ⟨hit, heq, Decodes.child hk hy hw hd⟩

theorem not_answers_mem (h : a.answers want = false) {l : LeafSpec} (hl : l ∈ a.leaves) :
    l.perms.contains want = false := by
  by_contra hp
  exact absurd (answers_of_mem hl (Bool.not_eq_false _ ▸ hp)) (by simp [h])

theorem readers_eq_nil (h : a.answers .read = false) : a.readers = [] := by
  refine List.filter_eq_nil_iff.mpr fun l hl => ?_
  simp [not_answers_mem h (mem_of_mem_readers hl)]

theorem writers_eq_nil (h : a.answers .write = false) : a.writers = [] := by
  refine List.filter_eq_nil_iff.mpr fun l hl => ?_
  simp [not_answers_mem h (mem_of_mem_writers hl)]

theorem Answer.Plain.single (h : a.Plain) (hmiss : a.answers .read = false ∨
    a.answers .write = false) : a.directed = false := by
  rcases h with ⟨_, _, hd⟩ | ⟨l, m, hleaves, _, hr, hw⟩
  · exact hd
  · rcases hmiss with hmiss | hmiss
    · exact absurd (not_answers_mem hmiss (l := l) (by simp [hleaves])) (by simp [hr])
    · exact absurd (not_answers_mem hmiss (l := m) (by simp [hleaves])) (by simp [hw])

theorem Answer.Plain.length_one (h : a.Plain) (hone : a.leaves.length = 1) :
    ∃ l, a.leaves = [l] ∧ a.directed = false := by
  rcases h with h | ⟨l, m, hleaves, _⟩
  · exact h
  · exact absurd hone (by simp [hleaves])

theorem Answer.Plain.directed_of_length (h : a.Plain) (hone : a.leaves.length ≠ 1) :
    a.directed = true := by
  rcases h with ⟨l, hleaves, _⟩ | ⟨l, m, _, hd, _⟩
  · exact absurd (by simp [hleaves]) hone
  · exact hd

theorem mem_choose_leaves {act : List Answer} {l : LeafSpec} (hne : act ≠ [])
    (hl : l ∈ (choose .priority act).leaves) : ∃ a ∈ act, l ∈ a.leaves := by
  unfold choose at hl
  simp only [ne_eq, not_true_eq_false, if_false] at hl
  split at hl
  · rename_i r w hr hw
    split at hl
    · rcases List.mem_append.mp hl with hl | hl
      · exact ⟨r, List.mem_of_find?_eq_some hr, hl⟩
      · exact ⟨w, List.mem_of_find?_eq_some hw, hl⟩
    · exact ⟨r, List.mem_of_find?_eq_some hr, hl⟩
  · exact ⟨_, List.mem_of_find?_eq_some ‹_›, hl⟩
  · exact ⟨_, List.mem_of_find?_eq_some ‹_›, hl⟩
  · obtain ⟨i, rest, rfl⟩ := List.exists_cons_of_ne_nil hne
    exact ⟨i, List.mem_cons_self .., hl⟩

/-- The parts of being faithful that a container has to decide. -/
structure Settles (cells : Cells) (n : Nat) (r : Region) (y : Nat) (p : Perms) (a : Answer) :
    Prop where
  plain : a.Plain
  read : Serves cells .read r y p (a.readers.map (·.hit cells))
  write : ¬ Stacked cells n r y p → Serves cells .write r y p (a.writers.map (·.hit cells))

section

variable (hf : ChildrenFaithful cells n children y p f)
include hf

theorem settles_of_child
    (hk : r.kind = .container children combine) (hy : y < r.len) (hc : c ∈ children.zipIdx)
    (hfc : f c = Option.some a)
    (hread : Wins cells .read children y p c ∨ (a.answers .read = false ∧
      ∀ h, Reaches cells r y p h → h.perms.contains .read = false))
    (hwrite : ¬ Stacked cells (n + 1) r y p →
      Wins cells .write children y p c ∨ (a.answers .write = false ∧
        ∀ h, Reaches cells r y p h → h.perms.contains .write = false)) :
    Settles cells (n + 1) r y p a := by
  obtain ⟨_, hfa⟩ := hf.some c hc a hfc
  refine ⟨hfa.plain, ?_, fun hns => ?_⟩
  · rcases hread with hw | ⟨hmiss, hnone⟩
    · exact hfa.read.lift hk hy hw
    · exact Or.inl ⟨by simp [readers_eq_nil hmiss], hnone⟩
  · rcases hwrite hns with hw | ⟨hmiss, hnone⟩
    · exact (hfa.write fun h => hns (.child hk hy hw h)).lift hk hy hw
    · exact Or.inl ⟨by simp [writers_eq_nil hmiss], hnone⟩

theorem settles_pair (hk : r.kind = .container children combine) (hy : y < r.len) {b : Answer}
    (hc : c ∈ children.zipIdx) (hd : d ∈ children.zipIdx) (hfc : f c = Option.some a)
    (hfd : f d = Option.some b) (hone : a.leaves.length = 1) (hone' : b.leaves.length = 1)
    (ha : a.answers .read = true) (hb : b.answers .write = true)
    (hread : Wins cells .read children y p c)
    (hwrite : ¬ Stacked cells (n + 1) r y p → Wins cells .write children y p d) :
    Settles cells (n + 1) r y p ⟨a.leaves ++ b.leaves, .priority, true⟩ := by
  obtain ⟨_, hfa⟩ := hf.some c hc a hfc
  obtain ⟨_, hfb⟩ := hf.some d hd b hfd
  obtain ⟨l, hl, _⟩ := hfa.plain.length_one hone
  obtain ⟨m, hm, hmd⟩ := hfb.plain.length_one hone'
  have hlr : l.perms.contains .read = true := by simpa [Answer.answers, hl] using ha
  have hmw : m.perms.contains .write = true := by simpa [Answer.answers, hm] using hb
  refine ⟨Or.inr ⟨l, m, by simp [hl, hm], rfl, hlr, hmw⟩, ?_, fun hns => ?_⟩
  · have := hfa.read.lift hk hy hread
    simpa [Answer.readers, hl] using this
  · have hw := hwrite hns
    have := (hfb.write fun h => hns (.child hk hy hw h)).lift hk hy hw
    simpa [Answer.writers, hl, hm, hmd] using this

theorem choose_settles (hk : r.kind = .container children combine) (hy : y < r.len)
    (hne : (rankedChildren children).filterMap f ≠ []) :
    Settles cells (n + 1) r y p (choose .priority ((rankedChildren children).filterMap f)) := by
  unfold choose
  simp only [ne_eq, not_true_eq_false, if_false]
  cases hr : ((rankedChildren children).filterMap f).find? (·.answers .read) with
  | none =>
    have hnr := find?_active_none hr
    cases hw : ((rankedChildren children).filterMap f).find? (·.answers .write) with
    | none =>
      -- nothing answers either direction: whatever covers the address stands there
      have hnw := find?_active_none hw
      obtain ⟨a, rest, heq⟩ := List.exists_cons_of_ne_nil hne
      obtain ⟨c, hc, hfc⟩ := List.mem_filterMap.mp (heq ▸ List.mem_cons_self ..)
      have hc' := mem_rankedChildren.mp hc
      simp only [heq, List.headD_cons]
      exact settles_of_child hf hk hy hc' hfc
        (Or.inr ⟨hnr c hc' a hfc, hf.none_leads hf.read_winner hk hnr⟩)
        fun hns => Or.inr ⟨hnw c hc' a hfc, hf.none_leads (hf.write_winner hk hy hns) hk hnw⟩
    | some w =>
      obtain ⟨d, _, hd, hfd, hdw, hdfirst⟩ := find?_active hw
      exact settles_of_child hf hk hy hd hfd
        (Or.inr ⟨hnr d hd w hfd, hf.none_leads hf.read_winner hk hnr⟩)
        fun hns => Or.inl (hf.wins (hf.write_winner hk hy hns) hd hfd hdw hdfirst)
  | some a =>
    obtain ⟨c, hcfind, hc, hfc, hca, hcfirst⟩ := find?_active hr
    have hwr := hf.wins hf.read_winner hc hfc hca hcfirst
    cases hw : ((rankedChildren children).filterMap f).find? (·.answers .write) with
    | none =>
      have hnw := find?_active_none hw
      exact settles_of_child hf hk hy hc hfc (Or.inl hwr)
        fun hns => Or.inr ⟨hnw c hc a hfc, hf.none_leads (hf.write_winner hk hy hns) hk hnw⟩
    | some b =>
      obtain ⟨d, hdfind, hd, hfd, hdw, hdfirst⟩ := find?_active hw
      have hiff := findIdx_filterMap_eq_iff (rankedChildren_nodup children) hcfind hdfind
      have hww := fun hns => hf.wins (hf.write_winner hk hy hns) hd hfd hdw hdfirst
      simp only
      split
      · rename_i hcond
        exact settles_pair hf hk hy hc hd hfc hfd hcond.2.1 hcond.2.2 hca hdw hwr hww
      · rename_i hcond
        refine settles_of_child hf hk hy hc hfc (Or.inl hwr) fun hns => ?_
        by_cases hcd : c = d
        · subst hcd
          exact Or.inl (hww hns)
        · -- one of the two is a pair already
          exfalso
          refine hns (Stacked.here hk hy hwr (hww hns) hcd ?_)
          have hlen : a.leaves.length ≠ 1 ∨ b.leaves.length ≠ 1 := by
            by_contra hboth
            rw [not_or, not_not, not_not] at hboth
            exact hcond ⟨fun h => hcd (hiff.mp h), hboth.1, hboth.2⟩
          rcases hlen with hlen | hlen
          · exact Or.inl ⟨a, hf.here c hc a hfc,
              (hf.some c hc a hfc).2.plain.directed_of_length hlen⟩
          · exact Or.inr ⟨b, hf.here d hd b hfd,
              (hf.some d hd b hfd).2.plain.directed_of_length hlen⟩

omit hf in
theorem choose_writers {act : List Answer} (hne : act ≠ []) (hplain : ∀ a ∈ act, a.Plain) :
    ∃ a ∈ act, (choose .priority act).writers = a.writers := by
  unfold choose
  simp only [ne_eq, not_true_eq_false, if_false]
  split
  · rename_i r w hr hw
    have hrmem := List.mem_of_find?_eq_some hr
    have hwmem := List.mem_of_find?_eq_some hw
    split
    · rename_i hcond
      obtain ⟨l, hl, _⟩ := (hplain r hrmem).length_one hcond.2.1
      obtain ⟨m, hm, hmd⟩ := (hplain w hwmem).length_one hcond.2.2
      exact ⟨w, hwmem, by simp [Answer.writers, hl, hm, hmd]⟩
    · exact ⟨r, hrmem, rfl⟩
  · exact ⟨_, List.mem_of_find?_eq_some ‹_›, rfl⟩
  · exact ⟨_, List.mem_of_find?_eq_some ‹_›, rfl⟩
  · obtain ⟨a, rest, rfl⟩ := List.exists_cons_of_ne_nil hne
    exact ⟨a, List.mem_cons_self .., rfl⟩

omit hf in
theorem Answer.Plain.not_length_one (h : a.Plain) (hd : a.directed = true) :
    a.leaves.length ≠ 1 := fun hone => by
  obtain ⟨_, _, hd'⟩ := h.length_one hone
  rw [hd] at hd'
  cases hd'

theorem choose_stacked
    (hc : Wins cells .read children y p c) (hd : Wins cells .write children y p d)
    (hpair : Paired cells n c.1.region (y - c.1.base) (p.intersect c.1.perms) ∨
      Paired cells n d.1.region (y - d.1.base) (p.intersect d.1.perms)) :
    ∃ a, f c = Option.some a ∧ choose .priority ((rankedChildren children).filterMap f) = a := by
  obtain ⟨a, hfc⟩ := hf.exists_answer hc.mem hc.reaches
  obtain ⟨b, hfd⟩ := hf.exists_answer hd.mem hd.reaches
  have hfa := (hf.some c hc.mem a hfc).2
  have hfb := (hf.some d hd.mem b hfd).2
  refine ⟨a, hfc, ?_⟩
  unfold choose
  simp only [ne_eq, not_true_eq_false, if_false]
  cases hr : ((rankedChildren children).filterMap f).find? (·.answers .read) with
  | none =>
    exact absurd (hf.read_winner hc hfc) (by simp [find?_active_none hr c hc.mem a hfc])
  | some a' =>
    obtain ⟨c', _, hc', hfc', hca, hcfirst⟩ := find?_active hr
    obtain rfl := hc.unique (hf.wins hf.read_winner hc' hfc' hca hcfirst)
    obtain rfl := Option.some.inj (hfc.symm.trans hfc')
    cases hw : ((rankedChildren children).filterMap f).find? (·.answers .write) with
    | none => rfl
    | some b' =>
      obtain ⟨d', _, hd', hfd', hdw, hdfirst⟩ := find?_active hw
      refine if_neg fun hcond => ?_
      rcases hpair with ⟨a', ha', hdir⟩ | ⟨b₀, hb₀, hdir⟩
      · obtain rfl := Option.some.inj ((hf.here c hc.mem a hfc).symm.trans ha')
        exact hfa.plain.not_length_one hdir hcond.2.1
      · obtain rfl := Option.some.inj ((hf.here d hd.mem b hfd).symm.trans hb₀)
        have hans : b.answers .write = true := by
          by_contra hno
          rw [hfb.plain.single (.inr (Bool.not_eq_true _ ▸ hno))] at hdir
          cases hdir
        rcases outranks_total hd' hd.mem with h | rfl | h
        · exact hd.first d' hd' h (hf.reachesFor hd' hfd' hdw)
        · obtain rfl := Option.some.inj (hfd.symm.trans hfd')
          exact hfb.plain.not_length_one hdir hcond.2.2
        · exact absurd hans (by simp [hdfirst d hd.mem h b hfd])

omit hf in
theorem Wins.served {hits : List Hit} (hk : r.kind = .container children combine) (hy : y < r.len)
    (hw : Wins cells want children y p d) (h : Serves cells want r y p hits) :
    ∃ hit, hits = [hit] ∧
      Decodes cells want d.1.region (y - d.1.base) (p.intersect d.1.perms) hit := by
  rcases h with ⟨_, hnone⟩ | ⟨hit, heq, hdec⟩
  · obtain ⟨hit, hr, hp⟩ := hw.reaches_region hk hy
    exact absurd (hnone hit hr) (by simp [hp])
  · obtain ⟨c, hw', hdec⟩ := winner_of_decodes hk hdec
    cases hw.unique hw'
    exact ⟨hit, heq, hdec⟩

theorem choose_strays (hk : r.kind = .container children combine) (hy : y < r.len)
    (hne : (rankedChildren children).filterMap f ≠ []) (hs : Stacked cells (n + 1) r y p)
    (htwice : ¬ Twice cells r y p) :
    ¬ Serves cells .write r y p
      ((choose .priority ((rankedChildren children).filterMap f)).writers.map (·.hit cells)) := by
  intro hserve
  -- a write found in one child is not decoded through another
  have hother : ∀ c ∈ children.zipIdx, ∀ a, f c = Option.some a → ∀ d,
      Wins cells .write children y p d → ∀ h, a.writers.map (·.hit cells) = [h] →
      Decodes cells .write d.1.region (y - d.1.base) (p.intersect d.1.perms) h → c = d := by
    intro c hc a hfc d hd h heq hdec
    by_contra hcd
    obtain ⟨hcov, hfa⟩ := hf.some c hc a hfc
    obtain ⟨l, hl, rfl⟩ := List.mem_map.mp (heq ▸ List.mem_singleton_self h)
    have hmem : l ∈ a.leaves := mem_of_mem_writers (List.mem_of_mem_filter hl)
    exact htwice (.here hk hy hc hd.mem hcd hcov hd.reaches.1 (hfa.reach l hmem) hdec.reaches)
  cases hs with
  | window hk' => exact absurd (hk.symm.trans hk') (by simp)
  | here hk' _ hc hd hcd hpair =>
    rw [hk] at hk'
    cases hk'
    obtain ⟨a, hfc, hkept⟩ := choose_stacked hf hc hd hpair
    rw [hkept] at hserve
    obtain ⟨h, heq, hdec⟩ := hd.served hk hy hserve
    exact hcd (hother _ hc.mem a hfc _ hd h heq hdec)
  | child hk' _ hd hs =>
    rw [hk] at hk'
    cases hk'
    obtain ⟨a, ha, hwriters⟩ := choose_writers hne fun a ha => by
      obtain ⟨c, hc, hfc⟩ := List.mem_filterMap.mp ha
      exact (hf.some c (mem_rankedChildren.mp hc) a hfc).2.plain
    rw [hwriters] at hserve
    obtain ⟨c, hc, hfc⟩ := List.mem_filterMap.mp ha
    obtain ⟨h, heq, hdec⟩ := hd.served hk hy hserve
    obtain rfl := hother c (mem_rankedChildren.mp hc) a hfc _ hd h heq hdec
    obtain ⟨hcov, hfa⟩ := hf.some c hd.mem a hfc
    exact hfa.stray hs (fun ht => htwice (.child hk hy hd.mem hcov ht)) (.inr ⟨h, heq, hdec⟩)

end

end Container

/-! ## The whole tree -/

section Offset

variable {cells : Cells} {l : LeafSpec}

theorem LeafSpec.offset_mod :
    l.offset cells % 2 ^ 64 = (l.fixed + (l.terms.map cells).sum) % 2 ^ 64 := by
  have hfold : ∀ (ts : List AliasId) (v : Nat),
      ts.foldl (fun v id => wrappingAdd 64 v (cells id)) v % 2 ^ 64
        = (v + (ts.map cells).sum) % 2 ^ 64 := by
    intro ts
    induction ts with
    | nil => intro v; rfl
    | cons t ts ih =>
      intro v
      rw [List.foldl_cons, ih, List.map_cons, List.sum_cons]
      unfold wrappingAdd
      rw [Nat.mod_add_mod, Nat.add_assoc]
  exact hfold l.terms l.fixed

theorem LeafSpec.offset_eq (h : l.fixed < 2 ^ 64) :
    l.offset cells = (l.fixed + (l.terms.map cells).sum) % 2 ^ 64 := by
  have hlt : l.offset cells < 2 ^ 64 :=
    List.foldlRecOn (motive := (· < 2 ^ 64)) l.terms _ h fun _ _ _ _ => wrappingAdd_lt 64 _ _
  rw [← offset_mod, Nat.mod_eq_of_lt hlt]

end Offset

section Window

variable {cells : Cells} {r : Region} {w : Alias Region} {l : LeafSpec}

theorem windowLeaf_perms : (windowLeaf cells r w l).perms = l.perms := by
  unfold windowLeaf
  split <;> split <;> rfl

theorem windowLeaf_period : (windowLeaf cells r w l).period = l.period := by
  unfold windowLeaf
  split <;> split <;> rfl

theorem windowLeaf_target : (windowLeaf cells r w l).target = l.target := by
  unfold windowLeaf
  split <;> split <;> rfl

theorem windowLeaf_fixed : (windowLeaf cells r w l).fixed =
    if w.rebasable then wrappingSub 64 l.fixed (cells w.id) else l.fixed := by
  unfold windowLeaf
  split <;> split <;> simp_all

theorem windowLeaf_terms : (windowLeaf cells r w l).terms =
    if w.rebasable then l.terms ++ [w.id] else l.terms := by
  unfold windowLeaf
  split <;> split <;> simp_all

theorem windowLeaf_bounded (h : l.fixed < 2 ^ 64) : (windowLeaf cells r w l).fixed < 2 ^ 64 := by
  rw [windowLeaf_fixed]
  split
  · exact Nat.mod_lt _ (Nat.two_pow_pos 64)
  · exact h

theorem windowLeaf_hit (h : l.fixed < 2 ^ 64) :
    (windowLeaf cells r w l).hit cells = l.hit cells := by
  have hoff : (windowLeaf cells r w l).offset cells = l.offset cells := by
    rw [LeafSpec.offset_eq h, LeafSpec.offset_eq (windowLeaf_bounded h), windowLeaf_fixed,
      windowLeaf_terms]
    split
    · rw [List.map_append, List.sum_append]
      simp only [List.map_cons, List.map_nil, List.sum_cons, List.sum_nil, Nat.add_zero, wrappingSub]
      omega
    · rfl
  unfold LeafSpec.hit
  rw [hoff, windowLeaf_perms, windowLeaf_period, windowLeaf_target]

end Window

section Faithful

variable {cells : Cells} {n : Nat} {r : Region} {y : Nat} {p : Perms} {a : Answer}

theorem faithful_leaf {l : LeafSpec} (hfix : l.fixed < 2 ^ 64) (hterms : l.terms = [])
    (honce : r.resolvesToLeaf = true → l.period = 0) (hp : l.perms = p)
    (hreach : Reaches cells r y p (l.hit cells))
    (honly : ∀ h, Reaches cells r y p h → h = l.hit cells)
    (hdec : ∀ want, p.contains want = true → Decodes cells want r y p (l.hit cells))
    (hns : ¬ Stacked cells n r y p) : Faithful cells n r y p (leafAnswer l) := by
  have hserve : ∀ want, Serves cells want r y p
      ((([l] : List LeafSpec).filter (·.perms.contains want)).map (·.hit cells)) := by
    intro want
    cases hw : p.contains want with
    | true => exact Or.inr ⟨l.hit cells, by simp [hp, hw], hdec want hw⟩
    | false =>
      refine Or.inl ⟨by simp [hp, hw], fun h hr => ?_⟩
      rw [honly h hr]
      exact (congrArg (·.contains want) hp).trans hw
  refine ⟨Or.inl ⟨l, rfl, rfl⟩, ?_, ?_, ?_, ?_, hserve .read, fun _ => hserve .write,
    fun h => absurd h hns⟩
  · intro l' hl'
    rw [List.mem_singleton.mp hl']
    exact hfix
  · intro l' hl' _
    rw [List.mem_singleton.mp hl']
    exact hterms
  · intro hr l' hl'
    rw [List.mem_singleton.mp hl']
    exact honce hr
  · intro l' hl'
    rw [List.mem_singleton.mp hl']
    exact hreach

variable {w : Alias Region}

theorem serves_window_iff {want : Perms} {hits : List Hit} (hk : r.kind = .alias w)
    (hrep : w.repeats = false) (hy : y < r.len) :
    Serves cells want r y p hits ↔ Serves cells want w.target (cells w.id + y) p hits := by
  unfold Serves
  simp only [reaches_window_iff hk hrep hy, decodes_window_iff hk hrep hy]

theorem Faithful.window (hk : r.kind = .alias w) (hrep : w.repeats = false)
    (hok : WindowOk w r.depth) (hy : y < r.len) (h : Faithful cells n w.target (cells w.id + y) p a)
    : Faithful cells (n + 1) r y p { a with leaves := a.leaves.map (windowLeaf cells r w) } := by
  have hhits : ∀ want (ls : List LeafSpec), (∀ l ∈ ls, l ∈ a.leaves) →
      ((ls.map (windowLeaf cells r w)).filter (·.perms.contains want)).map (·.hit cells) =
        (ls.filter (·.perms.contains want)).map (·.hit cells) := by
    intro want ls hls
    rw [List.filter_map, List.map_map]
    have hcomp : ((fun l : LeafSpec => l.perms.contains want) ∘ windowLeaf cells r w) =
        fun l => l.perms.contains want := by
      funext l
      simp only [Function.comp_apply, windowLeaf_perms]
    rw [hcomp]
    refine List.map_congr_left fun l hl => ?_
    exact windowLeaf_hit (h.bounded l (hls l (List.mem_of_mem_filter hl)))
  have hreb : w.rebasable = true → ∀ l ∈ a.leaves, l.period = 0 := by
    intro hreb
    refine h.once ?_
    have := hok.rebasable
    rw [hreb, hrep] at this
    simpa using this.symm
  have hwriters : ({ a with leaves := a.leaves.map (windowLeaf cells r w) } : Answer).writers.map
      (·.hit cells) = a.writers.map (·.hit cells) := by
    unfold Answer.writers
    split
    · rw [← List.map_drop, hhits .write _ fun l hl => List.mem_of_mem_drop hl]
    · rw [← List.map_take, hhits .write _ fun l hl => List.mem_of_mem_take hl]
  refine ⟨?_, ?_, ?_, ?_, ?_, ?_, fun hns => ?_, fun hs htwice => ?_⟩
  · rcases h.plain with ⟨l, hl, hd⟩ | ⟨l, m, hl, hd, hlr, hmw⟩
    · exact Or.inl ⟨windowLeaf cells r w l, by simp [hl], hd⟩
    · exact Or.inr ⟨windowLeaf cells r w l, windowLeaf cells r w m, by simp [hl], hd,
        by rw [windowLeaf_perms]; exact hlr, by rw [windowLeaf_perms]; exact hmw⟩
  · intro l hl
    obtain ⟨k, hk', rfl⟩ := List.mem_map.mp hl
    exact windowLeaf_bounded (h.bounded k hk')
  · intro l hl hper
    obtain ⟨k, hk', rfl⟩ := List.mem_map.mp hl
    rw [windowLeaf_period] at hper
    cases hb : w.rebasable with
    | true => exact absurd (hreb hb k hk') hper
    | false =>
      rw [windowLeaf_terms, hb]
      exact h.still k hk' hper
  · intro hleaf l hl
    obtain ⟨k, hk', rfl⟩ := List.mem_map.mp hl
    rw [windowLeaf_period]
    simp only [Region.resolvesToLeaf, hk, Bool.and_eq_true] at hleaf
    exact hreb hleaf.1 k hk'
  · intro l hl
    obtain ⟨k, hk', rfl⟩ := List.mem_map.mp hl
    rw [windowLeaf_hit (h.bounded k hk')]
    exact Reaches.window hk hrep hy (h.reach k hk')
  · have heq := hhits .read (a.leaves.take 1) fun l hl => List.mem_of_mem_take hl
    simp only [Answer.readers, ← List.map_take, heq]
    exact (serves_window_iff hk hrep hy).mpr h.read
  · rw [hwriters, serves_window_iff hk hrep hy]
    exact h.write fun hs => hns (.window hk hrep hy hs)
  · rw [hwriters, serves_window_iff hk hrep hy]
    exact h.stray (stacked_window hk hs) fun ht => htwice (.window hk hrep hy ht)

theorem Stacked.reaches (hs : Stacked cells n r y p) : ∃ h, Reaches cells r y p h := by
  induction hs with
  | window hk hrep hy _ ih => exact ih.imp fun _ => .window hk hrep hy
  | here hk hy hc _ _ _ => exact (hc.reaches_region hk hy).imp fun _ => And.left
  | child hk hy hd _ _ => exact (hd.reaches_region hk hy).imp fun _ => And.left

/-- What `point` owes at one address. -/
def FaithfulAt (cells : Cells) (n : Nat) (r : Region) (y : Nat) (p : Perms) : Option Answer → Prop
  | none => ∀ h, ¬ Reaches cells r y p h
  | some a => Faithful cells n r y p a

theorem intersect_within {q : Perms} (hp : p.intersect .rwx = p) :
    (p.intersect q).intersect .rwx = p.intersect q := by
  unfold Perms.intersect Perms.rwx at *
  have hp' : p.bits &&& 7 = p.bits := congrArg Perms.bits hp
  rw [BitVec.and_assoc, BitVec.and_comm q.bits, ← BitVec.and_assoc, hp']

theorem point_faithful : ∀ {levels : Nat} {r : Region}, Shape r → AllPriority r →
    r.depth ≤ levels → levels < 2 ^ 32 - 1 → ∀ y p, p.intersect .rwx = p →
    FaithfulAt cells levels r y p (point cells levels r y p) := by
  intro levels
  induction levels with
  | zero =>
    intro r hs _ hd _ y p _
    have := hs.depth_pos
    omega
  | succ n ih =>
    intro r hs hprio hd hn y p hp
    have hlen := hs.len_lt
    by_cases hy : y < r.len
    · cases hs with
      | leaf _ hl _ _ =>
        obtain ⟨t, ht⟩ := isLeaf_iff.mp hl
        rw [point_leaf ht, if_neg (by omega)]
        refine faithful_leaf (by simp only; omega) rfl (fun _ => rfl) rfl ?_ ?_ ?_
          (not_stacked_leaf ht)
        · exact Reaches.leaf ht hy
        · intro h hr
          exact eq_of_reaches_leaf ht hr
        · intro want hw
          exact Decodes.leaf ht hy hw
      | window _ w hk _ hok htgt =>
        cases hrep : w.repeats with
        | true =>
          obtain ⟨t, ht⟩ := isLeaf_iff.mp (hok.leaf hrep)
          rw [point_mirror hk hrep ht, if_neg (by omega)]
          have hmod : y % w.target.len ≤ y := Nat.mod_le _ _
          have hhit : (⟨t, y % w.target.len, [], w.target.len, r.constraints, p⟩ :
              LeafSpec).hit cells = ⟨t, y % w.target.len, p⟩ := by
            simp [LeafSpec.hit, LeafSpec.offset]
          refine faithful_leaf (by simp only; omega) rfl (fun h => ?_) rfl ?_ ?_ ?_
            (not_stacked_mirror hk hrep)
          · exact absurd h (by simp [Region.resolvesToLeaf, hk, hrep])
          · rw [hhit]
            exact Reaches.mirror hk hrep ht hy
          · intro h hr
            rw [hhit]
            exact eq_of_reaches_mirror hk hrep ht hr
          · intro want hw
            rw [hhit]
            exact Decodes.mirror hk hrep ht hy hw
        | false =>
          have hdep := hok.depth
          unfold saturatingAdd at hdep
          have hfa := ih htgt (hprio.target hk) (by omega) (by omega) (cells w.id + y) p hp
          simp only [point, if_neg (show ¬ r.len ≤ y by omega), hk, hrep,
            Bool.false_eq_true, if_false, hp]
          cases hpt : point cells n w.target (cells w.id + y) p with
          | none =>
            rw [hpt] at hfa
            exact fun h hr => hfa h ((reaches_window_iff hk hrep hy).mp hr)
          | some a =>
            rw [hpt] at hfa
            exact Faithful.window hk hrep hok hy hfa
      | container _ cs k hk _ _ _ hdep hcs =>
        have hkp : k = .priority := hprio r cs k (Sub.refl r) hk
        subst hkp
        have hf : ChildrenFaithful cells n cs y p (childAt (point cells n) r.len p y) := by
          have hchild : ∀ c ∈ cs.zipIdx, FaithfulAt cells n c.1.region (y - c.1.base)
              (p.intersect c.1.perms) (point cells n c.1.region (y - c.1.base)
                (p.intersect c.1.perms)) := by
            intro c hc
            have hm := fst_mem_of_zipIdx hc
            have hd' := hdep c.1 hm
            unfold saturatingAdd at hd'
            exact ih (hcs c.1 hm) (hprio.child hk hm) (by omega) (by omega) _ _
              (intersect_within hp)
          have hcov : ∀ c : Mapping Region × Nat,
              (c.1.base ≤ y ∧ y < min c.1.stop r.len) ↔ c.1.Covers y := by
            intro c
            rw [stop_min hlen]
            unfold Mapping.Covers
            omega
          refine ⟨fun c _ a hca => ?_, fun c hc a hca => ?_, fun c hc hcn hcv h hr => ?_⟩
          · unfold childAt at hca
            split at hca
            · exact hca
            · cases hca
          · unfold childAt at hca
            split at hca
            · rename_i hin
              have := hchild c hc
              rw [hca] at this
              exact ⟨(hcov c).mp hin, this⟩
            · cases hca
          · unfold childAt at hcn
            rw [if_pos ((hcov c).mpr hcv)] at hcn
            have := hchild c hc
            rw [hcn] at this
            exact this h hr
        simp only [point, if_neg (show ¬ r.len ≤ y by omega), hk, pointChildren]
        cases hact : (rankedChildren cs).filterMap (childAt (point cells n) r.len p y) with
        | nil =>
          -- no child leads anywhere
          intro h hr
          obtain ⟨m, hm, hcv, hr⟩ := child_of_reaches hk hr
          obtain ⟨i, hi⟩ := exists_zipIdx_of_mem hm
          have hnone := List.filterMap_eq_nil_iff.mp hact (m, i) (mem_rankedChildren.mpr hi)
          exact hf.none (m, i) hi hnone hcv h hr
        | cons a rest =>
          have hne : (rankedChildren cs).filterMap (childAt (point cells n) r.len p y) ≠ [] :=
            by simp [hact]
          have hset := choose_settles hf hk hy hne
          have hfrom : ∀ l ∈ (choose .priority ((rankedChildren cs).filterMap
              (childAt (point cells n) r.len p y))).leaves, ∃ c ∈ cs.zipIdx,
              ∃ a, l ∈ a.leaves ∧ c.1.Covers y ∧
                Faithful cells n c.1.region (y - c.1.base) (p.intersect c.1.perms) a := by
            intro l hl
            obtain ⟨a, ha, hl⟩ := mem_choose_leaves hne hl
            obtain ⟨c, hc, hca⟩ := List.mem_filterMap.mp ha
            have hc' := mem_rankedChildren.mp hc
            exact ⟨c, hc', a, hl, hf.some c hc' a hca⟩
          have hstray := choose_strays hf hk hy hne
          rw [hact] at hset hfrom hstray
          refine ⟨hset.plain, fun l hl => ?_, fun l hl => ?_, fun h => ?_, fun l hl => ?_,
            hset.read, hset.write, hstray⟩
          · obtain ⟨c, _, a, hl, _, hfa⟩ := hfrom l hl
            exact hfa.bounded l hl
          · obtain ⟨c, _, a, hl, _, hfa⟩ := hfrom l hl
            exact hfa.still l hl
          · exact absurd h (by simp [Region.resolvesToLeaf, hk])
          · obtain ⟨c, hc, a, hl, hcv, hfa⟩ := hfrom l hl
            exact Reaches.child hk hy (fst_mem_of_zipIdx hc) hcv (hfa.reach l hl)
    · rw [point_past (by omega)]
      intro h hr
      exact hy hr.lt_len

end Faithful

end Rsemu.Space
