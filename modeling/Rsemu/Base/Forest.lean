import Mathlib.Logic.Relation
import Mathlib.Data.List.Nodup
import Mathlib.Data.Finset.Card
import Mathlib.Data.Fintype.Basic

/-!
# Parent and child links

A forest over an arbitrary node type, held twice: each node names its parent, and
each node lists its children. `Links` says the two agree; `Ranked` says the parent
links are well founded, by giving every node a height strictly above its parent's.

The second half is the breadth-first walk of a subtree written the way an
imperative loop writes it: one growing output list and one cursor into it. What a
caller needs from it is three facts — it visits exactly the descendants, each
once, and a parent before any of its children — and that a cursor bounded by the
number of nodes is enough for the loop to end by itself.
-/

namespace Rsemu.Forest

variable {α : Type}

/-- The two halves of the link structure agree. -/
structure Links (parent : α → Option α) (children : α → List α) : Prop where
  /-- A node is listed exactly by the node it names as its parent. -/
  mem : ∀ c p, c ∈ children p ↔ parent c = some p
  /-- It is listed there once. -/
  nodup : ∀ p, (children p).Nodup

/-- Ranks fall towards the roots, so there is no cycle. -/
def Ranked (parent : α → Option α) : Prop :=
  ∃ rank : α → Nat, ∀ c p, parent c = some p → rank p < rank c

/-- `d` is `a` or below it. -/
def Desc (parent : α → Option α) (a d : α) : Prop :=
  Relation.ReflTransGen (fun p c => parent c = some p) a d

section Desc

variable {parent : α → Option α} {a b c d : α}

theorem Desc.refl (a : α) : Desc parent a a := Relation.ReflTransGen.refl

theorem Desc.child (h : Desc parent a b) (hc : parent c = some b) : Desc parent a c :=
  Relation.ReflTransGen.tail h hc

theorem desc_cases : Desc parent a d ↔ d = a ∨ ∃ p, parent d = some p ∧ Desc parent a p := by
  constructor
  · intro h
    rcases Relation.ReflTransGen.cases_tail h with h | ⟨p, hp, hd⟩
    · exact Or.inl h
    · exact Or.inr ⟨p, hd, hp⟩
  · rintro (rfl | ⟨p, hp, h⟩)
    · exact Desc.refl _
    · exact h.child hp

theorem desc_parent {p : α} (h : Desc parent a d) (hne : d ≠ a) (hp : parent d = some p) :
    Desc parent a p := by
  rcases desc_cases.mp h with rfl | ⟨q, hq, h'⟩
  · exact absurd rfl hne
  · rw [hp] at hq
    exact Option.some.inj hq ▸ h'

theorem desc_root (h : Desc parent a d) (hd : parent d = none) : a = d := by
  rcases desc_cases.mp h with rfl | ⟨q, hq, _⟩
  · rfl
  · rw [hd] at hq; cases hq

end Desc

section Ranked

variable {parent : α → Option α}

theorem exists_root (hr : Ranked parent) (d : α) : ∃ r, parent r = none ∧ Desc parent r d := by
  obtain ⟨rank, hrank⟩ := hr
  induction hn : rank d using Nat.strongRecOn generalizing d with
  | ind n ih =>
    cases hp : parent d with
    | none => exact ⟨d, hp, Desc.refl d⟩
    | some p =>
      obtain ⟨r, hr, hd⟩ := ih (rank p) (hn ▸ hrank d p hp) p rfl
      exact ⟨r, hr, hd.child hp⟩

theorem rank_le_of_desc {rank : α → Nat} (hrank : ∀ c p, parent c = some p → rank p < rank c)
    {a d : α} (h : Desc parent a d) : rank a ≤ rank d := by
  induction h with
  | refl => exact Nat.le_refl _
  | tail _ hc ih => exact Nat.le_trans ih (Nat.le_of_lt (hrank _ _ hc))

theorem not_desc_of_child (hr : Ranked parent) {c p : α} (hc : parent c = some p) :
    ¬ Desc parent c p := by
  obtain ⟨rank, hrank⟩ := hr
  intro h
  have h1 := rank_le_of_desc hrank h
  have h2 := hrank c p hc
  omega

theorem Ranked.induction (hr : Ranked parent) {P : α → Prop}
    (root : ∀ d, parent d = none → P d) (child : ∀ d p, parent d = some p → P p → P d) :
    ∀ d, P d := by
  obtain ⟨rank, hrank⟩ := hr
  intro d
  induction hn : rank d using Nat.strongRecOn generalizing d with
  | ind n ih =>
    cases hp : parent d with
    | none => exact root d hp
    | some p => exact child d p hp (ih (rank p) (hn ▸ hrank d p hp) p rfl)

theorem Ranked.reparent [DecidableEq α] {a np : α} (hr : Ranked parent)
    (hnp : ¬ Desc parent a np) : Ranked (fun d => if d = a then some np else parent d) := by
  classical
  obtain ⟨rank, hrank⟩ := hr
  refine ⟨fun d => if Desc parent a d then rank d + rank np + 1 else rank d, ?_⟩
  intro c p hcp
  by_cases hca : c = a
  · subst hca
    simp only [if_true, Option.some.injEq] at hcp
    subst hcp
    simp only [if_neg hnp, if_pos (Desc.refl c)]
    omega
  · simp only [if_neg hca] at hcp
    have hlt := hrank c p hcp
    by_cases hd : Desc parent a p
    · simp only [if_pos hd, if_pos (hd.child hcp)]
      omega
    · simp only [if_neg hd, if_neg (fun h => hd (desc_parent h hca hcp))]
      exact hlt

theorem desc_reparent [DecidableEq α] {a np d : α} (hnp : ¬ Desc parent a np) :
    Desc (fun d => if d = a then some np else parent d) a d ↔ Desc parent a d := by
  constructor
  · intro h
    induction h with
    | refl => exact Desc.refl a
    | @tail b c _ hc ih =>
      by_cases hca : c = a
      · subst hca
        simp only [if_true, Option.some.injEq] at hc
        subst hc
        exact absurd ih hnp
      · exact Desc.child ih (by simpa only [if_neg hca] using hc)
  · intro h
    induction h with
    | refl => exact Desc.refl a
    | @tail b c _ hc ih =>
      by_cases hca : c = a
      · subst hca
        exact Desc.refl c
      · exact Desc.child ih (by simpa only [if_neg hca] using hc)

end Ranked

theorem Links.reparent [DecidableEq α] {children : α → List α} {a np : α}
    (hl : Links parent children) :
    Links (fun d => if d = a then some np else parent d)
      (fun q => (if parent a = some q then (children q).filter (· ≠ a) else children q)
        ++ if q = np then [a] else []) := by
  -- either way, what is left of a list before the push is what is not the moved node
  have hcut : ∀ q c, c ∈ (if parent a = some q then (children q).filter (· ≠ a) else children q)
      ↔ parent c = some q ∧ c ≠ a := by
    intro q c
    split
    · rename_i hq
      simp [hl.mem]
    · rename_i hq
      rw [hl.mem]
      refine ⟨fun h => ⟨h, ?_⟩, And.left⟩
      rintro rfl
      exact hq h
  constructor
  · intro c q
    rw [List.mem_append, hcut]
    by_cases hca : c = a
    · subst hca
      by_cases hq : q = np
      · simp [hq]
      · simp [hq, Ne.symm hq]
    · by_cases hq : q = np <;> simp [hca, hq]
  · intro q
    rw [List.nodup_append]
    refine ⟨?_, ?_, ?_⟩
    · split
      · exact (hl.nodup q).filter _
      · exact hl.nodup q
    · split <;> simp
    · intro x hx y hy
      split at hy
      · rw [List.mem_singleton] at hy
        subst hy
        exact ((hcut q x).mp hx).2
      · exact absurd hy (by simp)

def bfsLoop (children : α → List α) : Nat → List α → Nat → List α
  | 0, out, _ => out
  | fuel + 1, out, i =>
    match out[i]? with
    | none => out
    | some cur => bfsLoop children fuel (out ++ children cur) (i + 1)

/-- What holds of the output list and the cursor after every turn of the loop. -/
structure BfsInv (parent : α → Option α) (children : α → List α) (a : α)
    (out : List α) (i : Nat) : Prop where
  /-- The walk starts at the top. -/
  head : out[0]? = some a
  /-- Nothing is listed twice. -/
  nodup : out.Nodup
  /-- Everything listed is in the subtree. -/
  desc : ∀ d ∈ out, Desc parent a d
  /-- The children of what the cursor has passed are all listed. -/
  closed : ∀ j d, j < i → out[j]? = some d → ∀ c ∈ children d, c ∈ out
  /-- Everything after the top was listed because the cursor passed its parent. -/
  earlier : ∀ j d, out[j]? = some d → 0 < j →
    ∃ k p, k < i ∧ k < j ∧ out[k]? = some p ∧ parent d = some p
  /-- The cursor is inside the list or just past it. -/
  cursor : i ≤ out.length

section Bfs

variable {parent : α → Option α} {children : α → List α} {a : α}

theorem bfsInv_init : BfsInv parent children a [a] 0 where
  head := rfl
  nodup := by simp
  desc := by
    intro d hd
    rw [List.mem_singleton.mp hd]
    exact Desc.refl a
  closed := by intro j d hj; exact absurd hj (Nat.not_lt_zero j)
  earlier := by
    intro j d hd hj
    rw [List.getElem?_eq_none (by simp; omega)] at hd
    cases hd
  cursor := Nat.zero_le _

theorem bfsInv_fresh (hl : Links parent children) (hr : Ranked parent) {out : List α} {i : Nat}
    {cur : α} (h : BfsInv parent children a out i) (hcur : out[i]? = some cur) :
    ∀ c ∈ children cur, c ∉ out := by
  intro c hc hmem
  obtain ⟨j, hj⟩ := List.mem_iff_getElem?.mp hmem
  have hpc : parent c = some cur := (hl.mem c cur).mp hc
  rcases Nat.eq_zero_or_pos j with h0 | hpos
  · subst h0
    rw [h.head] at hj
    have hca : a = c := Option.some.inj hj
    subst hca
    exact not_desc_of_child hr hpc (h.desc cur (List.mem_iff_getElem?.mpr ⟨i, hcur⟩))
  · obtain ⟨k, p, hki, _, hkp, hp⟩ := h.earlier j c hj hpos
    rw [hpc] at hp
    have hpe : cur = p := Option.some.inj hp
    subst hpe
    have hlt : k < out.length := (List.getElem?_eq_some_iff.mp hkp).1
    have := (List.getElem?_inj hlt h.nodup).mp (hkp.trans hcur.symm)
    omega

theorem bfsInv_step (hl : Links parent children) (hr : Ranked parent) {out : List α} {i : Nat}
    {cur : α} (h : BfsInv parent children a out i) (hcur : out[i]? = some cur) :
    BfsInv parent children a (out ++ children cur) (i + 1) := by
  have hilt : i < out.length := (List.getElem?_eq_some_iff.mp hcur).1
  have hold : ∀ {j : Nat} {d : α}, j < out.length → (out ++ children cur)[j]? = some d →
      out[j]? = some d := by
    intro j d hj hd
    rwa [List.getElem?_append_left hj] at hd
  have hnew : ∀ {j : Nat} {d : α}, out[j]? = some d → (out ++ children cur)[j]? = some d := by
    intro j d hd
    rwa [List.getElem?_append_left (List.getElem?_eq_some_iff.mp hd).1]
  refine ⟨hnew h.head, ?_, ?_, ?_, ?_, ?_⟩
  · rw [List.nodup_append]
    refine ⟨h.nodup, hl.nodup cur, ?_⟩
    intro x hx y hy hxy
    exact bfsInv_fresh hl hr h hcur y hy (hxy ▸ hx)
  · intro d hd
    rcases List.mem_append.mp hd with hd | hd
    · exact h.desc d hd
    · exact (h.desc cur (List.mem_iff_getElem?.mpr ⟨i, hcur⟩)).child ((hl.mem d cur).mp hd)
  · intro j d hj hd c hc
    have hd' := hold (by omega) hd
    rcases Nat.lt_succ_iff_lt_or_eq.mp hj with hj | hj
    · exact List.mem_append_left _ (h.closed j d hj hd' c hc)
    · subst hj
      rw [hcur] at hd'
      exact List.mem_append_right _ (Option.some.inj hd' ▸ hc)
  · intro j d hd hj
    by_cases hlt : j < out.length
    · obtain ⟨k, p, hk, hkj, hkp, hp⟩ := h.earlier j d (hold hlt hd) hj
      exact ⟨k, p, Nat.lt_succ_of_lt hk, hkj, hnew hkp, hp⟩
    · rw [List.getElem?_append_right (by omega)] at hd
      have hmem := List.mem_iff_getElem?.mpr ⟨_, hd⟩
      exact ⟨i, cur, Nat.lt_succ_self i, by omega, hnew hcur, (hl.mem d cur).mp hmem⟩
  · rw [List.length_append]
    omega

theorem bfsLoop_spec (hl : Links parent children) (hr : Ranked parent) {bound : Nat}
    (hb : ∀ out i, BfsInv parent children a out i → out.length ≤ bound) :
    ∀ (fuel : Nat) (out : List α) (i : Nat), BfsInv parent children a out i → bound ≤ fuel + i →
      ∃ j, BfsInv parent children a (bfsLoop children fuel out i) j
        ∧ (bfsLoop children fuel out i).length ≤ j
  | 0, out, i, h, hf => ⟨i, h, Nat.le_trans (hb out i h) (by omega)⟩
  | fuel + 1, out, i, h, hf => by
    unfold bfsLoop
    split
    · rename_i hnone
      exact ⟨i, h, List.getElem?_eq_none_iff.mp hnone⟩
    · rename_i cur hcur
      exact bfsLoop_spec hl hr hb fuel _ _ (bfsInv_step hl hr h hcur) (by omega)

def bfs (children : α → List α) (n : Nat) (a : α) : List α := bfsLoop children n [a] 0

theorem mem_bfsLoop : ∀ (n : Nat) (out : List α) (i : Nat) {d : α},
    d ∈ bfsLoop children n out i → d ∈ out ∨ ∃ p, d ∈ children p
  | 0, out, i, d, h => Or.inl h
  | n + 1, out, i, d, h => by
    rw [bfsLoop] at h
    split at h
    · exact Or.inl h
    · rename_i x _
      rcases mem_bfsLoop n _ _ h with h | h
      · rcases List.mem_append.mp h with h | h
        · exact Or.inl h
        · exact Or.inr ⟨x, h⟩
      · exact Or.inr h

/-- What a finished walk is: the subtree, each node once, a parent before its children. -/
structure BfsDone (parent : α → Option α) (a : α) (out : List α) : Prop where
  /-- The top comes first. -/
  head : out[0]? = some a
  /-- Each node is listed once. -/
  nodup : out.Nodup
  /-- Exactly the subtree is listed. -/
  mem : ∀ d, d ∈ out ↔ Desc parent a d
  /-- A node after the top comes after its parent. -/
  earlier : ∀ j d, out[j]? = some d → 0 < j → ∃ k p, k < j ∧ out[k]? = some p ∧ parent d = some p

theorem bfs_done (hl : Links parent children) (hr : Ranked parent) {n : Nat}
    (hb : ∀ out : List α, out.Nodup → (∀ d ∈ out, Desc parent a d) → out.length ≤ n) :
    BfsDone parent a (bfs children n a) := by
  obtain ⟨j, h, hj⟩ := bfsLoop_spec hl hr (fun out i h => hb out h.nodup h.desc)
    n [a] 0 bfsInv_init (by omega)
  refine ⟨h.head, h.nodup, ?_, ?_⟩
  · intro d
    refine ⟨fun hd => h.desc d hd, ?_⟩
    intro hd
    induction hd with
    | refl => exact List.mem_iff_getElem?.mpr ⟨0, h.head⟩
    | tail _ hc ih =>
      obtain ⟨k, hk⟩ := List.mem_iff_getElem?.mp ih
      have hlt := (List.getElem?_eq_some_iff.mp hk).1
      exact h.closed k _ (Nat.lt_of_lt_of_le hlt hj) hk _ ((hl.mem _ _).mpr hc)
  · intro k d hd hk
    obtain ⟨k', p, _, hlt, hp, hpd⟩ := h.earlier k d hd hk
    exact ⟨k', p, hlt, hp, hpd⟩

end Bfs

theorem length_le_of_nodup_lt {n : Nat} {out : List Nat} (hn : out.Nodup)
    (h : ∀ d ∈ out, d < n) : out.length ≤ n := by
  have hsub : out.toFinset ⊆ Finset.range n := by
    intro d hd
    exact Finset.mem_range.mpr (h d (List.mem_toFinset.mp hd))
  have := Finset.card_le_card hsub
  rwa [List.toFinset_card_of_nodup hn, Finset.card_range] at this

def climb [DecidableEq α] (parent : α → Option α) (anc : α) : Nat → Option α → Bool
  | _, none => false
  | 0, some _ => false
  | fuel + 1, some c => if c = anc then true else climb parent anc fuel (parent c)

theorem desc_of_climb [DecidableEq α] {parent : α → Option α} {anc : α} :
    ∀ (fuel : Nat) (c : α), climb parent anc fuel (some c) = true → Desc parent anc c
  | 0, c, h => by simp [climb] at h
  | fuel + 1, c, h => by
    unfold climb at h
    split at h
    · rename_i hc
      exact hc ▸ Desc.refl c
    · cases hp : parent c with
      | none => rw [hp] at h; simp [climb] at h
      | some p =>
        rw [hp] at h
        exact (desc_of_climb fuel p h).child hp

theorem climb_of_desc [DecidableEq α] {parent : α → Option α} {anc : α} {rank : α → Nat}
    (hrank : ∀ c p, parent c = some p → rank p < rank c) :
    ∀ (fuel : Nat) (c : α), Desc parent anc c → rank c < fuel →
      climb parent anc fuel (some c) = true
  | 0, _, _, hf => by omega
  | fuel + 1, c, h, hf => by
    unfold climb
    split
    · rfl
    · rename_i hne
      rcases desc_cases.mp h with he | ⟨p, hp, hd⟩
      · exact absurd he hne
      · rw [hp]
        exact climb_of_desc hrank fuel p hd (by have := hrank c p hp; omega)

theorem exists_rank_lt {parent : Nat → Option Nat} (hr : Ranked parent) {n : Nat}
    (hn : ∀ c p, parent c = some p → p < n) :
    ∃ rank : Nat → Nat, (∀ c p, parent c = some p → rank p < rank c) ∧ ∀ c, c < n → rank c < n := by
  classical
  refine ⟨fun c => ((Finset.range n).filter (fun a => Desc parent a c ∧ a ≠ c)).card, ?_, ?_⟩
  · intro c p hp
    refine Finset.card_lt_card ?_
    rw [Finset.ssubset_iff_of_subset]
    · refine ⟨p, ?_, by simp⟩
      simp only [Finset.mem_filter, Finset.mem_range]
      refine ⟨hn c p hp, (Desc.refl p).child hp, ?_⟩
      rintro rfl
      exact not_desc_of_child hr hp (Desc.refl p)
    · intro a ha
      simp only [Finset.mem_filter, Finset.mem_range] at ha ⊢
      refine ⟨ha.1, ha.2.1.child hp, ?_⟩
      rintro rfl
      exact not_desc_of_child hr hp ha.2.1
  · intro c hc
    have hlt : ((Finset.range n).filter (fun a => Desc parent a c ∧ a ≠ c)).card
        < (Finset.range n).card := by
      refine Finset.card_lt_card ((Finset.ssubset_iff_of_subset (Finset.filter_subset _ _)).mpr ?_)
      exact ⟨c, Finset.mem_range.mpr hc, by simp⟩
    rwa [Finset.card_range] at hlt

theorem climb_iff {parent : Nat → Option Nat} (hr : Ranked parent) {n : Nat}
    (hn : ∀ c p, parent c = some p → p < n) {anc c : Nat} (hc : c < n) :
    climb parent anc n (some c) = true ↔ Desc parent anc c := by
  obtain ⟨rank, hrank, hlt⟩ := exists_rank_lt hr hn
  exact ⟨desc_of_climb n c, fun h => climb_of_desc hrank n c h (hlt c hc)⟩

end Rsemu.Forest
