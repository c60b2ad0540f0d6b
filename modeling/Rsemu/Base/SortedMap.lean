import Mathlib.Order.Lex
import Mathlib.Data.List.Sort

/-!
# Ordered maps and searching them

A map over a linear order, held as the list of its bindings in ascending order of key: what a
B-tree map is to anyone who can only look things up in it and walk it. A set is a map to
`Unit`.

The list is the map: two maps that answer every lookup alike are equal (`ext_get`), so
whatever is built by insertions does not remember their order.
-/

namespace Rsemu

/-- A map as its entries, in the order of the keys. -/
structure SortedMap (κ ν : Type) [LinearOrder κ] where
  entries : List (κ × ν)
  sorted : entries.Pairwise fun a b => a.1 < b.1

namespace SortedMap

variable {κ ν : Type} [LinearOrder κ]

def empty : SortedMap κ ν := ⟨[], List.Pairwise.nil⟩

def insertEntry (k : κ) (v : ν) : List (κ × ν) → List (κ × ν)
  | [] => [(k, v)]
  | e :: es =>
    if k < e.1 then (k, v) :: e :: es
    else if k = e.1 then (k, v) :: es
    else e :: insertEntry k v es

variable {e : κ × ν} {es : List (κ × ν)} {k : κ} {v : ν} {m : SortedMap κ ν}

theorem mem_insertEntry (h : e ∈ insertEntry k v es) : e = (k, v) ∨ e ∈ es := by
  induction es with
  | nil => exact Or.inl (List.mem_singleton.mp h)
  | cons f es ih =>
    unfold insertEntry at h
    split at h
    · exact List.mem_cons.mp h
    · split at h
      · rcases List.mem_cons.mp h with h | h
        · exact Or.inl h
        · exact Or.inr (List.mem_cons_of_mem _ h)
      · rcases List.mem_cons.mp h with h | h
        · exact Or.inr (h ▸ List.mem_cons_self ..)
        · exact (ih h).imp id (List.mem_cons_of_mem _)

theorem insertEntry_sorted (h : es.Pairwise fun a b => a.1 < b.1) :
    (insertEntry k v es).Pairwise fun a b => a.1 < b.1 := by
  induction es with
  | nil => exact List.pairwise_singleton _ _
  | cons f es ih =>
    obtain ⟨hf, hes⟩ := List.pairwise_cons.mp h
    unfold insertEntry
    split
    · rename_i hlt
      refine List.pairwise_cons.mpr ⟨fun e he => ?_, h⟩
      rcases List.mem_cons.mp he with rfl | he
      · exact hlt
      · exact lt_trans hlt (hf e he)
    · split
      · rename_i heq
        exact List.pairwise_cons.mpr ⟨fun e he => heq ▸ hf e he, hes⟩
      · rename_i hlt hne
        refine List.pairwise_cons.mpr ⟨fun e he => ?_, ih hes⟩
        rcases mem_insertEntry he with rfl | he
        · exact lt_of_le_of_ne (not_lt.mp hlt) (Ne.symm hne)
        · exact hf e he

def insert (m : SortedMap κ ν) (k : κ) (v : ν) : SortedMap κ ν :=
  ⟨insertEntry k v m.entries, insertEntry_sorted m.sorted⟩

def get (m : SortedMap κ ν) (k : κ) : Option ν := (m.entries.find? (·.1 = k)).map (·.2)

theorem key_unique (h : es.Pairwise fun a b => a.1 < b.1) {f : κ × ν} (he : e ∈ es) (hf : f ∈ es)
    (hk : e.1 = f.1) : e = f := by
  induction es with
  | nil => cases he
  | cons g es ih =>
    obtain ⟨hg, hes⟩ := List.pairwise_cons.mp h
    rcases List.mem_cons.mp he with rfl | he'
    · rcases List.mem_cons.mp hf with rfl | hf'
      · rfl
      · exact absurd hk (ne_of_lt (hg f hf'))
    · rcases List.mem_cons.mp hf with rfl | hf'
      · exact absurd hk.symm (ne_of_lt (hg e he'))
      · exact ih hes he' hf'

theorem get_eq_some : m.get k = some v ↔ (k, v) ∈ m.entries := by
  unfold get
  constructor
  · intro h
    obtain ⟨e, he, rfl⟩ := Option.map_eq_some_iff.mp h
    have hk : e.1 = k := by simpa using List.find?_some he
    rw [← hk]
    exact List.mem_of_find?_eq_some he
  · intro h
    cases hf : m.entries.find? (·.1 = k) with
    | none => exact absurd (decide_eq_true rfl) (List.find?_eq_none.mp hf (k, v) h)
    | some e =>
      have hk : e.1 = k := by simpa using List.find?_some hf
      rw [key_unique m.sorted (List.mem_of_find?_eq_some hf) h hk]
      rfl

theorem get_eq_none : m.get k = none ↔ k ∉ m.entries.map (·.1) := by
  rw [Option.eq_none_iff_forall_ne_some]
  constructor
  · intro h hk
    obtain ⟨e, he, rfl⟩ := List.mem_map.mp hk
    exact h e.2 (get_eq_some.mpr he)
  · intro h v hv
    exact h (List.mem_map.mpr ⟨(k, v), get_eq_some.mp hv, rfl⟩)

theorem mem_insertEntry_self : (k, v) ∈ insertEntry k v es := by
  induction es with
  | nil => exact List.mem_singleton_self _
  | cons f es ih =>
    unfold insertEntry
    split
    · exact List.mem_cons_self ..
    · split
      · exact List.mem_cons_self ..
      · exact List.mem_cons_of_mem _ ih

theorem mem_insertEntry_of_ne (h : e ∈ es) (hne : e.1 ≠ k) : e ∈ insertEntry k v es := by
  induction es with
  | nil => cases h
  | cons f es ih =>
    unfold insertEntry
    split
    · exact List.mem_cons_of_mem _ h
    · split
      · rename_i hk
        rcases List.mem_cons.mp h with rfl | h
        · exact absurd hk.symm hne
        · exact List.mem_cons_of_mem _ h
      · rcases List.mem_cons.mp h with rfl | h
        · exact List.mem_cons_self ..
        · exact List.mem_cons_of_mem _ (ih h)

theorem get_insert (m : SortedMap κ ν) (k k' : κ) (v : ν) :
    (m.insert k v).get k' = if k' = k then some v else m.get k' := by
  split
  · rename_i hk
    subst hk
    exact get_eq_some.mpr mem_insertEntry_self
  · rename_i hk
    refine Option.ext fun u => ?_
    rw [get_eq_some, get_eq_some]
    constructor
    · intro h
      rcases mem_insertEntry h with h | h
      · exact absurd (congrArg Prod.fst h) hk
      · exact h
    · exact fun h => mem_insertEntry_of_ne h hk

def erase (m : SortedMap κ ν) (k : κ) : SortedMap κ ν :=
  ⟨m.entries.filter (·.1 ≠ k), m.sorted.filter _⟩

theorem get_erase (m : SortedMap κ ν) (k k' : κ) :
    (m.erase k).get k' = if k' = k then none else m.get k' := by
  refine Option.ext fun u => ?_
  have hmem : (k', u) ∈ (m.erase k).entries ↔ (k', u) ∈ m.entries ∧ k' ≠ k := by
    simp [erase]
  rw [get_eq_some, hmem]
  by_cases hk : k' = k
  · simp [hk]
  · rw [if_neg hk, get_eq_some]
    exact ⟨fun h => h.1, fun h => ⟨h, hk⟩⟩

theorem ext_get {n : SortedMap κ ν} (h : ∀ k, m.get k = n.get k) : m = n := by
  have hmem : ∀ e, e ∈ m.entries ↔ e ∈ n.entries := by
    intro e
    rw [← get_eq_some (k := e.1) (v := e.2), ← get_eq_some (k := e.1) (v := e.2), h]
  have hnodup : ∀ q : SortedMap κ ν, q.entries.Nodup :=
    fun q => q.sorted.imp fun hlt heq => absurd (congrArg Prod.fst heq) (ne_of_lt hlt)
  have hperm : m.entries.Perm n.entries := (List.perm_ext_iff_of_nodup (hnodup m) (hnodup n)).mpr hmem
  have heq : m.entries = n.entries :=
    hperm.eq_of_pairwise (fun a b _ _ h1 h2 => absurd h1 (lt_asymm h2)) m.sorted n.sorted
  obtain ⟨es, _⟩ := m
  subst heq
  rfl

theorem insert_comm (m : SortedMap κ ν) {k' : κ} {v' : ν} (h : k = k' → v = v') :
    (m.insert k v).insert k' v' = (m.insert k' v').insert k v := by
  refine ext_get fun j => ?_
  simp only [get_insert]
  by_cases hj : j = k <;> by_cases hj' : j = k'
  · simp only [if_pos hj, if_pos hj', h (hj.symm.trans hj')]
  · simp only [if_neg hj', if_pos hj]
  · simp only [if_pos hj', if_neg hj]
  · simp only [if_neg hj, if_neg hj']

theorem insertEntry_last (h : ∀ e ∈ es, e.1 < k) : insertEntry k v es = es ++ [(k, v)] := by
  induction es with
  | nil => rfl
  | cons f es ih =>
    have hf := h f (List.mem_cons_self ..)
    unfold insertEntry
    rw [if_neg (lt_asymm hf), if_neg (ne_of_gt hf), ih fun e he => h e (List.mem_cons_of_mem _ he)]
    rfl

def only (m n : SortedMap κ ν) : List κ :=
  (m.entries.filter fun e => (n.get e.1).isNone).map (·.1)

theorem mem_only {n : SortedMap κ ν} : k ∈ m.only n ↔ (∃ v, m.get k = some v) ∧ n.get k = none := by
  unfold only
  simp only [List.mem_map, List.mem_filter, Option.isNone_iff_eq_none, get_eq_some]
  constructor
  · intro h
    obtain ⟨e, ⟨he, hnone⟩, rfl⟩ := h
    exact ⟨⟨e.2, he⟩, hnone⟩
  · intro h
    obtain ⟨⟨v, hv⟩, hnone⟩ := h
    exact ⟨(k, v), ⟨hv, hnone⟩, rfl⟩

theorem keys_nodup (m : SortedMap κ ν) (h : es.Sublist m.entries) : (es.map (·.1)).Nodup :=
  List.pairwise_map.mpr ((m.sorted.sublist h).imp fun hlt => ne_of_lt hlt)

theorem only_nodup (m n : SortedMap κ ν) : (m.only n).Nodup := m.keys_nodup List.filter_sublist

section Changed

variable [DecidableEq ν]

def changed (m n : SortedMap κ ν) : List κ :=
  (m.entries.filter fun e => n.get e.1 ≠ some e.2).map (·.1)

theorem mem_changed {n : SortedMap κ ν} :
    k ∈ m.changed n ↔ ∃ v, m.get k = some v ∧ n.get k ≠ some v := by
  unfold changed
  simp only [List.mem_map, List.mem_filter, decide_eq_true_eq, get_eq_some]
  constructor
  · intro h
    obtain ⟨e, ⟨he, hne⟩, rfl⟩ := h
    exact ⟨e.2, he, hne⟩
  · intro h
    obtain ⟨v, hv, hne⟩ := h
    exact ⟨(k, v), ⟨hv, hne⟩, rfl⟩

theorem mem_changed_or_only {n : SortedMap κ ν} :
    k ∈ m.changed n ++ n.only m ↔ m.get k ≠ n.get k := by
  rw [List.mem_append, mem_changed, mem_only]
  cases hm : m.get k with
  | none =>
    cases hn : n.get k with
    | none => simp
    | some w => simp
  | some v => simp [eq_comm]

theorem changed_or_only_nodup (m n : SortedMap κ ν) : (m.changed n ++ n.only m).Nodup := by
  refine List.nodup_append'.mpr ⟨m.keys_nodup List.filter_sublist, n.only_nodup m, ?_⟩
  intro k hk hk'
  obtain ⟨v, hv, -⟩ := mem_changed.mp hk
  rw [(mem_only.mp hk').2] at hv
  cases hv

end Changed

theorem only_eq_changed (m n : SortedMap κ Unit) : m.only n = m.changed n := by
  unfold only changed
  congr 1
  refine List.filter_congr fun e _ => ?_
  cases n.get e.1 <;> simp

def lastAtMost (m : SortedMap κ ν) (k : κ) : Option (κ × ν) :=
  (m.entries.filter fun e => e.1 ≤ k).getLast?

def firstWithin (m : SortedMap κ ν) (lo hi : κ) : Option (κ × ν) :=
  m.entries.find? fun e => lo ≤ e.1 && e.1 < hi

theorem lastAtMost_eq_none (h : m.lastAtMost k = none) : ∀ e ∈ m.entries, k < e.1 := by
  intro e he
  by_contra hle
  have hmem : e ∈ m.entries.filter fun e => e.1 ≤ k :=
    List.mem_filter.mpr ⟨he, decide_eq_true (not_lt.mp hle)⟩
  rw [List.getLast?_eq_none_iff.mp h] at hmem
  exact List.not_mem_nil hmem

theorem lastAtMost_eq_some (h : m.lastAtMost k = some e) :
    e ∈ m.entries ∧ e.1 ≤ k ∧ ∀ f ∈ m.entries, f.1 ≤ k → f = e ∨ f.1 < e.1 := by
  obtain ⟨init, hsplit⟩ := List.getLast?_eq_some_iff.mp h
  have hmem : e ∈ m.entries.filter fun e => e.1 ≤ k := by
    rw [hsplit]
    exact List.mem_append_right _ (List.mem_singleton_self e)
  obtain ⟨he, hle⟩ := List.mem_filter.mp hmem
  refine ⟨he, of_decide_eq_true hle, fun f hf hfk => ?_⟩
  have hpart : f ∈ m.entries.filter fun e => e.1 ≤ k :=
    List.mem_filter.mpr ⟨hf, decide_eq_true hfk⟩
  have hsorted := m.sorted.sublist (List.filter_sublist (p := fun e => e.1 ≤ k))
  rw [hsplit] at hpart hsorted
  rcases List.mem_append.mp hpart with hinit | hlast
  · exact .inr ((List.pairwise_append.mp hsorted).2.2 f hinit e (List.mem_singleton_self e))
  · exact .inl (List.mem_singleton.mp hlast)

theorem firstWithin_eq_none {lo hi : κ} (h : m.firstWithin lo hi = none) :
    ∀ e ∈ m.entries, lo ≤ e.1 → hi ≤ e.1 := by
  intro e he hlo
  have hout := List.find?_eq_none.mp h e he
  rw [Bool.and_eq_true, decide_eq_true_eq, decide_eq_true_eq] at hout
  exact not_lt.mp fun hhi => hout ⟨hlo, hhi⟩

theorem firstWithin_eq_some {lo hi : κ} (h : m.firstWithin lo hi = some e) :
    e ∈ m.entries ∧ lo ≤ e.1 ∧ e.1 < hi := by
  have hin := List.find?_some h
  rw [Bool.and_eq_true, decide_eq_true_eq, decide_eq_true_eq] at hin
  exact ⟨List.mem_of_find?_eq_some h, hin⟩

end SortedMap

theorem foldlM_perm {ε α σ : Type} {f : σ → α → Except ε σ}
    (hswap : ∀ s x y t, (f s x).bind (f · y) = .ok t → (f s y).bind (f · x) = .ok t)
    {l l' : List α} (hperm : l.Perm l') :
    ∀ {s t : σ}, l.foldlM f s = .ok t → l'.foldlM f s = .ok t := by
  induction hperm with
  | nil => exact fun h => h
  | cons x _ ih =>
    intro s t h
    rw [List.foldlM_cons] at h ⊢
    cases hx : f s x with
    | error e => rw [hx] at h; exact absurd h (by simp [bind, Except.bind])
    | ok s' =>
      rw [hx] at h
      exact ih h
  | swap x y l =>
    intro s t h
    simp only [List.foldlM_cons] at h ⊢
    have hassoc : ∀ a b, (f s a >>= fun s' => f s' b >>= fun s'' => l.foldlM f s'') =
        ((f s a).bind (f · b)).bind fun s'' => l.foldlM f s'' := by
      intro a b
      cases f s a <;> rfl
    rw [hassoc] at h ⊢
    cases hyx : (f s y).bind (f · x) with
    | error e => rw [hyx] at h; exact absurd h (by simp [Except.bind])
    | ok s'' =>
      rw [hyx] at h
      rw [hswap s y x s'' hyx]
      exact h
  | trans _ _ ih ih' => exact fun h => ih' (ih h)

section Search

variable {α : Type} (cmp : α → Ordering)

def bisect (l : List α) : Nat → Nat → Nat → Nat
  | 0, base, _ => base
  | fuel + 1, base, size =>
    if size ≤ 1 then base
    else
      let half := size / 2
      let base := if l[base + half]?.map cmp = some .gt then base else base + half
      bisect l fuel base (size - half)

def binarySearchBy (l : List α) : Option Nat :=
  let i := bisect cmp l l.length 0 l.length
  if l[i]?.map cmp = some .eq then some i else none

variable {cmp}

theorem bisect_eq {l : List α} {t : Nat} (heq : l[t]?.map cmp = some .eq)
    (hlo : ∀ i < t, l[i]?.map cmp = some .lt) (hhi : ∀ i, t < i → i < l.length →
      l[i]?.map cmp = some .gt) :
    ∀ (fuel base size : Nat), size ≤ fuel → base ≤ t → t < base + size →
      base + size ≤ l.length → bisect cmp l fuel base size = t := by
  intro fuel
  induction fuel with
  | zero => intro base size h1 h2 h3; omega
  | succ fuel ih =>
    intro base size hf hb ht hl
    unfold bisect
    split
    · omega
    · rename_i hsize
      have hhalf : 0 < size / 2 ∧ size / 2 * 2 ≤ size := by omega
      -- the middle element is above the target exactly when the target is in the lower half
      by_cases hmid : t < base + size / 2
      · have hgt := hhi (base + size / 2) hmid (by omega)
        simp only [hgt, if_true]
        exact ih base (size - size / 2) (by omega) hb (by omega) (by omega)
      · have hngt : l[base + size / 2]?.map cmp ≠ some .gt := by
          rcases Nat.lt_or_ge (base + size / 2) t with h | h
          · rw [hlo _ h]
            exact fun h => absurd (Option.some.inj h) (by decide)
          · rw [show base + size / 2 = t by omega, heq]
            exact fun h => absurd (Option.some.inj h) (by decide)
        simp only [if_neg hngt]
        exact ih (base + size / 2) (size - size / 2) (by omega) (by omega) (by omega) (by omega)

theorem binarySearchBy_eq {l : List α} {t : Nat} (heq : l[t]?.map cmp = some .eq)
    (hlo : ∀ i < t, l[i]?.map cmp = some .lt)
    (hhi : ∀ i, t < i → i < l.length → l[i]?.map cmp = some .gt) :
    binarySearchBy cmp l = some t := by
  have ht : t < l.length := by
    obtain ⟨x, hx, _⟩ := Option.map_eq_some_iff.mp heq
    exact (List.getElem?_eq_some_iff.mp hx).1
  have hb := bisect_eq heq hlo hhi l.length 0 l.length (Nat.le_refl _) (Nat.zero_le _) (by omega)
    (by omega)
  unfold binarySearchBy
  simp only [hb, heq, if_true]

theorem binarySearchBy_none {l : List α} (h : ∀ x ∈ l, cmp x ≠ .eq) :
    binarySearchBy cmp l = none := by
  refine if_neg fun heq => ?_
  obtain ⟨x, hx, hcmp⟩ := Option.map_eq_some_iff.mp heq
  exact h x (List.mem_of_getElem? hx) hcmp

end Search

end Rsemu
