import Mathlib.Data.List.Sort
import Mathlib.Data.List.Destutter

/-!
# The sweep line

A list of items, each covering a half-open range `[start, stop)` of the naturals, walked from
left to right. The range is cut at every item's two ends; between two consecutive cuts the
covering items do not change, so one decision serves the whole interval. The set of covering
items is *carried* from interval to interval, kept in rank order: items are admitted as the
line passes their start and dropped once their end is behind it.

`active` is the recomputed set at one point, and `sweep_induction` is the rule: a property of
the accumulated result that survives one interval, decided from the set active at each of its
points, holds of the whole sweep.
-/

namespace Rsemu.Sweep

variable {α σ : Type} (start stop : α → Nat) (r : α → α → Prop) [DecidableRel r]

def bounds (items : List α) : List Nat :=
  ((items.flatMap fun i => [start i, stop i]).insertionSort (· ≤ ·)).destutter (· ≠ ·)

def arrivals (items : List α) : List α := items.insertionSort fun i j => start i ≤ start j

def enter (a : Nat) : List α → List α → List α × List α
  | [], act => ([], act)
  | i :: rest, act =>
    if start i ≤ a then enter a rest (act.orderedInsert r i) else (i :: rest, act)

def run (emit : Nat → Nat → List α → σ → σ) : List Nat → List α → List α → σ → σ
  | a :: b :: bs, arr, act, s =>
    let p := enter start r a arr act
    let act' := p.2.filter fun i => b ≤ stop i
    run emit (b :: bs) p.1 act' (if act'.isEmpty then s else emit a b act' s)
  | _, _, _, s => s

def sweep (emit : Nat → Nat → List α → σ → σ) (items : List α) (s : σ) : σ :=
  run start stop r emit (bounds start stop items) (arrivals start items) [] s

def active (items : List α) (x : Nat) : List α :=
  (items.insertionSort r).filter fun i => start i ≤ x ∧ x < stop i

section

variable {start stop : α → Nat} {r : α → α → Prop} [DecidableRel r] {items : List α}

theorem mem_active {x : Nat} {i : α} :
    i ∈ active start stop r items x ↔ i ∈ items ∧ start i ≤ x ∧ x < stop i := by
  simp [active]

theorem mem_destutter'_ne {x : Nat} (l : List Nat) (a : Nat) :
    x ∈ l.destutter' (· ≠ ·) a ↔ x = a ∨ x ∈ l := by
  induction l generalizing a with
  | nil => simp
  | cons b l ih =>
    by_cases h : a = b
    · subst h
      rw [List.destutter'_cons_neg _ (by simp), ih]
      simp
    · rw [List.destutter'_cons_pos _ h, List.mem_cons, ih, List.mem_cons]

theorem mem_destutter_ne {x : Nat} (l : List Nat) : x ∈ l.destutter (· ≠ ·) ↔ x ∈ l := by
  cases l with
  | nil => simp
  | cons a l => rw [List.destutter_cons', mem_destutter'_ne, List.mem_cons]

theorem mem_bounds {x : Nat} :
    x ∈ bounds start stop items ↔ ∃ i ∈ items, x = start i ∨ x = stop i := by
  unfold bounds
  rw [mem_destutter_ne, List.mem_insertionSort]
  simp

theorem bounds_sorted (items : List α) : (bounds start stop items).Pairwise (· < ·) := by
  have hle : (bounds start stop items).Pairwise (· ≤ ·) :=
    List.Pairwise.sublist (List.destutter_sublist _ _) (List.pairwise_insertionSort _ _)
  have hne : (bounds start stop items).IsChain (· ≠ ·) := List.isChain_destutter _ _
  rw [← List.isChain_iff_pairwise, List.isChain_iff_getElem] at hle ⊢
  rw [List.isChain_iff_getElem] at hne
  intro i hi
  exact Nat.lt_of_le_of_ne (hle i hi) (hne i hi)

/--
**What the sweep carries up to the point `lo`**: the items behind it and the items
ahead split the list, those ahead are still in arrival order, and the active list
is what is left of those behind, in rank order.
-/
structure Carried (start stop : α → Nat) (r : α → α → Prop) (items : List α) (lo : Nat)
    (past arr act : List α) : Prop where
  /-- Nothing is lost between the two halves. -/
  split : (past ++ arr).Perm items
  /-- The rest arrives in order. -/
  ordered : arr.Pairwise fun i j => start i ≤ start j
  /-- What has arrived starts at or before the line. -/
  begun : ∀ i ∈ past, start i ≤ lo
  /-- The active items are the arrived ones that have not ended. -/
  live : act.Perm (past.filter fun i => lo ≤ stop i)
  /-- They stand in rank order. -/
  ranked : act.Pairwise r

theorem enter_spec [Std.Total r] [IsTrans α r] (a : Nat) (arr act : List α)
    (hs : arr.Pairwise fun i j => start i ≤ start j) (hr : act.Pairwise r) :
    ∃ adm, arr = adm ++ (enter start r a arr act).1 ∧
      (enter start r a arr act).2.Perm (adm ++ act) ∧
      (enter start r a arr act).2.Pairwise r ∧
      (∀ i ∈ adm, start i ≤ a) ∧ ∀ i ∈ (enter start r a arr act).1, a < start i := by
  induction arr generalizing act with
  | nil => exact ⟨[], rfl, List.Perm.refl _, hr, by simp, by simp [enter]⟩
  | cons i rest ih =>
    obtain ⟨hi, hs'⟩ := List.pairwise_cons.mp hs
    unfold enter
    by_cases ha : start i ≤ a
    · simp only [if_pos ha]
      obtain ⟨adm, harr, hact, hrk, hadm, hrest⟩ :=
        ih (act.orderedInsert r i) hs' (hr.orderedInsert i)
      refine ⟨i :: adm, ?_, ?_, hrk, ?_, hrest⟩
      · rw [List.cons_append, ← harr]
      · have hins : (adm ++ act.orderedInsert r i).Perm (adm ++ i :: act) :=
          (List.perm_orderedInsert r i act).append_left adm
        exact (hact.trans hins).trans List.perm_middle
      · intro j hj
        rcases List.mem_cons.mp hj with rfl | hj
        · exact ha
        · exact hadm j hj
    · simp only [if_neg ha]
      refine ⟨[], rfl, List.Perm.refl _, hr, by simp, ?_⟩
      -- the rest starts no earlier than the first one, which is already past the line
      intro j hj
      rcases List.mem_cons.mp hj with rfl | hj
      · omega
      · have := hi j hj
        omega

theorem Carried.step [Std.Total r] [IsTrans α r] {a b : Nat} {past arr act : List α}
    (hanti : ∀ i ∈ items, ∀ j ∈ items, r i j → r j i → i = j) (hab : a < b)
    (hstart : ∀ i ∈ items, start i ≤ a ∨ b ≤ start i) (hstop : ∀ i ∈ items, stop i ≤ a ∨ b ≤ stop i)
    (h : Carried start stop r items a past arr act) :
    (∃ past', Carried start stop r items b past' (enter start r a arr act).1
        ((enter start r a arr act).2.filter fun i => b ≤ stop i)) ∧
      ∀ x, a ≤ x → x < b →
        active start stop r items x = (enter start r a arr act).2.filter fun i => b ≤ stop i := by
  obtain ⟨adm, harr, hact, hrk, hadm, hrest⟩ := enter_spec a arr act h.ordered h.ranked
  have hbegun : ∀ i ∈ past ++ adm, start i ≤ a := by
    intro i hi
    rcases List.mem_append.mp hi with hi | hi
    · exact h.begun i hi
    · exact hadm i hi
  have hsplit : (past ++ adm ++ (enter start r a arr act).1).Perm items := by
    rw [List.append_assoc, ← harr]
    exact h.split
  -- an item that has ended before `a` has ended before `b`
  have hlive : ((enter start r a arr act).2.filter fun i => b ≤ stop i).Perm
      ((past ++ adm).filter fun i => b ≤ stop i) := by
    refine ((hact.trans List.perm_append_comm).filter _).trans ?_
    rw [List.filter_append, List.filter_append]
    refine List.Perm.append_right _ ((h.live.filter _).trans ?_)
    rw [List.filter_filter]
    refine List.Perm.of_eq (List.filter_congr fun i _ => ?_)
    by_cases hb : b ≤ stop i <;> simp [hb]
    omega
  refine ⟨⟨past ++ adm, hsplit, ?_, fun i hi => by have := hbegun i hi; omega, hlive,
    hrk.filter _⟩, ?_⟩
  · have ho := h.ordered
    rw [harr] at ho
    exact (List.pairwise_append.mp ho).2.1
  · intro x hax hxb
    refine List.Perm.eq_of_pairwise ?_ ((List.pairwise_insertionSort r items).filter _)
      (hrk.filter _) ?_
    · intro i j hi hj
      have hj' : j ∈ items := hsplit.subset
        (List.mem_append_left _ (List.mem_of_mem_filter (hlive.subset hj)))
      exact hanti i (mem_active.mp hi).1 j hj'
    · refine ((List.perm_insertionSort r items).filter _).trans ?_
      refine ((hsplit.symm.filter _)).trans ?_
      rw [List.filter_append]
      have hnone : (enter start r a arr act).1.filter
          (fun i => decide (start i ≤ x ∧ x < stop i)) = [] := by
        rw [List.filter_eq_nil_iff]
        intro i hi
        have hlt := hrest i hi
        have := hstart i (hsplit.subset (List.mem_append_right _ hi))
        simp only [decide_eq_true_eq]
        omega
      rw [hnone, List.append_nil]
      refine (List.Perm.of_eq (List.filter_congr fun i hi => ?_)).trans hlive.symm
      have h1 := hbegun i hi
      have h2 := hstop i (hsplit.subset (List.mem_append_left _ hi))
      rw [decide_eq_decide]
      omega

variable {emit : Nat → Nat → List α → σ → σ}

theorem run_induction [Std.Total r] [IsTrans α r] {P : Nat → σ → Prop} {hi : Nat}
    (hanti : ∀ i ∈ items, ∀ j ∈ items, r i j → r j i → i = j) (step : ∀ a b s act, a < b → b ≤ hi →
      (∀ x, a ≤ x → x < b → active start stop r items x = act) → P a s →
      P b (if act.isEmpty then s else emit a b act s)) :
    ∀ (bs : List Nat) (a : Nat) {past arr act : List α} {s : σ}, (a :: bs).Pairwise (· < ·) →
      (∀ b ∈ bs, b ≤ hi) →
      (∀ i ∈ items, (start i ≤ a ∨ start i ∈ bs) ∧ (stop i ≤ a ∨ stop i ∈ bs)) →
      Carried start stop r items a past arr act → P a s →
      ∃ b, (∀ i ∈ items, stop i ≤ b) ∧ P b (run start stop r emit (a :: bs) arr act s) := by
  intro bs
  induction bs with
  | nil =>
    intro a past arr act s _ _ hin _ hP
    refine ⟨a, fun i hi => ?_, hP⟩
    rcases (hin i hi).2 with h | h
    · exact h
    · exact absurd h (by simp)
  | cons b bs ih =>
    intro a past arr act s hsort hbs hin hc hP
    obtain ⟨hab, hsort'⟩ := List.pairwise_cons.mp hsort
    have hmem : ∀ {x}, x ∈ b :: bs → b ≤ x := by
      intro x hx
      rcases List.mem_cons.mp hx with rfl | hx
      · exact Nat.le_refl _
      · exact Nat.le_of_lt ((List.pairwise_cons.mp hsort').1 x hx)
    have hnext : ∀ {x}, (x ≤ a ∨ x ∈ b :: bs) → x ≤ b ∨ x ∈ bs := by
      intro x hx
      rcases hx with hx | hx
      · have := hab b (List.mem_cons_self ..)
        exact Or.inl (by omega)
      · rcases List.mem_cons.mp hx with rfl | hx
        · exact Or.inl (Nat.le_refl _)
        · exact Or.inr hx
    obtain ⟨⟨past', hc'⟩, hactive⟩ := hc.step hanti (hab b (List.mem_cons_self ..))
      (fun i hi => (hin i hi).1.imp_right hmem) (fun i hi => (hin i hi).2.imp_right hmem)
    have hP' := step a b s _ (hab b (List.mem_cons_self ..)) (hbs b (List.mem_cons_self ..))
      hactive hP
    exact ih b hsort' (fun c hc => hbs c (List.mem_cons_of_mem _ hc))
      (fun i hi => ⟨hnext (hin i hi).1, hnext (hin i hi).2⟩) hc' hP'

theorem sweep_induction [Std.Total r] [IsTrans α r] {P : Nat → σ → Prop} {s : σ} (hi : Nat)
    (hanti : ∀ i ∈ items, ∀ j ∈ items, r i j → r j i → i = j)
    (hhi : ∀ i ∈ items, start i ≤ hi ∧ stop i ≤ hi) (init : ∀ a, (∀ i ∈ items, a ≤ start i) → P a s)
    (step : ∀ a b s act, a < b → b ≤ hi →
      (∀ x, a ≤ x → x < b → active start stop r items x = act) → P a s →
      P b (if act.isEmpty then s else emit a b act s)) :
    ∃ b, (∀ i ∈ items, stop i ≤ b) ∧ P b (sweep start stop r emit items s) := by
  unfold sweep
  cases hb : bounds start stop items with
  | nil =>
    have hnil : ∀ i, i ∉ items := by
      intro i hi
      have : start i ∈ bounds start stop items := mem_bounds.mpr ⟨i, hi, Or.inl rfl⟩
      rw [hb] at this
      cases this
    exact ⟨0, fun i hi => absurd hi (hnil i), init 0 fun i hi => absurd hi (hnil i)⟩
  | cons a bs =>
    have hsort : (a :: bs).Pairwise (· < ·) := hb ▸ bounds_sorted items
    have hin : ∀ i ∈ items, start i ∈ a :: bs ∧ stop i ∈ a :: bs := by
      intro i hi
      rw [← hb]
      exact ⟨mem_bounds.mpr ⟨i, hi, Or.inl rfl⟩, mem_bounds.mpr ⟨i, hi, Or.inr rfl⟩⟩
    have hle : ∀ {x}, x ∈ a :: bs → a ≤ x := by
      intro x hx
      rcases List.mem_cons.mp hx with rfl | hx
      · exact Nat.le_refl _
      · exact Nat.le_of_lt ((List.pairwise_cons.mp hsort).1 x hx)
    have hor : ∀ {x}, x ∈ a :: bs → x ≤ a ∨ x ∈ bs := by
      intro x hx
      rcases List.mem_cons.mp hx with rfl | hx
      · exact Or.inl (Nat.le_refl _)
      · exact Or.inr hx
    have hc : Carried start stop r items a [] (arrivals start items) [] :=
      ⟨List.perm_insertionSort _ items, List.pairwise_insertionSort _ items, by simp, by simp,
        List.Pairwise.nil⟩
    have hbs : ∀ b ∈ bs, b ≤ hi := by
      intro b hb'
      obtain ⟨i, hi, hi'⟩ := mem_bounds.mp (hb ▸ List.mem_cons_of_mem a hb')
      rcases hi' with rfl | rfl
      · exact (hhi i hi).1
      · exact (hhi i hi).2
    exact run_induction hanti step bs a hsort hbs
      (fun i hi => ⟨hor (hin i hi).1, hor (hin i hi).2⟩) hc
      (init a fun i hi => hle (hin i hi).1)

theorem mem_enter (a : Nat) {i : α} : ∀ (arr act : List α),
    (i ∈ (enter start r a arr act).1 → i ∈ arr) ∧
      (i ∈ (enter start r a arr act).2 → i ∈ arr ∨ i ∈ act) := by
  intro arr
  induction arr with
  | nil => exact fun act => ⟨id, Or.inr⟩
  | cons j rest ih =>
    intro act
    unfold enter
    split
    · obtain ⟨h1, h2⟩ := ih (act.orderedInsert r j)
      refine ⟨fun h => List.mem_cons_of_mem _ (h1 h), fun h => ?_⟩
      rcases h2 h with h | h
      · exact Or.inl (List.mem_cons_of_mem _ h)
      · rcases (List.mem_orderedInsert r).mp h with rfl | h
        · exact Or.inl (List.mem_cons_self ..)
        · exact Or.inr h
    · exact ⟨id, Or.inr⟩

theorem run_invariant {P : σ → Prop}
    (step : ∀ a b act s, (∀ i ∈ act, i ∈ items) → P s → P (emit a b act s)) :
    ∀ (bs : List Nat) {arr act : List α} {s : σ}, (∀ i ∈ arr, i ∈ items) →
      (∀ i ∈ act, i ∈ items) → P s → P (run start stop r emit bs arr act s) := by
  intro bs
  induction bs with
  | nil => exact fun _ _ hP => hP
  | cons a bs ih =>
    intro arr act s harr hact hP
    cases bs with
    | nil => exact hP
    | cons b bs =>
      have hact' : ∀ i ∈ (enter start r a arr act).2.filter (fun i => b ≤ stop i),
          i ∈ items := by
        intro i hi
        rcases (mem_enter a arr act).2 (List.mem_of_mem_filter hi) with h | h
        · exact harr i h
        · exact hact i h
      refine ih (fun i hi => harr i ((mem_enter a arr act).1 hi)) hact' ?_
      split
      · exact hP
      · exact step a b _ s hact' hP

theorem sweep_invariant {P : σ → Prop} {s : σ} (init : P s)
    (step : ∀ a b act s, (∀ i ∈ act, i ∈ items) → P s → P (emit a b act s)) :
    P (sweep start stop r emit items s) :=
  run_invariant step _
    (fun i hi => (List.perm_insertionSort _ items).subset hi) (fun i hi => absurd hi (by simp)) init

end

end Rsemu.Sweep
