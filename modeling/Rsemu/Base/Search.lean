import Mathlib.Logic.Relation
import Mathlib.Logic.Function.Basic
import Mathlib.Data.List.Nodup
import Mathlib.Algebra.GroupWithZero.Nat
import Mathlib.Algebra.Order.BigOperators.Group.Finset

/-!
# Depth-first search with a stack

A search that keeps its own stack: every node on it with the number of its edges already
followed. A node is pending while it is on the stack and done once all its edges were
followed.

`Walking` is what holds between two steps. The pending nodes are the stack, each joined to the
next by an edge, so that an edge to one of them closes a cycle (`cycle_of_pending`). The done
nodes are closed under edges and ranked, and no later step touches their ranks. Every step
follows an edge or finishes a node, so as many steps as there are nodes and edges are enough.
-/

namespace Rsemu.Search

open Function Relation

variable {α : Type} {edges : Nat → List (Nat × α)}

/-- How far the search is with a node. -/
inductive Mark where
  | unseen
  | pending
  | done
  deriving DecidableEq

/-- The marks of a depth-first search, and the order nodes were finished in. -/
structure Visit where
  mark : Nat → Mark
  rank : Nat → Nat

/-- An edge to a pending node: the stack, its ends and its label. -/
structure Back (α : Type) where
  stack : List (Nat × Nat)
  node : Nat
  to_ : Nat
  label : α

def raise (node : Nat) (rank : Nat → Nat) (es : List (Nat × α)) : Nat → Nat :=
  es.foldl (fun rank e => update rank node (max (rank node) (rank e.1 + 1))) rank

def Visit.enter (v : Visit) (n : Nat) : Visit := { v with mark := update v.mark n .pending }

def Visit.pass (v : Visit) (node to_ : Nat) : Visit :=
  { v with rank := update v.rank node (max (v.rank node) (v.rank to_ + 1)) }

def Visit.finish (v : Visit) (node : Nat) (es : List (Nat × α)) : Visit :=
  ⟨update v.mark node .done, raise node v.rank es⟩

/-- Search on from a stack, within a number of steps; the top of the stack is its first. -/
def walk (edges : Nat → List (Nat × α)) :
    Nat → List (Nat × Nat) → Visit → Option (Except (Back α) Visit)
  | 0, _, _ => none
  | _ + 1, [], v => some (.ok v)
  | steps + 1, (node, next) :: stack, v =>
    match (edges node)[next]? with
    | some (to_, label) =>
      match v.mark to_ with
      | .pending => some (.error ⟨(node, next + 1) :: stack, node, to_, label⟩)
      | .unseen => walk edges steps ((to_, 0) :: (node, next + 1) :: stack) (v.enter to_)
      | .done => walk edges steps ((node, next + 1) :: stack) (v.pass node to_)
    | none => walk edges steps stack (v.finish node (edges node))

/-- Search from every node that is still unseen. -/
def searchFrom (edges : Nat → List (Nat × α)) (steps : Nat) :
    List Nat → Visit → Option (Except (Back α) Visit)
  | [], v => some (.ok v)
  | start :: starts, v =>
    if v.mark start ≠ .unseen then searchFrom edges steps starts v
    else
      match walk edges steps [(start, 0)] (v.enter start) with
      | none => none
      | some (.error b) => some (.error b)
      | some (.ok v) => searchFrom edges steps starts v

def search (edges : Nat → List (Nat × α)) (steps count : Nat) : Option (Except (Back α) Visit) :=
  searchFrom edges steps (List.range count) ⟨fun _ => .unseen, fun _ => 0⟩

@[simp] theorem Visit.mark_enter (v : Visit) (n m : Nat) :
    (v.enter n).mark m = if m = n then .pending else v.mark m := update_apply ..

@[simp] theorem Visit.mark_pass (v : Visit) (node to_ : Nat) : (v.pass node to_).mark = v.mark := rfl

variable {count next node steps : Nat} {stack : List (Nat × Nat)} {v : Visit}
  {r : Except (Back α) Visit}

theorem Visit.rank_pass (v : Visit) {n : Nat} (h : n ≠ node) (to_ : Nat) :
    (v.pass node to_).rank n = v.rank n := update_of_ne h _ _

@[simp] theorem Visit.mark_finish (v : Visit) (node n : Nat) (es : List (Nat × α)) :
    (v.finish node es).mark n = if n = node then .done else v.mark n := update_apply ..

@[simp] theorem Visit.rank_finish (v : Visit) (node : Nat) (es : List (Nat × α)) :
    (v.finish node es).rank = raise node v.rank es := rfl

/-- An edge, whatever its label. -/
def Edge (edges : Nat → List (Nat × α)) (a b : Nat) : Prop := ∃ label, (b, label) ∈ edges a

/-- Some node leads back to itself. -/
def Cyclic (edges : Nat → List (Nat × α)) : Prop := ∃ n, TransGen (Edge edges) n n

theorem raise_other {n : Nat} (h : n ≠ node) (rank : Nat → Nat) (es : List (Nat × α)) :
    raise node rank es n = rank n := by
  induction es generalizing rank with
  | nil => rfl
  | cons e es ih => rw [raise, List.foldl_cons, ← raise, ih, update_of_ne h]

theorem le_raise (node : Nat) (rank : Nat → Nat) (es : List (Nat × α)) :
    rank node ≤ raise node rank es node := by
  induction es generalizing rank with
  | nil => exact le_rfl
  | cons e es ih =>
    rw [raise, List.foldl_cons, ← raise]
    refine le_trans ?_ (ih _)
    rw [update_self]
    exact le_max_left _ _

theorem lt_raise {rank : Nat → Nat} {es : List (Nat × α)} {e : Nat × α} (he : e ∈ es)
    (hne : ∀ e ∈ es, e.1 ≠ node) : rank e.1 < raise node rank es node := by
  induction es generalizing rank with
  | nil => cases he
  | cons first es ih =>
    rw [raise, List.foldl_cons, ← raise]
    have hrest : ∀ e ∈ es, e.1 ≠ node := fun e he => hne e (List.mem_cons_of_mem _ he)
    rcases List.mem_cons.mp he with rfl | he
    · refine lt_of_lt_of_le ?_ (le_raise _ _ _)
      rw [update_self]
      exact lt_of_lt_of_le (Nat.lt_succ_self _) (le_max_right _ _)
    · have hlt := @ih (update rank node (max (rank node) (rank first.1 + 1))) he hrest
      rwa [update_of_ne (hrest e he)] at hlt

/-- The nodes of a stack, and what stands on top of them. -/
def Opened (edges : Nat → List (Nat × α)) (v : Visit) : Option Nat → List (Nat × Nat) → Prop
  | _, [] => True
  | above, (node, next) :: stack =>
    (∀ j < next, ∀ e, (edges node)[j]? = some e → v.mark e.1 = .done ∨ above = some e.1) ∧
      (∀ n, above = some n → Edge edges node n) ∧ Opened edges v (some node) stack

/-- The edges of finished nodes lead to finished nodes of lower rank. -/
def Ranked (edges : Nat → List (Nat × α)) (v : Visit) : Prop :=
  ∀ n, v.mark n = .done → ∀ e ∈ edges n, v.mark e.1 = .done ∧ v.rank e.1 < v.rank n

/-- What holds between two steps. -/
structure Walking (edges : Nat → List (Nat × α)) (stack : List (Nat × Nat)) (v : Visit) : Prop where
  pending : ∀ n, v.mark n = .pending ↔ n ∈ stack.map Prod.fst
  nodup : (stack.map Prod.fst).Nodup
  opened : Opened edges v none stack
  ranked : Ranked edges v

theorem Opened.mono {w : Visit} (h : ∀ n, v.mark n = .done → w.mark n = .done) {above : Option Nat}
    (ho : Opened edges v above stack) : Opened edges w above stack := by
  induction stack generalizing above with
  | nil => trivial
  | cons top stack ih =>
    obtain ⟨hdone, hedge, hrest⟩ := ho
    exact ⟨fun j hj e he => (hdone j hj e he).imp_left (h _), hedge, ih hrest⟩

theorem Opened.leads {above : Option Nat} (h : Opened edges v above ((node, next) :: stack))
    {n : Nat} (hn : n ∈ ((node, next) :: stack).map Prod.fst) :
    ReflTransGen (Edge edges) n node := by
  induction stack generalizing above node next with
  | nil =>
    rw [List.map_cons, List.map_nil, List.mem_singleton] at hn
    rw [hn]
  | cons below stack ih =>
    rw [List.map_cons, List.mem_cons] at hn
    rcases hn with rfl | hn
    · exact ReflTransGen.refl
    · exact (ih h.2.2 hn).tail (h.2.2.2.1 node rfl)

section

variable (h : Walking edges ((node, next) :: stack) v)
include h

theorem cycle_of_pending {e : Nat × α}
    (he : e ∈ edges node) (hpending : v.mark e.1 = .pending) : Cyclic edges := by
  have hlead := h.opened.leads ((h.pending e.1).mp hpending)
  exact ⟨node, TransGen.head' ⟨e.2, he⟩ hlead⟩

theorem Walking.enter {e : Nat × α}
    (he : (edges node)[next]? = some e) (hunseen : v.mark e.1 = .unseen) :
    Walking edges ((e.1, 0) :: (node, next + 1) :: stack) (v.enter e.1) := by
  have hfresh : e.1 ∉ ((node, next) :: stack).map Prod.fst := by
    rw [← h.pending, hunseen]
    decide
  have hdone : ∀ n, v.mark n = .done → (v.enter e.1).mark n = .done := by
    intro n hn
    rw [Visit.mark_enter, if_neg, hn]
    rintro rfl
    rw [hunseen] at hn
    cases hn
  refine ⟨fun n => ?_, List.nodup_cons.mpr ⟨hfresh, h.nodup⟩, ⟨?_, ?_, ?_, ?_, ?_⟩, ?_⟩
  · rw [Visit.mark_enter, List.map_cons, List.mem_cons]
    split
    · rename_i hn
      exact iff_of_true rfl (Or.inl hn)
    · rename_i hn
      rw [or_iff_right hn]
      exact h.pending n
  · exact fun j hj => absurd hj (Nat.not_lt_zero j)
  · exact fun n hn => by cases hn
  · -- the edge just followed leads to the new top
    intro j hj e' he'
    rcases Nat.lt_succ_iff_lt_or_eq.mp hj with hj | rfl
    · exact Or.inl (hdone _ ((h.opened.1 j hj e' he').resolve_right (by simp)))
    · rw [he] at he'
      cases he'
      exact Or.inr rfl
  · intro n hn
    cases hn
    exact ⟨e.2, List.mem_of_getElem? he⟩
  · exact h.opened.2.2.mono hdone
  · intro n hn e' he'
    rw [Visit.mark_enter] at hn
    split at hn
    · cases hn
    · obtain ⟨hd, hlt⟩ := h.ranked n hn e' he'
      exact ⟨hdone _ hd, hlt⟩

theorem Walking.top : v.mark node = .pending :=
  (h.pending node).mpr List.mem_cons_self

theorem Walking.pass {e : Nat × α}
    (he : (edges node)[next]? = some e) (hdone : v.mark e.1 = .done) :
    Walking edges ((node, next + 1) :: stack) (v.pass node e.1) := by
  have hrest : Opened edges (v.pass node e.1) (some node) stack :=
    h.opened.2.2.mono fun n hn => by rwa [Visit.mark_pass]
  refine ⟨h.pending, h.nodup, ⟨?_, h.opened.2.1, hrest⟩, ?_⟩
  · intro j hj e' he'
    rcases Nat.lt_succ_iff_lt_or_eq.mp hj with hj | rfl
    · exact h.opened.1 j hj e' he'
    · rw [he] at he'
      cases he'
      exact Or.inl hdone
  · -- the ranks of done nodes stay
    intro n hn e' he'
    have hne : ∀ m, v.mark m = .done → m ≠ node := by
      rintro m hm rfl
      rw [h.top] at hm
      cases hm
    obtain ⟨hd, hlt⟩ := h.ranked n hn e' he'
    rw [Visit.rank_pass v (hne n hn), Visit.rank_pass v (hne _ hd)]
    exact ⟨hd, hlt⟩

theorem Walking.finish
    (hlast : (edges node)[next]? = none) : Walking edges stack (v.finish node (edges node)) := by
  have hfresh : node ∉ stack.map Prod.fst := (List.nodup_cons.mp h.nodup).1
  have hne : ∀ m, v.mark m = .done → m ≠ node := by
    rintro m hm rfl
    rw [h.top] at hm
    cases hm
  have hdone : ∀ n, v.mark n = .done → (v.finish node (edges node)).mark n = .done := by
    intro n hn
    rw [Visit.mark_finish, if_neg (hne n hn), hn]
  have hall : ∀ e ∈ edges node, v.mark e.1 = .done := by
    intro e he
    obtain ⟨j, hj⟩ := List.mem_iff_getElem?.mp he
    have hlt : j < next := by
      have hj' := (List.getElem?_eq_some_iff.mp hj).1
      have hnext := List.getElem?_eq_none_iff.mp hlast
      omega
    exact (h.opened.1 j hlt e hj).resolve_right (by simp)
  refine ⟨fun n => ?_, (List.nodup_cons.mp h.nodup).2, ?_, ?_⟩
  · rw [Visit.mark_finish]
    split
    · rename_i hn
      rw [hn]
      exact iff_of_false (by decide) hfresh
    · rename_i hn
      rw [h.pending n, List.map_cons, List.mem_cons, or_iff_right hn]
  · -- what was under the node leads to it, and it is done
    have hopened := h.opened.2.2
    cases stack with
    | nil => trivial
    | cons below stack =>
      refine ⟨fun j hj e he => Or.inl ?_, fun n hn => (nomatch hn), hopened.2.2.mono hdone⟩
      rcases hopened.1 j hj e he with hd | hd
      · exact hdone _ hd
      · rw [Visit.mark_finish, if_pos (Option.some.inj hd).symm]
  · intro n hn e he
    rw [Visit.mark_finish] at hn
    split at hn
    · rename_i hnode
      rw [hnode] at he ⊢
      refine ⟨hdone _ (hall e he), ?_⟩
      rw [Visit.rank_finish, raise_other (hne _ (hall e he))]
      exact lt_raise he fun e' he' => hne _ (hall e' he')
    · rename_i hnode
      obtain ⟨hd, hlt⟩ := h.ranked n hn e he
      rw [Visit.rank_finish, raise_other hnode, raise_other (hne _ hd)]
      exact ⟨hdone _ hd, hlt⟩

end

theorem Walking.start (h : Walking edges [] v) {start : Nat} (hunseen : v.mark start = .unseen) :
    Walking edges [(start, 0)] (v.enter start) := by
  refine ⟨fun n => ?_, List.nodup_singleton _, ⟨?_, ?_, trivial⟩, ?_⟩
  · rw [Visit.mark_enter, List.map_cons, List.map_nil, List.mem_singleton]
    split
    · rename_i hn
      exact iff_of_true rfl hn
    · rename_i hn
      exact iff_of_false (fun hp => absurd ((h.pending n).mp hp) List.not_mem_nil) hn
  · exact fun j hj => absurd hj (Nat.not_lt_zero j)
  · exact fun n hn => nomatch hn
  · intro n hn e he
    rw [Visit.mark_enter] at hn
    split at hn
    · cases hn
    · obtain ⟨hd, hlt⟩ := h.ranked n hn e he
      refine ⟨?_, hlt⟩
      rw [Visit.mark_enter, if_neg, hd]
      intro hstart
      rw [hstart, hunseen] at hd
      cases hd

theorem walking_new : Walking edges [] ⟨fun _ => .unseen, fun _ => 0⟩ :=
  ⟨fun _ => iff_of_false Mark.noConfusion List.not_mem_nil, List.nodup_nil, trivial,
    fun _ hn => nomatch hn⟩

theorem walk_spec (h : Walking edges stack v) (hr : walk edges steps stack v = some r) :
    (∀ b, r = .error b → Cyclic edges) ∧
      ∀ w, r = .ok w → Walking edges [] w ∧
        (∀ n, v.mark n ≠ .unseen → w.mark n = .done) := by
  induction steps generalizing stack v with
  | zero => exact absurd hr (by simp [walk])
  | succ steps ih =>
    cases stack with
    | nil =>
      rw [walk, Option.some.injEq] at hr
      subst hr
      refine ⟨fun b hb => (nomatch hb), fun w hw => ?_⟩
      cases hw
      refine ⟨h, fun n hn => ?_⟩
      cases hmark : v.mark n with
      | unseen => exact absurd hmark hn
      | pending => exact absurd ((h.pending n).mp hmark) List.not_mem_nil
      | done => rfl
    | cons top stack =>
      obtain ⟨node, next⟩ := top
      rw [walk] at hr
      cases hedge : (edges node)[next]? with
      | none =>
        rw [hedge] at hr
        obtain ⟨herror, hok⟩ := ih (h.finish hedge) hr
        refine ⟨herror, fun w hw => ⟨(hok w hw).1, fun n hn => (hok w hw).2 n ?_⟩⟩
        rw [Visit.mark_finish]
        split
        · exact Mark.noConfusion
        · exact hn
      | some e =>
        rw [hedge] at hr
        dsimp only at hr
        cases hmark : v.mark e.1 with
        | pending =>
          rw [hmark, Option.some.injEq] at hr
          subst hr
          refine ⟨fun b _ => ?_, fun w hw => nomatch hw⟩
          exact cycle_of_pending h (List.mem_of_getElem? hedge) hmark
        | unseen =>
          rw [hmark] at hr
          obtain ⟨herror, hok⟩ := ih (h.enter hedge hmark) hr
          refine ⟨herror, fun w hw => ⟨(hok w hw).1, fun n hn => (hok w hw).2 n ?_⟩⟩
          rw [Visit.mark_enter]
          split
          · exact Mark.noConfusion
          · exact hn
        | done =>
          rw [hmark] at hr
          exact ih (v := v.pass node e.1) (h.pass hedge hmark) hr

theorem searchFrom_spec {starts : List Nat} (h : Walking edges [] v)
    (hr : searchFrom edges steps starts v = some r) :
    (∀ b, r = .error b → Cyclic edges) ∧
      ∀ w, r = .ok w → Walking edges [] w ∧ (∀ n, v.mark n = .done → w.mark n = .done) ∧
        ∀ n ∈ starts, w.mark n = .done := by
  induction starts generalizing v with
  | nil =>
    rw [searchFrom, Option.some.injEq] at hr
    subst hr
    refine ⟨fun b hb => (nomatch hb), fun w hw => ?_⟩
    cases hw
    exact ⟨h, fun n hn => hn, fun n hn => absurd hn List.not_mem_nil⟩
  | cons start starts ih =>
    rw [searchFrom] at hr
    split at hr
    · rename_i hseen
      have hdone : v.mark start = .done := by
        cases hmark : v.mark start with
        | unseen => exact absurd hmark hseen
        | pending => exact absurd ((h.pending start).mp hmark) List.not_mem_nil
        | done => rfl
      obtain ⟨herror, hok⟩ := ih h hr
      refine ⟨herror, fun w hw => ?_⟩
      obtain ⟨hw', hmono, hstarts⟩ := hok w hw
      refine ⟨hw', hmono, fun n hn => ?_⟩
      rcases List.mem_cons.mp hn with rfl | hn
      · exact hmono _ hdone
      · exact hstarts n hn
    · rename_i hseen
      have hfirst := h.start (not_not.mp hseen)
      split at hr
      · cases hr
      · rename_i b hwalk
        cases hr
        exact ⟨fun b' hb => (walk_spec hfirst hwalk).1 b rfl, fun w hw => nomatch hw⟩
      · rename_i w' hwalk
        obtain ⟨hw', hmarked⟩ := (walk_spec hfirst hwalk).2 w' rfl
        obtain ⟨herror, hok⟩ := ih hw' hr
        refine ⟨herror, fun w hw => ?_⟩
        obtain ⟨hwalking, hmono, hstarts⟩ := hok w hw
        refine ⟨hwalking, fun n hn => hmono n (hmarked n ?_), fun n hn => ?_⟩
        · rw [Visit.mark_enter]
          split
          · exact Mark.noConfusion
          · rw [hn]
            exact Mark.noConfusion
        · rcases List.mem_cons.mp hn with rfl | hn
          · refine hmono _ (hmarked _ ?_)
            rw [Visit.mark_enter, if_pos rfl]
            exact Mark.noConfusion
          · exact hstarts n hn

theorem not_cyclic_of_ranked {rank : Nat → Nat} (h : ∀ n, ∀ e ∈ edges n, rank e.1 < rank n) :
    ¬ Cyclic edges := by
  rintro ⟨n, hn⟩
  have hlt : ∀ {a b : Nat}, TransGen (Edge edges) a b → rank b < rank a := by
    intro a b hab
    induction hab with
    | single hedge =>
      obtain ⟨label, hlabel⟩ := hedge
      exact h _ _ hlabel
    | tail _ hedge ih =>
      obtain ⟨label, hlabel⟩ := hedge
      exact lt_trans (h _ _ hlabel) ih
  exact lt_irrefl _ (hlt hn)

theorem search_spec (hcount : ∀ n, count ≤ n → edges n = [])
    (hr : search edges steps count = some r) :
    ((∃ b, r = .error b) ↔ Cyclic edges) ∧
      ∀ v, r = .ok v → ∀ n, ∀ e ∈ edges n, v.rank e.1 < v.rank n := by
  obtain ⟨herror, hok⟩ := searchFrom_spec walking_new hr
  have hranked : ∀ v, r = .ok v → ∀ n, ∀ e ∈ edges n, v.rank e.1 < v.rank n := by
    intro v hv n e he
    obtain ⟨hwalking, -, hdone⟩ := hok v hv
    have hn : n < count := by
      by_contra hn
      rw [hcount n (by omega)] at he
      cases he
    exact (hwalking.ranked n (hdone n (List.mem_range.mpr hn)) e he).2
  refine ⟨⟨fun ⟨b, hb⟩ => herror b hb, fun hcyclic => ?_⟩, hranked⟩
  cases r with
  | error b => exact ⟨b, rfl⟩
  | ok v => exact absurd hcyclic (not_cyclic_of_ranked (hranked v rfl))

def size (edges : Nat → List (Nat × α)) (count : Nat) : Nat :=
  ∑ n ∈ Finset.range count, ((edges n).length + 1)

def unseen (edges : Nat → List (Nat × α)) (v : Visit) (n : Nat) : Nat :=
  if v.mark n = .unseen then (edges n).length + 1 else 0

def open_ (edges : Nat → List (Nat × α)) (stack : List (Nat × Nat)) : Nat :=
  (stack.map fun top => (edges top.1).length + 1 - top.2).sum

def left (edges : Nat → List (Nat × α)) (count : Nat) (stack : List (Nat × Nat)) (v : Visit) : Nat :=
  (∑ n ∈ Finset.range count, unseen edges v n) + open_ edges stack

theorem left_enter {n : Nat} (hn : n < count) (hunseen : v.mark n = .unseen) :
    left edges count ((n, 0) :: stack) (v.enter n) = left edges count stack v := by
  have hmem := Finset.mem_range.mpr hn
  have hother : ∑ m ∈ (Finset.range count).erase n, unseen edges (v.enter n) m =
      ∑ m ∈ (Finset.range count).erase n, unseen edges v m := by
    refine Finset.sum_congr rfl fun m hm => ?_
    unfold unseen
    rw [Visit.mark_enter, if_neg (Finset.ne_of_mem_erase hm)]
  have hbefore : unseen edges v n = (edges n).length + 1 := if_pos hunseen
  have hafter : unseen edges (v.enter n) n = 0 := by
    unfold unseen
    rw [Visit.mark_enter, if_pos rfl]
    exact if_neg Mark.noConfusion
  unfold left
  rw [← Finset.add_sum_erase _ _ hmem, ← Finset.add_sum_erase _ (unseen edges v) hmem, hother,
    hbefore, hafter]
  unfold open_
  rw [List.map_cons, List.sum_cons]
  dsimp only
  omega

theorem left_le_size : left edges count [] v ≤ size edges count := by
  have hle : ∑ n ∈ Finset.range count, unseen edges v n ≤ size edges count := by
    refine Finset.sum_le_sum fun n _ => ?_
    unfold unseen
    split
    · exact le_rfl
    · exact Nat.zero_le _
  exact hle

theorem walk_ends (hto : ∀ n, ∀ e ∈ edges n, e.1 < count) (h : Walking edges stack v)
    (hnext : ∀ top ∈ stack, top.2 ≤ (edges top.1).length)
    (hsteps : left edges count stack v < steps) : ∃ r, walk edges steps stack v = some r := by
  induction steps generalizing stack v with
  | zero => exact absurd hsteps (Nat.not_lt_zero _)
  | succ steps ih =>
    cases stack with
    | nil => exact ⟨_, rfl⟩
    | cons top stack =>
      obtain ⟨node, next⟩ := top
      have hle := hnext _ List.mem_cons_self
      have hbelow := fun top htop => hnext top (List.mem_cons_of_mem _ htop)
      dsimp only at hle
      rw [walk]
      cases hedge : (edges node)[next]? with
      | none =>
        have hsame : ∀ n, unseen edges (v.finish node (edges node)) n = unseen edges v n := by
          intro n
          unfold unseen
          rw [Visit.mark_finish]
          split
          · rename_i hn
            rw [hn, h.top]
            rfl
          · rfl
        have hsum : ∑ n ∈ Finset.range count, unseen edges (v.finish node (edges node)) n =
            ∑ n ∈ Finset.range count, unseen edges v n :=
          Finset.sum_congr rfl fun n _ => hsame n
        refine ih (h.finish hedge) hbelow ?_
        unfold left open_ at hsteps ⊢
        rw [List.map_cons, List.sum_cons] at hsteps
        dsimp only at hsteps
        omega
      | some e =>
        have hlt := (List.getElem?_eq_some_iff.mp hedge).1
        have hlater : ∀ top ∈ (node, next + 1) :: stack, top.2 ≤ (edges top.1).length := by
          intro top htop
          rcases List.mem_cons.mp htop with rfl | htop
          · exact hlt
          · exact hbelow top htop
        have hfewer : left edges count ((node, next + 1) :: stack) v < steps := by
          unfold left open_ at hsteps ⊢
          rw [List.map_cons, List.sum_cons] at hsteps ⊢
          dsimp only at hsteps ⊢
          omega
        dsimp only
        cases hmark : v.mark e.1 with
        | pending => exact ⟨_, rfl⟩
        | unseen =>
          refine ih (h.enter hedge hmark) ?_ ?_
          · intro top htop
            rcases List.mem_cons.mp htop with rfl | htop
            · exact Nat.zero_le _
            · exact hlater top htop
          · rwa [left_enter (hto _ _ (List.mem_of_getElem? hedge)) hmark]
        | done => exact ih (v := v.pass node e.1) (h.pass hedge hmark) hlater hfewer

theorem searchFrom_ends {starts : List Nat} (hto : ∀ n, ∀ e ∈ edges n, e.1 < count)
    (h : Walking edges [] v) (hstarts : ∀ n ∈ starts, n < count) (hsteps : size edges count < steps)
    : ∃ r, searchFrom edges steps starts v = some r := by
  induction starts generalizing v with
  | nil => exact ⟨_, rfl⟩
  | cons start starts ih =>
    have hrest := fun n hn => hstarts n (List.mem_cons_of_mem _ hn)
    rw [searchFrom]
    split
    · exact ih h hrest
    · rename_i hseen
      have hunseen : v.mark start = .unseen := not_not.mp hseen
      have hfirst := h.start hunseen
      have hleft : left edges count [(start, 0)] (v.enter start) < steps := by
        rw [left_enter (hstarts start List.mem_cons_self) hunseen]
        exact lt_of_le_of_lt left_le_size hsteps
      obtain ⟨r, hr⟩ := walk_ends hto hfirst
        (fun top htop => by rw [List.mem_singleton.mp htop]; exact Nat.zero_le _) hleft
      rw [hr]
      cases r with
      | error b => exact ⟨_, rfl⟩
      | ok w => exact ih ((walk_spec hfirst hr).2 w rfl).1 hrest

theorem search_ends (hto : ∀ n, ∀ e ∈ edges n, e.1 < count) (hsteps : size edges count < steps) :
    ∃ r, search edges steps count = some r :=
  searchFrom_ends hto walking_new (fun _ hn => List.mem_range.mp hn) hsteps

end Rsemu.Search
