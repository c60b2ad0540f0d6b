import Rsemu.Jit.CacheRuns
import Mathlib.Data.List.ProdSigma

/-!
# How much a translation cache keeps

The guest decides how often a block is lifted, so everything a cache keeps of its blocks has
to be bounded by its capacity. The slot table, the page index and the back edges are, in
every coherent cache (`Coherent.bounded`).

The insertion order is not. An entry leaves it when it is evicted or the cache is flushed, and
in no other way: a block that is replaced or invalidated leaves its entry behind, and every
insertion brings one (`insert_order_grows`). The order stays within the capacity as long as
an insertion evicts whenever it finds the order full, and no longer (`insert_order_le_iff`).

Nor is the table together with the free list. A block that goes leaves its slot in the table
and its index in the list, so that both count it (`Cleared.free_length`); an insertion takes
the index back.
-/

namespace Rsemu.Jit

open Slab

variable {β : Type}

namespace BlockCache

def backEdges (c : BlockCache β) (i : Nat) : List (Nat × Fin exitCount) :=
  (peek c.slots i).elim [] (·.preds)

def indexed (c : BlockCache β) : List Nat := c.pages.entries.flatMap (·.2)

/-- **The bookkeeping is bounded by the capacity.** -/
structure Bounded (c : BlockCache β) : Prop where
  live : (occupied c.slots).length ≤ c.capacity
  slots : c.slots.length ≤ c.capacity
  shared : c.slots.length + c.free.length ≤ c.capacity
  /-- The page index lists each live block once, and nothing else. -/
  pages : c.indexed.Perm (occupied c.slots)
  edges : ((List.range c.slots.length).flatMap c.backEdges).length ≤ 2 * c.capacity
  order : c.order.length ≤ c.capacity

variable {c : BlockCache β}

theorem mem_backEdges {i : Nat} {edge : Nat × Fin exitCount} :
    edge ∈ c.backEdges i ↔ ∃ s, peek c.slots i = some s ∧ edge ∈ s.preds := by
  unfold backEdges
  rcases peek c.slots i with _ | s <;> simp

theorem backEdges_nodup (hl : Linked c.slots) :
    ((List.range c.slots.length).flatMap c.backEdges).Nodup := by
  refine List.nodup_flatMap.mpr ⟨fun i _ => ?_, ?_⟩
  · unfold backEdges
    rcases hs : peek c.slots i with _ | s
    · exact List.nodup_nil
    · exact hl.once hs
  · refine List.nodup_range.imp fun {i j} hij => ?_
    intro edge hi hj
    obtain ⟨s, hs, hmem⟩ := mem_backEdges.mp hi
    obtain ⟨t, ht, hmem'⟩ := mem_backEdges.mp hj
    obtain ⟨p, hp, htarget⟩ := hl.back hs hmem
    obtain ⟨q, hq, htarget'⟩ := hl.back ht hmem'
    obtain rfl : p = q := Option.some.inj (hp.symm.trans hq)
    exact hij (htarget.symm.trans htarget')

theorem backEdges_length (hl : Linked c.slots) :
    ((List.range c.slots.length).flatMap c.backEdges).length ≤ 2 * c.slots.length := by
  have hsub : (List.range c.slots.length).flatMap c.backEdges ⊆
      List.range c.slots.length ×ˢ List.finRange exitCount := by
    intro edge hedge
    obtain ⟨i, -, hi⟩ := List.mem_flatMap.mp hedge
    obtain ⟨s, hs, hmem⟩ := mem_backEdges.mp hi
    obtain ⟨p, n⟩ := edge
    obtain ⟨q, hq, -⟩ := hl.back hs hmem
    exact List.pair_mem_product.mpr ⟨List.mem_range.mpr (lt_of_peek hq), List.mem_finRange n⟩
  have := (List.subperm_of_subset (backEdges_nodup hl) hsub).length_le
  rw [List.length_product, List.length_range, List.length_finRange] at this
  exact this.trans (Nat.mul_comm ..).le

theorem Paged.indexed_perm (hp : Paged c) : c.indexed.Perm (occupied c.slots) := by
  have hlist : ∀ entry ∈ c.pages.entries, c.pageList entry.1 = entry.2 := by
    intro entry hentry
    rw [pageList, SortedMap.get_eq_some.mpr hentry]
    rfl
  refine (List.perm_ext_iff_of_nodup ?_ (occupied_nodup c.slots)).mpr fun i => ?_
  · refine List.nodup_flatMap.mpr ⟨fun entry hentry => ?_, ?_⟩
    · rw [← hlist entry hentry]
      exact hp.nodup entry.1
    · refine List.Pairwise.imp_of_mem ?_ c.pages.sorted
      intro x y hx hy hlt i hi hj
      -- a block is of one page
      simp only [← hlist x hx] at hi
      simp only [← hlist y hy] at hj
      obtain ⟨e, he, hpage⟩ := (hp.mem x.1 i).mp hi
      obtain ⟨f, hf, hpage'⟩ := (hp.mem y.1 i).mp hj
      obtain rfl : e = f := Option.some.inj (he.symm.trans hf)
      omega
  · rw [mem_occupied, indexed, List.mem_flatMap]
    constructor
    · intro h
      obtain ⟨entry, hentry, hi⟩ := h
      rw [← hlist entry hentry] at hi
      obtain ⟨e, he, -⟩ := (hp.mem entry.1 i).mp hi
      obtain ⟨s, hs, -⟩ := entry_eq_some.mp he
      exact ⟨s, hs⟩
    · intro h
      obtain ⟨s, hs⟩ := h
      have hi : i ∈ c.pageList s.page.toNat :=
        (hp.mem _ i).mpr ⟨s.entry, entry_eq_some.mpr ⟨s, hs, rfl⟩, rfl⟩
      rcases hget : c.pages.get s.page.toNat with _ | list
      · rw [pageList, hget] at hi
        cases hi
      · rw [pageList, hget] at hi
        exact ⟨_, SortedMap.get_eq_some.mp hget, hi⟩

theorem Coherent.bounded (hc : Coherent c) (hshared : c.slots.length + c.free.length ≤ c.capacity)
    (horder : c.order.length ≤ c.capacity) : Bounded c := by
  have hfits := hc.core.fits
  have hsplit := occupied_length hc.core.free_nodup hc.core.mem_free
  have hedges := backEdges_length hc.core.linked
  exact ⟨by omega, hfits, hshared, hc.paged.indexed_perm, by omega, horder⟩

theorem mem_occupied_entry {i : Nat} : i ∈ occupied c.slots ↔ ∃ e, c.entry i = some e := by
  rw [mem_occupied]
  constructor
  · exact fun ⟨s, hs⟩ => ⟨s.entry, entry_eq_some.mpr ⟨s, hs, rfl⟩⟩
  · rintro ⟨e, he⟩
    obtain ⟨s, hs, -⟩ := entry_eq_some.mp he
    exact ⟨s, hs⟩

theorem Cleared.free_length {c' : BlockCache β} {gone : Nat → Prop} (h : Cleared c c' gone)
    (hc : Core c) (hc' : Core c') {l : List Nat} (hnodup : l.Nodup)
    (hl : ∀ i, i ∈ l ↔ i ∈ occupied c.slots ∧ gone i) :
    c'.free.length = c.free.length + l.length := by
  have hperm : (l ++ occupied c'.slots).Perm (occupied c.slots) := by
    refine (List.perm_ext_iff_of_nodup ?_ (occupied_nodup _)).mpr fun i => ?_
    · refine List.nodup_append'.mpr ⟨hnodup, occupied_nodup _, fun i hi ho => ?_⟩
      obtain ⟨e, he⟩ := mem_occupied_entry.mp ho
      rw [h.went ((hl i).mp hi).2] at he
      cases he
    · rw [List.mem_append, hl, mem_occupied_entry, mem_occupied_entry]
      by_cases hg : gone i
      · simp [hg, h.went hg]
      · simp [hg, h.kept hg]
  have hsplit := occupied_length hc.free_nodup hc.mem_free
  have hsplit' := occupied_length hc'.free_nodup hc'.mem_free
  have hlength := hperm.length_eq
  rw [List.length_append] at hlength
  have := h.frame.length
  omega

theorem dropOld_len_lt (hc : Coherent c) {pc key : UInt64}
    (h : c.find pc key ≠ none ∨ c.len < c.capacity) :
    (c.dropOld pc key).len < (c.dropOld pc key).capacity := by
  obtain ⟨hcoherent, hcleared⟩ := dropOld_spec hc pc key
  rw [hcleared.frame.capacity]
  have hlength := hcleared.frame.length
  have hfits := hc.core.fits
  by_cases hfind : c.find pc key = none
  · have hsame : c.dropOld pc key = c := by
      unfold dropOld
      simp only [hfind]
    rw [hsame]
    exact h.resolve_left (not_not.mpr hfind)
  · obtain ⟨i, hi⟩ := dropOld_frees hc hfind
    have hpos := List.length_pos_of_mem hi
    have hroom := hc.core.room
    unfold len
    omega

theorem insert_order_grows (hc : Coherent c) {pc key : UInt64} (hcan : c.CanInsert pc key)
    (h : c.find pc key ≠ none ∨ c.len < c.capacity) (page : UInt64) (insns : Nat) (block : β) :
    (c.insert pc key page insns block).2.order.length = c.order.length + 1 := by
  have hfilled := (insert_spec hc hcan page insns block).2.1
  have hlt := dropOld_len_lt hc h
  have hsame : c.cleared pc key = c.dropOld pc key := by
    unfold cleared makeRoom
    rw [if_neg (by omega)]
  rw [hfilled.order, hsame, (dropOld_spec hc pc key).2.order, List.length_append,
    List.length_singleton]

theorem evictOne_spec (hc : Coherent c) (hpos : 0 < c.len) :
    ∃ c', c.evictOne = (true, c') ∧ Coherent c' ∧ c'.len + 1 = c.len ∧
      c'.order.length < c.order.length ∧ c'.capacity = c.capacity ∧
      c'.slots.length = c.slots.length := by
  obtain ⟨i, e, he⟩ := hc.core.exists_entry hpos
  obtain ⟨pre, x, rest, c', hsplit, hdead, hlive, hevict, hcore, hpaged, hcleared⟩ :=
    evictFrom_spec hc.core hc.paged ⟨(i, e.stamp), hc.ordered he, live_iff.mpr ⟨e, he, rfl⟩⟩
  obtain ⟨f, hf, -⟩ := live_iff.mp hlive
  have hlen : c'.len + 1 = c.len :=
    hcleared.len (hc.core.congr rfl rfl rfl rfl rfl rfl rfl) hcore hf
  refine ⟨c', hevict, ⟨hcore, hpaged, evicted_ordered hc.ordered hsplit hdead hcleared⟩,
    hlen, ?_, hcleared.frame.capacity, hcleared.frame.length⟩
  rw [hcleared.order, hsplit, List.length_append, List.length_cons]
  simp only
  omega

theorem insert_order_evicts (hc : Coherent c) {pc key : UInt64} (hcan : c.CanInsert pc key)
    (hfind : c.find pc key = none) (hfull : c.capacity ≤ c.len) (page : UInt64) (insns : Nat)
    (block : β) : (c.insert pc key page insns block).2.order.length ≤ c.order.length := by
  have hfilled := (insert_spec hc hcan page insns block).2.1
  have hsame : c.dropOld pc key = c := by
    unfold dropOld
    simp only [hfind]
  have hroom := hc.core.room
  obtain ⟨c', hevict, hc', hlen, horder, -⟩ := evictOne_spec hc (by omega)
  have hcleared : c.cleared pc key = makeRoom c.len c' := by
    unfold cleared
    rw [hsame, makeRoom, if_pos hfull, hevict]
  have hshort := (makeRoom_spec hc' (show c'.len < c.len by omega)).order.length_le
  rw [hfilled.order, hcleared, List.length_append, List.length_singleton]
  omega

theorem insert_order_le_iff (hc : Coherent c) {pc key : UInt64} (hcan : c.CanInsert pc key)
    (horder : c.order.length ≤ c.capacity) (page : UInt64) (insns : Nat) (block : β) :
    (c.insert pc key page insns block).2.order.length ≤ c.capacity ↔
      c.order.length < c.capacity ∨ (c.find pc key = none ∧ c.capacity ≤ c.len) := by
  by_cases hgrows : c.find pc key ≠ none ∨ c.len < c.capacity
  · rw [insert_order_grows hc hcan hgrows]
    constructor
    · exact fun h => Or.inl (by omega)
    · intro h
      rcases h with h | ⟨hfind, hfull⟩
      · omega
      · rcases hgrows with hsome | hlt
        · exact absurd hfind hsome
        · omega
  · obtain ⟨hfind, hfull⟩ := not_or.mp hgrows
    have hfind := not_not.mp hfind
    have hfull := Nat.le_of_not_lt hfull
    have := insert_order_evicts hc hcan hfind hfull page insns block
    exact iff_of_true (by omega) (Or.inr ⟨hfind, hfull⟩)

theorem makeRoom_of_room (h : c.len < c.capacity) (fuel : Nat) : makeRoom fuel c = c := by
  cases fuel with
  | zero => rfl
  | succ fuel => rw [makeRoom, if_neg (Nat.not_le.mpr h)]

theorem cleared_free (hc : Coherent c) (pc key : UInt64) :
    (c.cleared pc key).free.length ≤ c.free.length + 1 := by
  have hroom := hc.core.room
  have hfits := hc.core.fits
  obtain ⟨hdropped, hcleared⟩ := dropOld_spec hc pc key
  by_cases hfind : c.find pc key = none
  · have hsame : c.dropOld pc key = c := by
      unfold dropOld
      simp only [hfind]
    unfold cleared
    rw [hsame]
    by_cases hfull : c.capacity ≤ c.len
    · obtain ⟨c', hevict, hc', hlen, -, hcapacity, hlength⟩ := evictOne_spec hc (by omega)
      have hle : c.len ≤ c.slots.length := Nat.sub_le ..
      have hsplit := occupied_length hc'.core.free_nodup hc'.core.mem_free
      rw [makeRoom, if_pos hfull, hevict]
      show (makeRoom c.len c').free.length ≤ _
      rw [makeRoom_of_room (by omega)]
      unfold len at hlen hle
      omega
    · rw [makeRoom_of_room (by omega)]
      exact Nat.le_succ _
  · obtain ⟨old, hold⟩ := Option.ne_none_iff_exists'.mp hfind
    obtain ⟨e, he, -, hkey⟩ := (find_eq_some hc.core).mp hold
    have hfree := hcleared.free_length hc.core hdropped.core (List.nodup_singleton old.slot)
      fun i => by
        rw [List.mem_singleton, mem_occupied_entry]
        constructor
        · rintro rfl
          exact ⟨⟨e, he⟩, e, he, hkey⟩
        · rintro ⟨-, f, hf, hkey'⟩
          exact hc.core.unique hf he (hkey'.1.trans hkey.1.symm) (hkey'.2.trans hkey.2.symm)
    unfold cleared
    rw [makeRoom_of_room (dropOld_len_lt hc (.inl hfind)), hfree]
    exact Nat.le_refl _

theorem install_shared (c : BlockCache β) (pc key page : UInt64) (insns : Nat) (block : β) :
    (c.install pc key page insns block).2.slots.length +
        (c.install pc key page insns block).2.free.length =
      if c.free = [] then c.slots.length + 1 else c.slots.length + c.free.length - 1 := by
  unfold install place
  rcases c.free with _ | ⟨i, free⟩
  · simp
  · simp

theorem insert_shared (hc : Coherent c) (hshared : c.slots.length + c.free.length ≤ c.capacity)
    (pc key page : UInt64) (insns : Nat) (block : β) :
    (c.insert pc key page insns block).2.slots.length +
      (c.insert pc key page insns block).2.free.length ≤ c.capacity := by
  have hroomy := cleared_roomy hc pc key
  have hframe := (dropOld_spec hc pc key).2.frame
  have hfree := cleared_free hc pc key
  have hlength := hroomy.length.trans hframe.length
  have hroom := hroomy.room
  rw [hroomy.capacity, hframe.capacity] at hroom
  refine (install_shared (c.cleared pc key) pc key page insns block).trans_le ?_
  split
  · rename_i hnil
    unfold len at hroom
    rw [hnil, List.length_nil] at hroom
    omega
  · omega

end BlockCache

open BlockCache

def BlockCache.run (c : BlockCache β) (ops : List (Op β)) : BlockCache β :=
  ops.foldl BlockCache.apply c

/-- Whether a call has an index for the slot it fills. -/
def BlockCache.Indexes (c : BlockCache β) : Op β → Prop
  | .insert pc key _ _ _ => c.CanInsert pc key
  | _ => True

/-- The blocks that a call takes out of the cache, an insertion and a flush aside. -/
def BlockCache.taken (c : BlockCache β) : Op β → List Nat
  | .invalidate id => (occupied c.slots).filter fun i => i = id.slot ∧ c.live (i, id.stamp)
  | .invalidatePage phys => (occupied c.slots).filter fun i =>
    (c.entry i).any fun e => e.page = pageOf phys
  | .noteWrite phys len => (occupied c.slots).filter fun i =>
    (c.entry i).any fun e => Touches phys len e.page
  | _ => []

/-- Whether a call finds room: an insertion evicts, or the order is not full; and what is taken
out finds room in the free list. -/
def BlockCache.Queues (c : BlockCache β) : Op β → Prop
  | .insert pc key _ _ _ =>
    c.order.length < c.capacity ∨ (c.find pc key = none ∧ c.capacity ≤ c.len)
  | .sync _ | .flush => True
  | op => c.slots.length + c.free.length + (c.taken op).length ≤ c.capacity

/-- Every call of a run has an index and finds room. -/
def BlockCache.QueuesAll : BlockCache β → List (Op β) → Prop
  | _, [] => True
  | c, op :: ops => c.Indexes op ∧ c.Queues op ∧ (c.apply op).QueuesAll ops

variable {c : BlockCache β}

theorem apply_spec (hc : Coherent c) {op : Op β}
    (hother : ∀ pc key page insns block, op ≠ .insert pc key page insns block) :
    Coherent (c.apply op) ∧ (c.apply op).capacity = c.capacity ∧
      ((∃ gone, Cleared c (c.apply op) gone ∧
          (∀ i, i ∈ c.taken op ↔ i ∈ occupied c.slots ∧ gone i) ∧ (c.taken op).Nodup) ∨
        c.Queues op ∧ ((c.apply op).slots.length + (c.apply op).free.length ≤
          c.slots.length + c.free.length ∧ (c.apply op).order.length ≤ c.order.length)) := by
  have hcleared : ∀ {c' gone}, Coherent c' ∧ Cleared c c' gone →
      (∀ i, i ∈ c.taken op ↔ i ∈ occupied c.slots ∧ gone i) → (c.taken op).Nodup →
      Coherent c' ∧ c'.capacity = c.capacity ∧ ((∃ gone, Cleared c c' gone ∧
        (∀ i, i ∈ c.taken op ↔ i ∈ occupied c.slots ∧ gone i) ∧ (c.taken op).Nodup) ∨
      c.Queues op ∧ (c'.slots.length + c'.free.length ≤ c.slots.length + c.free.length ∧
        c'.order.length ≤ c.order.length)) :=
    fun h hmem hnodup => ⟨h.1, h.2.frame.capacity, .inl ⟨_, h.2, hmem, hnodup⟩⟩
  have hentry : ∀ {i : Nat} {p : Entry β → Bool},
      (c.entry i).any p = true ↔ ∃ e, c.entry i = some e ∧ p e = true := by
    intro i p
    rcases c.entry i with _ | e <;> simp
  cases op with
  | insert pc key page insns block => exact absurd rfl (hother pc key page insns block)
  | lookup pc key => exact hcleared (lookup_spec hc pc key) (by simp [taken]) List.nodup_nil
  | link from_ pc to_ =>
    exact hcleared (link_spec hc from_ pc to_) (by simp [taken]) List.nodup_nil
  | follow from_ pc key =>
    obtain ⟨hc', hkept, -⟩ := follow_spec hc from_ pc key
    exact hcleared ⟨hc', hkept⟩ (by simp [taken]) List.nodup_nil
  | setCode id code => exact hcleared (setCode_spec hc id code) (by simp [taken]) List.nodup_nil
  | invalidate id =>
    refine hcleared (invalidate_spec hc id) (fun i => ?_) ((occupied_nodup _).filter _)
    rw [taken, List.mem_filter, decide_eq_true_iff]
    refine and_congr_right' (and_congr_right fun hi => ?_)
    rw [live_iff, hi]
  | invalidatePage phys =>
    obtain ⟨hcore, hpaged, hwent⟩ := invalidatePage_spec hc.core hc.paged phys
    refine hcleared ⟨⟨hcore, hpaged, hwent.ordered hc.ordered⟩, hwent⟩ (fun i => ?_)
      ((occupied_nodup _).filter _)
    rw [taken, List.mem_filter, hentry]
    simp only [decide_eq_true_eq, OnPage]
  | noteWrite phys len =>
    obtain ⟨hcore, hpaged, hwent⟩ := noteWrite_spec hc.core hc.paged phys len
    refine hcleared ⟨⟨hcore, hpaged, hwent.ordered hc.ordered⟩, hwent⟩ (fun i => ?_)
      ((occupied_nodup _).filter _)
    rw [taken, List.mem_filter, hentry]
    simp only [decide_eq_true_eq]
  | sync epoch =>
    refine ⟨(sync_spec hc epoch).1, ?_, .inr ⟨trivial, ?_⟩⟩
    all_goals
      simp only [BlockCache.apply, sync]
      split
    · rfl
    · rfl
    · exact ⟨Nat.zero_le _, Nat.zero_le _⟩
    · exact ⟨Nat.le_refl _, Nat.le_refl _⟩
  | flush => exact ⟨(flush_spec hc).1, rfl, .inr ⟨trivial, Nat.zero_le _, Nat.zero_le _⟩⟩

theorem apply_bounded_iff (hc : Coherent c) (hbounded : Bounded c) {op : Op β}
    (hindex : c.Indexes op) :
    Coherent (c.apply op) ∧ (c.apply op).capacity = c.capacity ∧
      (Bounded (c.apply op) ↔ c.Queues op) := by
  by_cases hother : ∀ pc key page insns block, op ≠ .insert pc key page insns block
  · obtain ⟨hc', hcapacity, h⟩ := apply_spec hc hother
    refine ⟨hc', hcapacity, ?_⟩
    rcases h with ⟨gone, hcleared, hmem, hnodup⟩ | ⟨hqueues, hshared, horder⟩
    · have hfree := hcleared.free_length hc.core hc'.core hnodup hmem
      have hsum : (c.apply op).slots.length + (c.apply op).free.length =
          c.slots.length + c.free.length + (c.taken op).length := by
        rw [hfree, hcleared.frame.length, Nat.add_assoc]
      have hiff : c.Queues op ↔
          c.slots.length + c.free.length + (c.taken op).length ≤ c.capacity := by
        have hle := hbounded.shared
        cases op with
        | insert pc key page insns block => exact absurd rfl (hother pc key page insns block)
        | sync _ | flush => exact iff_of_true trivial hle
        | _ => exact Iff.rfl
      rw [hiff, ← hsum, ← hcapacity]
      exact ⟨fun h => h.shared, fun h =>
        hc'.bounded h (by rw [hcleared.order, hcapacity]; exact hbounded.order)⟩
    · refine iff_of_true (hc'.bounded ?_ ?_) hqueues
      · rw [hcapacity]
        exact hshared.trans hbounded.shared
      · rw [hcapacity]
        exact horder.trans hbounded.order
  · push Not at hother
    obtain ⟨pc, key, page, insns, block, rfl⟩ := hother
    obtain ⟨-, hfilled, hc'⟩ := insert_spec hc hindex page insns block
    have hcapacity : (c.apply (.insert pc key page insns block)).capacity = c.capacity :=
      hfilled.capacity.trans ((cleared_roomy hc pc key).capacity.trans
        (dropOld_spec hc pc key).2.frame.capacity)
    refine ⟨hc', hcapacity, Iff.trans ?_
      (insert_order_le_iff hc hindex hbounded.order page insns block)⟩
    rw [← hcapacity]
    exact ⟨fun h => h.order, fun h => hc'.bounded
      (hcapacity ▸ insert_shared hc hbounded.shared pc key page insns block) h⟩

theorem run_bounded (hc : Coherent c) (hbounded : Bounded c) {ops : List (Op β)}
    (hqueues : c.QueuesAll ops) :
    Coherent (c.run ops) ∧ Bounded (c.run ops) ∧ (c.run ops).capacity = c.capacity := by
  induction ops generalizing c with
  | nil => exact ⟨hc, hbounded, rfl⟩
  | cons op ops ih =>
    obtain ⟨hindex, hroom, hrest⟩ := hqueues
    obtain ⟨hc', hcapacity, hiff⟩ := apply_bounded_iff hc hbounded hindex
    rw [← hcapacity]
    exact ih hc' (hiff.mpr hroom) hrest

theorem queuesAll_append {first rest : List (Op β)} (h : c.QueuesAll (first ++ rest)) :
    c.QueuesAll first := by
  induction first generalizing c with
  | nil => trivial
  | cons op first ih => exact ⟨h.1, h.2.1, ih h.2.2⟩

/-- **The bookkeeping of a cache is bounded in every state of a run** whose insertions evict
when they find the order full, and whose invalidations find room in the free list; and a call
that has an index for its slot keeps it bounded only so. -/
theorem bookkeeping_bounded (capacity : Nat) (ops : List (Op β))
    (hqueues : (withCapacity β capacity).QueuesAll ops) :
    (∀ first, first <+: ops →
      Bounded ((withCapacity β capacity).run first) ∧
        ((withCapacity β capacity).run first).capacity = max capacity 1) ∧
      ∀ op, ((withCapacity β capacity).run ops).Indexes op →
        (Bounded (((withCapacity β capacity).run ops).apply op) ↔
          ((withCapacity β capacity).run ops).Queues op) := by
  have hnew : Coherent (withCapacity β capacity) := withCapacity_spec capacity
  have hempty : Bounded (withCapacity β capacity) := hnew.bounded (Nat.zero_le _) (Nat.zero_le _)
  constructor
  · intro first hfirst
    obtain ⟨rest, rfl⟩ := hfirst
    exact (run_bounded hnew hempty (queuesAll_append hqueues)).2
  · intro op hindex
    obtain ⟨hc, hbounded, -⟩ := run_bounded hnew hempty hqueues
    exact (apply_bounded_iff hc hbounded hindex).2.2

/-- A cache of two blocks: one, a write into its page, and two more. -/
theorem rewritten_run_bounded :
    (∀ first, first <+: [Op.insert 0x1000 0 0x1000 1 7, .noteWrite 0xffe 4,
        .insert 0x2000 0 0x2000 1 8] →
      Bounded ((withCapacity Nat 2).run first) ∧
        ((withCapacity Nat 2).run first).capacity = max 2 1) ∧
      ∀ op, ((withCapacity Nat 2).run [.insert 0x1000 0 0x1000 1 7, .noteWrite 0xffe 4,
          .insert 0x2000 0 0x2000 1 8]).Indexes op →
        (Bounded (((withCapacity Nat 2).run [.insert 0x1000 0 0x1000 1 7, .noteWrite 0xffe 4,
            .insert 0x2000 0 0x2000 1 8]).apply op) ↔
          ((withCapacity Nat 2).run [.insert 0x1000 0 0x1000 1 7, .noteWrite 0xffe 4,
            .insert 0x2000 0 0x2000 1 8]).Queues op) :=
  bookkeeping_bounded 2 _
    ⟨Or.inl (by decide +kernel), Or.inl (by decide +kernel), trivial,
      show (_ : Nat) ≤ _ by decide +kernel, Or.inl (by decide +kernel),
      Or.inl (by decide +kernel), trivial⟩

/-- **The order is not bounded by the capacity**: a cache of one block, whose block was
invalidated, has room for the next one, and keeps an entry for each of the two. -/
theorem order_outgrows_capacity :
    ¬ ∀ (capacity : Nat) (ops : List (Op Unit)), Bounded ((withCapacity Unit capacity).run ops) := by
  intro h
  have := (h 1 [.insert 0 0 0 1 (), .invalidate ⟨0, 1⟩, .insert 0 0 0 1 ()]).order
  exact absurd this (by decide +kernel)

end Rsemu.Jit
