import Rsemu.Jit.Cache

/-!
# What keeps the translation cache coherent

The cache is a slot table with four structures threaded through it: links with their back
edges (`Linked`), hash chains (`Core.chain`), the page index (`Paged`) and the insertion order
(`Ordered`). `Coherent` is all of them together.

Taking a block out is where they all move. Whatever the block was tied to, the outcome has a
closed form: the slot is empty, and every other slot is what it was `detach`ed from it
(`removeKeepingPage_peek`).
-/

namespace Rsemu.Jit

open Slab

variable {β : Type}

/-- What a slot says of its block; the rest of a slot ties it to others. -/
structure Entry (β : Type) where
  block : β
  pc : UInt64
  key : UInt64
  page : UInt64
  insns : Nat
  stamp : UInt64

def Slot.entry (s : Slot β) : Entry β := ⟨s.block, s.pc, s.key, s.page, s.insns, s.stamp⟩

@[simp] theorem Slot.entry_page (s : Slot β) : s.entry.page = s.page := rfl

@[simp] theorem Slot.entry_stamp (s : Slot β) : s.entry.stamp = s.stamp := rfl

def nextOf (slots : List (Option (Slot β))) (i : Nat) : Option Nat := (peek slots i).map (·.next)

/-- **Links and back edges are each other's.** -/
structure Linked (slots : List (Option (Slot β))) : Prop where
  /-- A patched exit names a live slot by its stamp, and has a back edge there. -/
  exit : ∀ {i s} (n : Fin exitCount), peek slots i = some s → (s.exits n).target ≠ noSlot →
    ∃ t, peek slots (s.exits n).target = some t ∧ t.stamp = (s.exits n).stamp ∧ (i, n) ∈ t.preds
  /-- A back edge comes from an exit of a live slot that is patched here. -/
  back : ∀ {i s p n}, peek slots i = some s → (p, n) ∈ s.preds →
    ∃ q, peek slots p = some q ∧ (q.exits n).target = i
  /-- No back edge is there twice. -/
  once : ∀ {i s}, peek slots i = some s → s.preds.Nodup

namespace BlockCache

def entry (c : BlockCache β) (i : Nat) : Option (Entry β) := (peek c.slots i).map Slot.entry

def pageList (c : BlockCache β) (page : Nat) : List Nat := (c.pages.get page).getD []

/-- The invariant of the slots, the hash chains, the filter and the free list. -/
structure Core (c : BlockCache β) : Prop where
  linked : Linked c.slots
  /-- Every hash is a bucket. -/
  masked : c.bucketMask.toNat < c.buckets.length
  /-- The chain of a bucket runs through exactly the live slots that hash to it. -/
  chain : ∀ b < c.buckets.length, ∃ l, Chained (nextOf c.slots) noSlot (c.head b) l ∧ l.Nodup ∧
    ∀ i, i ∈ l ↔ ∃ e, c.entry i = some e ∧ c.bucket e.pc e.key = b
  /-- There is one block for a pc and a key. -/
  unique : ∀ {i j e f}, c.entry i = some e → c.entry j = some f → e.pc = f.pc →
    e.key = f.key → i = j
  free_nodup : c.free.Nodup
  mem_free : ∀ i, i ∈ c.free ↔ i < c.slots.length ∧ peek c.slots i = none
  /-- No slot has the sentinel for its index. -/
  below : c.slots.length ≤ noSlot
  fits : c.slots.length ≤ c.capacity
  room : 1 ≤ c.capacity
  filtered : ∀ {i e}, c.entry i = some e → c.filterSet e.page = true
  wide : 0 < c.filter.length
  aligned : ∀ {i e}, c.entry i = some e → pageOf e.page = e.page
  /-- No link was found to be stale. -/
  belt : c.stats.staleLinks = 0

/-- The page index has exactly the live blocks of each page. -/
structure Paged (c : BlockCache β) : Prop where
  nodup : ∀ p, (c.pageList p).Nodup
  mem : ∀ p i, i ∈ c.pageList p ↔ ∃ e, c.entry i = some e ∧ e.page.toNat = p

/-- Every entry's stamp is queued for eviction. -/
def Ordered (c : BlockCache β) : Prop := ∀ {i e}, c.entry i = some e → (i, e.stamp) ∈ c.order

/-- **The invariant of the cache.** -/
structure Coherent (c : BlockCache β) : Prop where
  core : Core c
  paged : Paged c
  ordered : Ordered c

end BlockCache

/-! ## Looking at a slot -/

variable {c : BlockCache β} {slots : List (Option (Slot β))}

theorem entry_eq_some {i : Nat} {e : Entry β} :
    c.entry i = some e ↔ ∃ s, peek c.slots i = some s ∧ s.entry = e := Option.map_eq_some_iff

theorem entry_eq_none {i : Nat} : c.entry i = none ↔ peek c.slots i = none := Option.map_eq_none_iff

theorem slot_eq_some {id : BlockId} {s : Slot β} :
    c.slot id = some s ↔ peek c.slots id.slot = some s ∧ s.stamp = id.stamp := by
  simp [BlockCache.slot, Option.filter_eq_some_iff]

theorem slot_isNone {id : BlockId} :
    c.slot id = none ↔ ∀ s, peek c.slots id.slot = some s → s.stamp ≠ id.stamp := by
  simp [BlockCache.slot, Option.filter_eq_none_iff]

/-! ## Pages and the filter -/

theorem toNat_pageOf (phys : UInt64) : (pageOf phys).toNat = phys.toNat / 4096 * 4096 := by
  unfold pageOf
  rw [UInt64.toNat_and, UInt64.toNat_not]
  have hlt := phys.toNat_lt
  have hmask : UInt64.size - 1 - pageMask.toNat = (2 ^ 52 - 1) <<< 12 := by decide
  rw [hmask]
  obtain ⟨x, hx⟩ : ∃ x, phys.toNat = x := ⟨_, rfl⟩
  rw [hx] at hlt ⊢
  have hshift : x / 4096 * 4096 = (x >>> 12) <<< 12 := by
    rw [Nat.shiftLeft_eq, Nat.shiftRight_eq_div_pow]
  rw [hshift]
  refine Nat.eq_of_testBit_eq fun i => ?_
  rw [Nat.testBit_and, Nat.testBit_shiftLeft, Nat.testBit_shiftLeft, Nat.testBit_two_pow_sub_one,
    Nat.testBit_shiftRight]
  by_cases h : 12 ≤ i
  · by_cases hi : i - 12 < 52
    · simp [h, hi]
    · have hbit : x.testBit i = false :=
        Nat.testBit_lt_two_pow (lt_of_lt_of_le hlt (Nat.pow_le_pow_right (by omega) (by omega)))
      simp [h, hbit]
  · simp [h]

theorem pageOf_pageOf (phys : UInt64) : pageOf (pageOf phys) = pageOf phys := by
  refine UInt64.toNat_inj.mp ?_
  rw [toNat_pageOf, toNat_pageOf]
  omega

theorem toNat_saturatingAdd (a b : UInt64) :
    (saturatingAdd a b).toNat = min (a.toNat + b.toNat) (2 ^ 64 - 1) := by
  unfold saturatingAdd
  have hsize : UInt64.size = 2 ^ 64 := rfl
  by_cases h : a.toNat + b.toNat < UInt64.size
  · rw [if_pos h, UInt64.toNat_add, Nat.mod_eq_of_lt (by omega)]
    omega
  · rw [if_neg h, UInt64.toNat_ofNat', hsize]
    omega

theorem filterBit_lt {page : UInt64} {words : Nat} (h : 0 < words) :
    filterBit page words < words * 64 := Nat.mod_lt _ (by omega)

theorem or_and_ne_zero {w x m : UInt64} (h : w &&& m ≠ 0) : (w ||| x) &&& m ≠ 0 := by
  intro h0
  refine h (UInt64.toNat_inj.mp ?_)
  have h1 := congrArg UInt64.toNat h0
  rw [UInt64.toNat_and, UInt64.toNat_or, Nat.and_or_distrib_right] at h1
  exact (Nat.or_eq_zero_iff.mp h1).1

theorem or_self_and_ne_zero {w m : UInt64} (h : m ≠ 0) : (w ||| m) &&& m ≠ 0 := by
  intro h0
  refine h (UInt64.toNat_inj.mp ?_)
  have h1 := congrArg UInt64.toNat h0
  rw [UInt64.toNat_and, UInt64.toNat_or, Nat.and_or_distrib_right, Nat.and_self] at h1
  exact (Nat.or_eq_zero_iff.mp h1).2

theorem one_shiftLeft_ne_zero (k : Nat) : (1 : UInt64) <<< UInt64.ofNat (k % 64) ≠ 0 := by
  intro h
  have h1 := congrArg UInt64.toNat h
  have hk : k % 64 < 64 := Nat.mod_lt _ (by omega)
  have hpow : 2 ^ (k % 64) < 2 ^ 64 := Nat.pow_lt_pow_right (by omega) hk
  rw [UInt64.toNat_shiftLeft, UInt64.toNat_ofNat', Nat.mod_eq_of_lt (by omega : k % 64 < 2 ^ 64),
    Nat.mod_eq_of_lt hk, UInt64.toNat_one, Nat.one_shiftLeft, Nat.mod_eq_of_lt hpow] at h1
  exact absurd h1 (Nat.two_pow_pos _).ne'

@[simp] theorem markFilter_length (filter : List UInt64) (page : UInt64) :
    (BlockCache.markFilter filter page).length = filter.length := by
  simp [BlockCache.markFilter]

theorem filterSet_mark {c' : BlockCache β} {page : UInt64} (hwide : 0 < c.filter.length)
    (h : c'.filter = BlockCache.markFilter c.filter page) (p : UInt64)
    (hp : p = page ∨ c.filterSet p = true) : c'.filterSet p = true := by
  unfold BlockCache.filterSet at hp ⊢
  rw [h, markFilter_length]
  simp only [bne_iff_ne] at hp ⊢
  have hlt : filterBit p c.filter.length / 64 < c.filter.length := by
    have : filterBit p c.filter.length < c.filter.length * 64 := filterBit_lt hwide
    omega
  obtain ⟨w, hw⟩ : ∃ w, c.filter[filterBit p c.filter.length / 64]? = some w :=
    ⟨_, List.getElem?_eq_getElem hlt⟩
  rw [List.getD_eq_getElem?_getD, hw] at hp
  rw [List.getD_eq_getElem?_getD, BlockCache.markFilter, List.getElem?_modify, hw]
  by_cases hword : filterBit page c.filter.length / 64 = filterBit p c.filter.length / 64
  · simp only [hword, if_true, Option.getD_some] at hp ⊢
    rcases hp with rfl | hp
    · exact or_self_and_ne_zero (one_shiftLeft_ne_zero _)
    · exact or_and_ne_zero hp
  · simp only [hword, if_false, id_map', Option.getD_some] at hp ⊢
    rcases hp with rfl | hp
    · exact absurd rfl hword
    · exact hp

/-! ## The table without a block -/

/-- A slot with no link to `id` and no back edge from it; a chain that led to `id` leads to
what came after. -/
def Slot.detach (id after : Nat) (s : Slot β) : Slot β :=
  { s with
    exits := fun n => if (s.exits n).target = id then Link.empty else s.exits n
    preds := s.preds.filter fun edge => edge.1 ≠ id
    next := if s.next = id then after else s.next }

@[simp] theorem dropBackEdge_length (slots : List (Option (Slot β))) (target : Nat)
    (stamp : UInt64) (pred : Nat) (i : Fin exitCount) :
    (BlockCache.dropBackEdge slots target stamp pred i).length = slots.length := edit_length ..

theorem dropBackEdge_peek (slots : List (Option (Slot β))) (target : Nat) (stamp : UInt64)
    (pred : Nat) (i : Fin exitCount) (j : Nat) :
    peek (BlockCache.dropBackEdge slots target stamp pred i) j = (peek slots j).map fun t =>
      { t with preds := t.preds.filter fun edge =>
        ¬ (edge = (pred, i) ∧ target = j ∧ t.stamp = stamp) } := by
  rw [BlockCache.dropBackEdge, peek_edit]
  rcases peek slots j with _ | t
  · simp
  · by_cases hj : target = j
    · by_cases hs : t.stamp = stamp <;> simp [hj, hs]
    · simp [hj]

theorem dropEdges_peek (id : Nat) (slot : Slot β) (ns : List (Fin exitCount))
    (slots : List (Option (Slot β))) (j : Nat) :
    peek (ns.foldl (fun slots i =>
      let link := slot.exits i
      if link.target ≠ noSlot then
        BlockCache.dropBackEdge slots link.target link.stamp id i else slots) slots) j =
    (peek slots j).map fun t =>
      { t with preds := t.preds.filter fun edge => ¬ (edge.1 = id ∧ edge.2 ∈ ns ∧
        (slot.exits edge.2).target ≠ noSlot ∧ (slot.exits edge.2).target = j ∧
        t.stamp = (slot.exits edge.2).stamp) } := by
  induction ns generalizing slots with
  | nil => rcases h : peek slots j with _ | t <;> simp [h]
  | cons n ns ih =>
    have hstep : peek (if (slot.exits n).target ≠ noSlot then BlockCache.dropBackEdge slots
        (slot.exits n).target (slot.exits n).stamp id n else slots) j =
        (peek slots j).map fun t => { t with preds := t.preds.filter fun edge =>
          ¬ (edge = (id, n) ∧ (slot.exits n).target ≠ noSlot ∧ (slot.exits n).target = j ∧
            t.stamp = (slot.exits n).stamp) } := by
      by_cases hn : (slot.exits n).target = noSlot
      · rcases h : peek slots j with _ | t <;> simp [hn, h]
      · rw [if_pos hn, dropBackEdge_peek]
        simp only [ne_eq, hn, not_false_eq_true, true_and]
    rw [List.foldl_cons, ih]
    simp only
    rw [hstep, Option.map_map]
    congr 1
    funext t
    simp only [Function.comp_apply, List.filter_filter, Slot.mk.injEq, true_and, and_true]
    refine List.filter_congr fun edge _ => ?_
    obtain ⟨p, m⟩ := edge
    rw [← Bool.decide_and, decide_eq_decide]
    by_cases hm : m = n
    · subst hm
      simp only [List.mem_cons, true_or, Prod.mk.injEq, and_true, true_and]
      tauto
    · simp [hm]

theorem unpatch_peek (id : Nat) (preds : List (Nat × Fin exitCount))
    (slots : List (Option (Slot β))) (j : Nat) :
    peek (BlockCache.unpatch id preds slots).1 j = (peek slots j).map fun s =>
      { s with exits := fun n =>
        if (j, n) ∈ preds ∧ (s.exits n).target = id then Link.empty else s.exits n } := by
  induction preds generalizing slots with
  | nil => rcases h : peek slots j with _ | s <;> simp [BlockCache.unpatch, h]
  | cons edge preds ih =>
    obtain ⟨p, m⟩ := edge
    unfold BlockCache.unpatch
    by_cases hp : BlockCache.patched slots id (p, m)
    · rw [if_pos hp]
      simp only
      rw [ih, peek_edit]
      by_cases hj : p = j
      · subst hj
        rw [if_pos rfl]
        obtain ⟨s, hs, hm⟩ : ∃ s, peek slots p = some s ∧ (s.exits m).target = id := by
          simpa [BlockCache.patched, Option.any_eq_true] using hp
        rw [hs]
        simp only [Option.map_some, Option.some.injEq, Slot.mk.injEq, true_and, and_true]
        funext n
        by_cases hn : n = m
        · subst hn
          simp_all
        · simp [hn]
      · rw [if_neg hj]
        have hne : ∀ n, (j, n) ≠ (p, m) := fun n h => hj (congrArg Prod.fst h).symm
        simp only [List.mem_cons, hne, false_or]
    · rw [if_neg hp, ih]
      rcases hs : peek slots j with _ | s
      · rfl
      · simp only [Option.map_some, Option.some.injEq, Slot.mk.injEq, true_and, and_true]
        funext n
        by_cases hn : (j, n) = (p, m)
        · obtain ⟨rfl, rfl⟩ := Prod.mk.inj hn
          have : ¬ (s.exits n).target = id := by
            simpa [BlockCache.patched, hs] using hp
          simp [this]
        · simp [List.mem_cons, hn]

theorem unlink_peek (hl : Linked slots) (hbelow : slots.length ≤ noSlot) {id : Nat} {slot : Slot β}
    (hid : peek slots id = some slot) (j : Nat) :
    peek (BlockCache.unpatch id slot.preds
      (BlockCache.dropExits id slot (slots.set id none))).1 j =
    if j = id then none else (peek slots j).map fun s =>
      { s with
        exits := fun n => if (s.exits n).target = id then Link.empty else s.exits n
        preds := s.preds.filter fun edge => edge.1 ≠ id } := by
  rw [unpatch_peek, BlockCache.dropExits, dropEdges_peek, peek_set _ (lt_of_peek hid)]
  by_cases hj : j = id
  · simp [hj]
  · rw [if_neg hj, if_neg (Ne.symm hj)]
    rcases ht : peek slots j with _ | t
    · rfl
    · have hjstop : j ≠ noSlot := by
        have := lt_of_peek ht
        omega
      -- a back edge from `id` is one of its exits, and carries the stamp of the slot it is in
      have hpreds : ∀ edge ∈ t.preds, (edge.1 = id ∧ edge.2 ∈ List.finRange exitCount ∧
          (slot.exits edge.2).target ≠ noSlot ∧ (slot.exits edge.2).target = j ∧
          t.stamp = (slot.exits edge.2).stamp) ↔ edge.1 = id := by
        intro edge hedge
        refine ⟨fun h => h.1, fun h => ?_⟩
        obtain ⟨q, hq, htarget⟩ := hl.back ht hedge
        rw [h, hid] at hq
        obtain rfl := Option.some.inj hq
        obtain ⟨t', ht', hstamp, -⟩ := hl.exit edge.2 hid (by rw [htarget]; exact hjstop)
        rw [htarget, ht] at ht'
        obtain rfl := Option.some.inj ht'
        exact ⟨h, List.mem_finRange _, by rw [htarget]; exact hjstop, htarget, hstamp⟩
      -- an exit that points at `id` is among the back edges of `id`
      have hexits : ∀ n, ((j, n) ∈ slot.preds ∧ (t.exits n).target = id) ↔
          (t.exits n).target = id := by
        intro n
        refine ⟨fun h => h.2, fun h => ⟨?_, h⟩⟩
        obtain ⟨t', ht', -, hmem⟩ := hl.exit n ht (by
          have := lt_of_peek hid
          omega)
        rw [h, hid] at ht'
        obtain rfl := Option.some.inj ht'
        exact hmem
      simp only [Option.map_some, hexits, Option.some.injEq, Slot.mk.injEq, true_and, and_true]
      refine List.filter_congr fun edge hedge => ?_
      rw [decide_eq_decide]
      exact not_congr (hpreds edge hedge)

theorem unchain_peek {next : Nat → Option Nat} {id after : Nat} (hstop : id ≠ noSlot)
    (hid : peek slots id = none) (hnext : ∀ i ≠ id, nextOf slots i = next i) :
    ∀ {l : List Nat} {at_ fuel : Nat}, Chained next noSlot at_ l → l.Nodup → id ∈ l →
      at_ ≠ id → l.length ≤ fuel → ∀ j,
      peek (BlockCache.unchain id after fuel at_ slots) j = (peek slots j).map fun s =>
        if j ∈ l ∧ s.next = id then { s with next := after } else s
  | [], _, _, _, _, hmem, _, _ => absurd hmem List.not_mem_nil
  | i :: l, at_, fuel, hc, hnodup, hmem, hne, hfuel => by
    intro j
    obtain ⟨rfl, hi, n, hn, hl⟩ := hc
    obtain ⟨hil, hnl⟩ := List.nodup_cons.mp hnodup
    have hidl : id ∈ l := (List.mem_cons.mp hmem).resolve_left (Ne.symm hne)
    obtain ⟨s, hs, rfl⟩ : ∃ s, peek slots at_ = some s ∧ s.next = n := by
      have := hnext at_ hne
      rw [hn] at this
      exact Option.map_eq_some_iff.mp this
    obtain ⟨fuel, rfl⟩ : ∃ k, fuel = k + 1 := ⟨fuel - 1, by rw [List.length_cons] at hfuel; omega⟩
    rw [BlockCache.unchain, if_neg hi]
    simp only [hs]
    by_cases hsid : s.next = id
    · -- found: nothing further down the chain leads back to `id`
      rw [if_pos hsid, peek_edit]
      by_cases hj : at_ = j
      · subst hj
        rw [if_pos rfl, hs]
        simp [hsid]
      · rw [if_neg hj]
        rcases ht : peek slots j with _ | t
        · rfl
        · rw [Option.map_some, if_neg]
          rintro ⟨hjl, htid⟩
          have hjl : j ∈ l := (List.mem_cons.mp hjl).resolve_left (Ne.symm hj)
          have hjid : j ≠ id := by
            rintro rfl
            rw [hid] at ht
            cases ht
          refine (hl.next_ne_head hnl (by rw [hsid]; exact hstop) hjl) ?_
          rw [← hnext j hjid, nextOf, ht, hsid, ← htid]
          rfl
    · rw [if_neg hsid, unchain_peek hstop hid hnext hl hnl hidl hsid
        (by rw [List.length_cons] at hfuel; omega) j]
      rcases ht : peek slots j with _ | t
      · rfl
      · by_cases hj : j = at_
        · subst hj
          rw [hs] at ht
          obtain rfl := Option.some.inj ht
          simp [hsid]
        · simp [hj]

theorem Linked.detach {slots' : List (Option (Slot β))} (hl : Linked slots) {id after : Nat}
    (h : ∀ j, peek slots' j =
      if j = id then none else (peek slots j).map (Slot.detach id after)) : Linked slots' := by
  have hget : ∀ {j s'}, peek slots' j = some s' →
      j ≠ id ∧ ∃ s, peek slots j = some s ∧ s.detach id after = s' := by
    intro j s' hs'
    rw [h] at hs'
    by_cases hj : j = id
    · rw [if_pos hj] at hs'
      exact absurd hs' (by simp)
    · rw [if_neg hj] at hs'
      exact ⟨hj, Option.map_eq_some_iff.mp hs'⟩
  refine ⟨?_, ?_, ?_⟩
  · intro i s' n hs' htarget
    obtain ⟨hi, s, hs, rfl⟩ := hget hs'
    by_cases hid : (s.exits n).target = id
    · exact absurd (by simp [Slot.detach, hid, Link.empty]) htarget
    · have hexit : (s.detach id after).exits n = s.exits n := if_neg hid
      rw [hexit] at htarget ⊢
      obtain ⟨t, ht, hstamp, hmem⟩ := hl.exit n hs htarget
      refine ⟨t.detach id after, by rw [h, if_neg hid, ht]; rfl, hstamp, ?_⟩
      exact List.mem_filter.mpr ⟨hmem, by simpa using hi⟩
  · intro i s' p n hs' hmem
    obtain ⟨hi, s, hs, rfl⟩ := hget hs'
    obtain ⟨hmem, hp⟩ := List.mem_filter.mp hmem
    obtain ⟨q, hq, htarget⟩ := hl.back hs hmem
    refine ⟨q.detach id after, by rw [h, if_neg (by simpa using hp), hq]; rfl, ?_⟩
    have hexit : (q.detach id after).exits n = q.exits n := if_neg (by rw [htarget]; exact hi)
    rw [hexit]
    exact htarget
  · intro i s' hs'
    obtain ⟨-, s, hs, rfl⟩ := hget hs'
    exact (hl.once hs).filter _

/-! ## The cache without a block -/

namespace BlockCache

variable {c c' : BlockCache β}

theorem bucket_lt (h : c.bucketMask.toNat < c.buckets.length) (pc key : UInt64) :
    c.bucket pc key < c.buckets.length := by
  refine lt_of_le_of_lt ?_ h
  exact Nat.and_le_right

theorem Core.leads (hc : Core c) {i j : Nat} {s t : Slot β} (hs : peek c.slots i = some s)
    (ht : peek c.slots j = some t) (hnext : s.next = j) :
    c.bucket s.pc s.key = c.bucket t.pc t.key := by
  obtain ⟨l, hl, -, hmem⟩ := hc.chain _ (bucket_lt hc.masked s.pc s.key)
  have hi : i ∈ l := (hmem i).mpr ⟨s.entry, entry_eq_some.mpr ⟨s, hs, rfl⟩, rfl⟩
  obtain ⟨n, hn, hnl⟩ := hl.next_mem hi
  rw [nextOf, hs] at hn
  obtain rfl : s.next = n := Option.some.inj hn
  have hj : j ∈ l := hnext ▸ hnl.resolve_left (by
    have := lt_of_peek ht
    have := hc.below
    omega)
  obtain ⟨e, he, hb⟩ := (hmem j).mp hj
  rw [entry, ht] at he
  obtain rfl : t.entry = e := Option.some.inj he
  exact hb.symm

@[simp] theorem dropExits_length (id : Nat) (slot : Slot β) (slots : List (Option (Slot β))) :
    (dropExits id slot slots).length = slots.length := by
  refine List.foldlRecOn (motive := fun s : List (Option (Slot β)) => s.length = slots.length)
      _ _ rfl ?_
  intro s hs n _
  simp only
  split
  · rw [dropBackEdge_length, hs]
  · exact hs

@[simp] theorem unpatch_length (id : Nat) (preds : List (Nat × Fin exitCount))
    (slots : List (Option (Slot β))) : (unpatch id preds slots).1.length = slots.length := by
  induction preds generalizing slots with
  | nil => rfl
  | cons edge preds ih =>
    unfold unpatch
    split
    · exact (ih _).trans (edit_length ..)
    · exact ih _

@[simp] theorem unchain_length (id next fuel at_ : Nat) (slots : List (Option (Slot β))) :
    (unchain id next fuel at_ slots).length = slots.length := by
  induction fuel generalizing at_ with
  | zero => rfl
  | succ fuel ih =>
    unfold unchain
    split
    · rfl
    · split
      · rfl
      · split
        · exact edit_length ..
        · exact ih _

theorem removeKeepingPage_peek (hc : Core c) {id : Nat} {slot : Slot β}
    (hid : peek c.slots id = some slot) (j : Nat) :
    peek (c.removeKeepingPage id).slots j =
      if j = id then none else (peek c.slots j).map (Slot.detach id slot.next) := by
  have hunlink := unlink_peek hc.linked hc.below hid
  have hstop : id ≠ noSlot := by
    have := lt_of_peek hid
    have := hc.below
    omega
  obtain ⟨l, hl, hnodup, hmem⟩ := hc.chain _ (bucket_lt hc.masked slot.pc slot.key)
  have hidl : id ∈ l := (hmem id).mpr ⟨slot.entry, entry_eq_some.mpr ⟨slot, hid, rfl⟩, rfl⟩
  have hleads : ∀ {i s}, peek c.slots i = some s → s.next = id → i ∈ l := fun hs hnext =>
    (hmem _).mpr ⟨_, entry_eq_some.mpr ⟨_, hs, rfl⟩, hc.leads hs hid hnext⟩
  unfold removeKeepingPage
  simp only [hid]
  by_cases hhead : c.head (c.bucket slot.pc slot.key) = id
  · -- at the head of its chain: nothing leads to it
    rw [if_pos hhead, hunlink]
    by_cases hj : j = id
    · rw [if_pos hj, if_pos hj]
    · rcases hs : peek c.slots j with _ | s
      · rfl
      · have hne : s.next ≠ id := by
          intro hnext
          refine hl.next_ne_head hnodup (by rw [hhead]; exact hstop) (hleads hs hnext) ?_
          rw [nextOf, hs, hhead, Option.map_some, hnext]
        simp [Slot.detach, hne]
  · rw [if_neg hhead]
    have hnext : ∀ i ≠ id, nextOf (unpatch id slot.preds
        (dropExits id slot (c.slots.set id none))).1 i = nextOf c.slots i := by
      intro i hi
      rw [nextOf, hunlink, if_neg hi, nextOf, Option.map_map]
      rfl
    have hlen : l.length ≤ c.slots.length := length_le_of_occupied hnodup fun i hi => by
      obtain ⟨e, he, -⟩ := (hmem i).mp hi
      obtain ⟨s, hs, -⟩ := entry_eq_some.mp he
      exact ⟨s, hs⟩
    rw [unchain_peek hstop (by rw [hunlink, if_pos rfl]) hnext hl hnodup hidl hhead (by omega),
      hunlink]
    by_cases hj : j = id
    · rw [if_pos hj, if_pos hj]
      rfl
    · rw [if_neg hj, if_neg hj]
      rcases hs : peek c.slots j with _ | s
      · rfl
      · by_cases hnid : s.next = id
        · simp [Slot.detach, hnid, hleads hs hnid]
        · simp [Slot.detach, hnid]

/-- What removal leaves alone. -/
structure Frame (c c' : BlockCache β) : Prop where
  length : c'.slots.length = c.slots.length
  nextStamp : c'.nextStamp = c.nextStamp
  capacity : c'.capacity = c.capacity
  filter : c'.filter = c.filter
  bucketMask : c'.bucketMask = c.bucketMask
  buckets : c'.buckets.length = c.buckets.length
  epoch : c'.epoch = c.epoch
  staleLinks : c'.stats.staleLinks = c.stats.staleLinks

theorem Frame.refl (c : BlockCache β) : Frame c c := ⟨rfl, rfl, rfl, rfl, rfl, rfl, rfl, rfl⟩

theorem Frame.trans {d e : BlockCache β} (h : Frame c d) (h' : Frame d e) : Frame c e :=
  ⟨h'.length.trans h.length, h'.nextStamp.trans h.nextStamp, h'.capacity.trans h.capacity,
    h'.filter.trans h.filter, h'.bucketMask.trans h.bucketMask, h'.buckets.trans h.buckets,
    h'.epoch.trans h.epoch, h'.staleLinks.trans h.staleLinks⟩

theorem removeKeepingPage_frame (c : BlockCache β) (id : Nat) :
    Frame c (c.removeKeepingPage id) := by
  unfold removeKeepingPage
  split
  · exact Frame.refl c
  · simp only
    split
    · exact ⟨by simp, rfl, rfl, rfl, rfl, by simp, rfl, rfl⟩
    · exact ⟨by simp, rfl, rfl, rfl, rfl, rfl, rfl, rfl⟩

@[simp] theorem removeKeepingPage_pages (c : BlockCache β) (id : Nat) :
    (c.removeKeepingPage id).pages = c.pages := by
  unfold removeKeepingPage
  split
  · rfl
  · simp only
    split <;> rfl

@[simp] theorem removeKeepingPage_order (c : BlockCache β) (id : Nat) :
    (c.removeKeepingPage id).order = c.order := by
  unfold removeKeepingPage
  split
  · rfl
  · simp only
    split <;> rfl

theorem removeKeepingPage_free {id : Nat} {slot : Slot β} (hid : peek c.slots id = some slot) :
    (c.removeKeepingPage id).free = id :: c.free := by
  unfold removeKeepingPage
  simp only [hid]
  split <;> rfl

theorem removeKeepingPage_head (hc : Core c) {id : Nat} {slot : Slot β}
    (hid : peek c.slots id = some slot) (b : Nat) :
    (c.removeKeepingPage id).head b =
      if b = c.bucket slot.pc slot.key ∧ c.head b = id then slot.next else c.head b := by
  have hlt := bucket_lt hc.masked slot.pc slot.key
  unfold removeKeepingPage
  simp only [hid]
  by_cases hhead : c.head (c.bucket slot.pc slot.key) = id
  · rw [if_pos hhead, head, List.getD_eq_getElem?_getD, List.getElem?_set]
    by_cases hb : c.bucket slot.pc slot.key = b
    · subst hb
      simp [hlt, hhead]
    · rw [if_neg hb, if_neg (fun h => hb h.1.symm), head, List.getD_eq_getElem?_getD]
  · rw [if_neg hhead, if_neg]
    · rfl
    · rintro ⟨rfl, h⟩
      exact hhead h

theorem bucket_congr (h : c'.bucketMask = c.bucketMask) (pc key : UInt64) :
    c'.bucket pc key = c.bucket pc key := by
  unfold bucket
  rw [h]

theorem filterSet_congr (h : c'.filter = c.filter) (page : UInt64) :
    c'.filterSet page = c.filterSet page := by
  unfold filterSet
  rw [h]

/-- **What clearing slots does.** The blocks of the slots in `gone` are gone, and every other
block is there with all its cache says of it. -/
structure Cleared (c c' : BlockCache β) (gone : Nat → Prop) : Prop where
  frame : Frame c c'
  order : c'.order = c.order
  went : ∀ {i}, gone i → c'.entry i = none
  kept : ∀ {i}, ¬ gone i → c'.entry i = c.entry i

theorem Cleared.none (c : BlockCache β) : Cleared c c fun _ => False :=
  ⟨Frame.refl c, rfl, fun h => h.elim, fun _ => rfl⟩

theorem Cleared.congr {P Q : Nat → Prop} (h : Cleared c c' P)
    (hPQ : ∀ i e, c.entry i = some e → (P i ↔ Q i)) : Cleared c c' Q := by
  refine ⟨h.frame, h.order, fun {i} hQ => ?_, fun {i} hQ => ?_⟩
  · by_cases hP : P i
    · exact h.went hP
    · rw [h.kept hP]
      rcases he : c.entry i with _ | e
      · rfl
      · exact absurd ((hPQ i e he).mpr hQ) hP
  · by_cases hP : P i
    · rw [h.went hP]
      rcases he : c.entry i with _ | e
      · rfl
      · exact absurd ((hPQ i e he).mp hP) hQ
    · exact h.kept hP

theorem Cleared.trans {d e : BlockCache β} {P Q : Nat → Prop} (h : Cleared c d P)
    (h' : Cleared d e Q) : Cleared c e fun i => P i ∨ Q i := by
  refine ⟨h.frame.trans h'.frame, h'.order.trans h.order, fun {i} hPQ => ?_, fun {i} hPQ => ?_⟩
  · by_cases hQ : Q i
    · exact h'.went hQ
    · rw [h'.kept hQ]
      exact h.went (hPQ.resolve_right hQ)
  · rw [h'.kept fun hQ => hPQ (Or.inr hQ), h.kept fun hP => hPQ (Or.inl hP)]

theorem Cleared.entry_eq_some {gone : Nat → Prop} (h : Cleared c c' gone) {i : Nat} {e : Entry β} :
    c'.entry i = some e ↔ c.entry i = some e ∧ ¬ gone i := by
  by_cases hi : gone i
  · rw [h.went hi]
    simp [hi]
  · rw [h.kept hi]
    simp [hi]

theorem Cleared.ordered {gone : Nat → Prop} (h : Cleared c c' gone) (ho : Ordered c) :
    Ordered c' := by
  intro i e he
  rw [h.order]
  exact ho (h.entry_eq_some.mp he).1

theorem Cleared.paged {gone : Nat → Prop} (h : Cleared c c' gone) (hp : Paged c)
    (hnodup : ∀ p, (c'.pageList p).Nodup)
    (hmem : ∀ p i, i ∈ c'.pageList p ↔ i ∈ c.pageList p ∧ ¬ gone i) : Paged c' := by
  refine ⟨hnodup, fun p i => ?_⟩
  rw [hmem, hp.mem]
  constructor
  · rintro ⟨⟨e, he, hpage⟩, hi⟩
    exact ⟨e, h.entry_eq_some.mpr ⟨he, hi⟩, hpage⟩
  · rintro ⟨e, he, hpage⟩
    obtain ⟨he, hi⟩ := h.entry_eq_some.mp he
    exact ⟨⟨e, he, hpage⟩, hi⟩

theorem removeKeepingPage_dead {id : Nat} (hid : peek c.slots id = none) :
    c.removeKeepingPage id = c := by
  unfold removeKeepingPage
  simp only [hid]

theorem removeKeepingPage_cleared (hc : Core c) (id : Nat) :
    Cleared c (c.removeKeepingPage id) (· = id) := by
  refine ⟨removeKeepingPage_frame c id, removeKeepingPage_order c id, ?_, ?_⟩
  · rintro i rfl
    rcases hid : peek c.slots i with _ | slot
    · rw [removeKeepingPage_dead hid, entry, hid, Option.map_none]
    · rw [entry, removeKeepingPage_peek hc hid, if_pos rfl, Option.map_none]
  · intro i hi
    rcases hid : peek c.slots id with _ | slot
    · rw [removeKeepingPage_dead hid]
    · rw [entry, removeKeepingPage_peek hc hid, if_neg hi, Option.map_map]
      rfl

theorem removeKeepingPage_chain (hc : Core c) {id : Nat} {slot : Slot β}
    (hid : peek c.slots id = some slot) {b : Nat} (hb : b < c.buckets.length) :
    ∃ l, Chained (nextOf (c.removeKeepingPage id).slots) noSlot
        ((c.removeKeepingPage id).head b) l ∧ l.Nodup ∧
      ∀ i, i ∈ l ↔ ∃ e, (c.removeKeepingPage id).entry i = some e ∧ c.bucket e.pc e.key = b := by
  have hstop : id ≠ noSlot := by
    have := lt_of_peek hid
    have := hc.below
    omega
  have hcleared := removeKeepingPage_cleared hc id
  have hnext : ∀ i ≠ id, nextOf (c.removeKeepingPage id).slots i =
      (nextOf c.slots i).map fun n => if n = id then slot.next else n := by
    intro i hi
    rw [nextOf, removeKeepingPage_peek hc hid, if_neg hi, nextOf, Option.map_map, Option.map_map]
    rfl
  obtain ⟨l, hl, hnodup, hmem⟩ := hc.chain b hb
  refine ⟨l.filter (· ≠ id), ?_, hnodup.filter _, fun i => ?_⟩
  · rw [removeKeepingPage_head hc hid]
    by_cases hbid : b = c.bucket slot.pc slot.key
    · simp only [hbid, true_and]
      exact (hbid ▸ hl).bypass hnodup hstop (by rw [nextOf, hid]; rfl) hnext
    · have hidl : id ∉ l := by
        intro h
        obtain ⟨e, he, rfl⟩ := (hmem id).mp h
        rw [entry, hid] at he
        obtain rfl := Option.some.inj he
        exact hbid rfl
      have hfilter : l.filter (· ≠ id) = l := List.filter_eq_self.mpr fun j hj => by
        simpa using fun h : j = id => hidl (h ▸ hj)
      rw [if_neg fun h => hbid h.1, hfilter]
      exact hl.skip hidl hstop hnext
  · rw [List.mem_filter, hmem]
    constructor
    · rintro ⟨⟨e, he, hbe⟩, hi⟩
      exact ⟨e, hcleared.entry_eq_some.mpr ⟨he, by simpa using hi⟩, hbe⟩
    · rintro ⟨e, he, hbe⟩
      obtain ⟨he, hi⟩ := hcleared.entry_eq_some.mp he
      exact ⟨⟨e, he, hbe⟩, by simpa using hi⟩

theorem removeKeepingPage_core (hc : Core c) (id : Nat) : Core (c.removeKeepingPage id) := by
  rcases hid : peek c.slots id with _ | slot
  · rw [removeKeepingPage_dead hid]
    exact hc
  have hcleared := removeKeepingPage_cleared hc id
  have hframe := hcleared.frame
  have hpeek := removeKeepingPage_peek hc hid
  refine
    { linked := hc.linked.detach hpeek
      masked := by rw [hframe.bucketMask, hframe.buckets]; exact hc.masked
      chain := ?_
      unique := fun he hf => hc.unique (hcleared.entry_eq_some.mp he).1
        (hcleared.entry_eq_some.mp hf).1
      free_nodup := ?_
      mem_free := ?_
      below := by rw [hframe.length]; exact hc.below
      fits := by rw [hframe.length, hframe.capacity]; exact hc.fits
      room := by rw [hframe.capacity]; exact hc.room
      filtered := fun he => by
        rw [filterSet_congr hframe.filter]
        exact hc.filtered (hcleared.entry_eq_some.mp he).1
      wide := by rw [hframe.filter]; exact hc.wide
      aligned := fun he => hc.aligned (hcleared.entry_eq_some.mp he).1
      belt := by rw [hframe.staleLinks]; exact hc.belt }
  · intro b hb
    rw [hframe.buckets] at hb
    obtain ⟨l, hl, hnodup, hmem⟩ := removeKeepingPage_chain hc hid hb
    refine ⟨l, hl, hnodup, fun i => ?_⟩
    simp only [bucket_congr hframe.bucketMask]
    exact hmem i
  · rw [removeKeepingPage_free hid]
    refine List.nodup_cons.mpr ⟨fun h => ?_, hc.free_nodup⟩
    rw [((hc.mem_free id).mp h).2] at hid
    cases hid
  · intro i
    rw [removeKeepingPage_free hid, List.mem_cons, hframe.length, hpeek, hc.mem_free]
    by_cases hi : i = id
    · subst hi
      simp [lt_of_peek hid]
    · simp [hi]

theorem removeAll_spec (hc : Core c) (ids : List Nat) :
    Core (ids.foldl removeKeepingPage c) ∧
      Cleared c (ids.foldl removeKeepingPage c) (· ∈ ids) ∧
      (ids.foldl removeKeepingPage c).pages = c.pages := by
  induction ids generalizing c with
  | nil => exact ⟨hc, (Cleared.none c).congr fun i e _ => by simp, rfl⟩
  | cons id ids ih =>
    obtain ⟨hcore, hcleared, hpages⟩ := ih (removeKeepingPage_core hc id)
    rw [List.foldl_cons]
    refine ⟨hcore, ((removeKeepingPage_cleared hc id).trans hcleared).congr fun i e _ => ?_, ?_⟩
    · rw [List.mem_cons]
    · rw [hpages, removeKeepingPage_pages]

end BlockCache

end Rsemu.Jit
