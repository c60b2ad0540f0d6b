import Rsemu.Jit.CacheOps

/-!
# Whole runs of the translation cache

What the cache is for, without slots, hashes and links: a `Shelf` of blocks, oldest first, at
most one for a pc and a key, from which operations take blocks away. Over every run of
operations the blocks resident in the cache are the blocks on the shelf (`Tracks.step`), as
long as no stamp is used twice and no slot has the sentinel for its index.
-/

namespace Rsemu.Jit

open Slab BlockCache

variable {β : Type}

/-- A call on the cache; the ids can be of any blocks, live or dead. -/
inductive Op (β : Type) where
  | insert (pc key page : UInt64) (insns : Nat) (block : β)
  | lookup (pc key : UInt64)
  | link (from_ : BlockId) (pc : UInt64) (to_ : BlockId)
  | follow (from_ : BlockId) (pc key : UInt64)
  | setCode (id : BlockId) (code : CodeRef)
  | invalidate (id : BlockId)
  | invalidatePage (phys : UInt64)
  | noteWrite (phys len : UInt64)
  | sync (epoch : Epoch)
  | flush

/-- The cache after a call. -/
def BlockCache.apply (c : BlockCache β) : Op β → BlockCache β
  | .insert pc key page insns block => (c.insert pc key page insns block).2
  | .lookup pc key => (c.lookup pc key).2
  | .link from_ pc to_ => c.link from_ pc to_
  | .follow from_ pc key => (c.follow from_ pc key).2
  | .setCode id code => c.setCode id code
  | .invalidate id => (c.invalidate id).2
  | .invalidatePage phys => (c.invalidatePage phys).2
  | .noteWrite phys len => (c.noteWrite phys len).2
  | .sync epoch => (c.sync epoch).2
  | .flush => c.flush

/-- What a cache with no bound and no index would hold. -/
structure Shelf (β : Type) where
  /-- The blocks not since replaced, invalidated, evicted or flushed, oldest first. -/
  blocks : List (Resident β)
  /-- Every block inserted so far, the last one first. -/
  issued : List (Resident β)
  topology : UInt64

def BlockCache.Resident.under (pc key : UInt64) (r : Resident β) : Bool :=
  r.entry.pc = pc ∧ r.entry.key = key

/-- The shelf after a call; an insertion is given the id the cache chose. -/
def Shelf.step (capacity : Nat) (s : Shelf β) (id : BlockId) : Op β → Shelf β
  | .insert pc key page insns block =>
    let new : Resident β := ⟨id.slot, ⟨block, pc, key, pageOf page, insns, id.stamp⟩⟩
    let others := s.blocks.filter fun r => ¬ r.under pc key
    { s with
      blocks := others.drop (others.length + 1 - capacity) ++ [new]
      issued := new :: s.issued }
  | .invalidate id => { s with blocks := s.blocks.filter fun r => ¬ r.id = id }
  | .invalidatePage phys => { s with blocks := s.blocks.filter fun r => ¬ r.entry.page = pageOf phys }
  | .noteWrite phys len =>
    { s with blocks := s.blocks.filter fun r => ¬ Touches phys len r.entry.page }
  | .sync epoch =>
    { s with
      blocks := if epoch.topology = s.topology then s.blocks else []
      topology := epoch.topology }
  | .flush => { s with blocks := [] }
  | _ => s

def BlockCache.given (c : BlockCache β) : Op β → BlockId
  | .insert pc key page insns block => (c.insert pc key page insns block).1
  | _ => ⟨noSlot, 0⟩

/-- A cache beside the shelf it is compared with. -/
structure Shop (β : Type) where
  cache : BlockCache β
  shelf : Shelf β

def Shop.step (w : Shop β) (op : Op β) : Shop β :=
  ⟨w.cache.apply op, w.shelf.step w.cache.capacity (w.cache.given op) op⟩

def Shop.run (w : Shop β) (ops : List (Op β)) : Shop β := ops.foldl Shop.step w

def Shop.new (β : Type) (capacity : Nat) : Shop β := ⟨withCapacity β capacity, ⟨[], [], 0⟩⟩

/-- Whether a call can be served with a slot and a stamp of its own: an insertion needs a
slot whose index is not the sentinel, and a counter that has not come round. -/
def Shop.Fits (w : Shop β) : Op β → Prop
  | .insert pc key _ _ _ => w.cache.CanInsert pc key ∧ w.shelf.issued.length < 2 ^ 64
  | _ => True

/-- Every call of a run can be served so. -/
def Shop.FitsAll : Shop β → List (Op β) → Prop
  | _, [] => True
  | w, op :: ops => w.Fits op ∧ (w.step op).FitsAll ops

def stampsOf : Nat → List UInt64
  | 0 => []
  | n + 1 => UInt64.ofNat (n + 1) :: stampsOf n

theorem mem_stampsOf {n : Nat} {x : UInt64} :
    x ∈ stampsOf n ↔ ∃ k, 1 ≤ k ∧ k ≤ n ∧ x = UInt64.ofNat k := by
  induction n with
  | zero =>
    refine iff_of_false List.not_mem_nil ?_
    rintro ⟨k, h1, h2, -⟩
    omega
  | succ n ih =>
    rw [stampsOf, List.mem_cons, ih]
    constructor
    · rintro (rfl | ⟨k, h1, h2, rfl⟩)
      · exact ⟨n + 1, by omega, by omega, rfl⟩
      · exact ⟨k, h1, by omega, rfl⟩
    · rintro ⟨k, h1, h2, rfl⟩
      rcases Nat.lt_or_ge n k with hk | hk
      · exact Or.inl (by rw [show k = n + 1 by omega])
      · exact Or.inr ⟨k, h1, hk, rfl⟩

theorem stamp_fresh {n : Nat} (h : n < 2 ^ 64) : UInt64.ofNat (n + 1) ∉ stampsOf n := by
  intro hmem
  obtain ⟨k, h1, h2, heq⟩ := mem_stampsOf.mp hmem
  have := congrArg UInt64.toNat heq
  rw [UInt64.toNat_ofNat', UInt64.toNat_ofNat'] at this
  omega

theorem stampsOf_nodup : ∀ {n : Nat}, n ≤ 2 ^ 64 → (stampsOf n).Nodup
  | 0, _ => List.nodup_nil
  | n + 1, h => List.nodup_cons.mpr ⟨stamp_fresh (by omega), stampsOf_nodup (by omega)⟩

/-- **The cache tracks its shelf.** -/
structure Tracks (w : Shop β) : Prop where
  coherent : Coherent w.cache
  resident : w.cache.resident = w.shelf.blocks
  topology : w.cache.epoch.topology = w.shelf.topology
  nextStamp : w.cache.nextStamp = UInt64.ofNat (w.shelf.issued.length + 1)
  stamps : w.shelf.issued.map (·.entry.stamp) = stampsOf w.shelf.issued.length
  count : w.shelf.issued.length ≤ 2 ^ 64
  nodup : w.cache.order.Nodup
  /-- What the order names was issued. -/
  order : ∀ x ∈ w.cache.order, x.2 ∈ stampsOf w.shelf.issued.length
  /-- A block on the shelf is the last one issued under its pc and key. -/
  latest : ∀ r ∈ w.shelf.blocks,
    w.shelf.issued.find? (BlockCache.Resident.under r.entry.pc r.entry.key) = some r

theorem tracks_new (capacity : Nat) : Tracks (Shop.new β capacity) where
  coherent := withCapacity_spec capacity
  resident := rfl
  topology := rfl
  nextStamp := rfl
  stamps := rfl
  count := Nat.zero_le _
  nodup := List.nodup_nil
  order := fun _ hx => absurd hx List.not_mem_nil
  latest := fun _ hr => absurd hr List.not_mem_nil

variable {c' : BlockCache β} {w : Shop β}

theorem Tracks.cleared (h : Tracks w) (hc' : Coherent c') {gone : Nat → Prop}
    (hcleared : Cleared w.cache c' gone) {P : Resident β → Prop} [DecidablePred P]
    (hP : ∀ r, w.cache.entry r.slot = some r.entry → (gone r.slot ↔ P r)) :
    Tracks ⟨c', { w.shelf with blocks := w.shelf.blocks.filter fun r => ¬ P r }⟩ where
  coherent := hc'
  resident := by rw [hcleared.resident hP, h.resident]
  topology := by rw [hcleared.frame.epoch]; exact h.topology
  nextStamp := by rw [hcleared.frame.nextStamp]; exact h.nextStamp
  stamps := h.stamps
  count := h.count
  nodup := by rw [hcleared.order]; exact h.nodup
  order := by rw [hcleared.order]; exact h.order
  latest := fun r hr => h.latest r (List.mem_filter.mp hr).1

theorem Tracks.kept (h : Tracks w) (hc' : Coherent c' ∧ Cleared w.cache c' fun _ => False) :
    Tracks ⟨c', w.shelf⟩ := by
  have := h.cleared hc'.1 hc'.2 (P := fun _ => False) (fun _ _ => Iff.rfl)
  have hall : (w.shelf.blocks.filter fun _ => ¬ False) = w.shelf.blocks :=
    List.filter_eq_self.mpr fun _ _ => by simp
  rwa [hall] at this

theorem Tracks.emptied (h : Tracks w) (hc' : Coherent c')
    (hstamp : c'.nextStamp = w.cache.nextStamp) (horder : c'.order = []) (topology : UInt64)
    (htopology : c'.epoch.topology = topology) :
    Tracks ⟨c', { w.shelf with blocks := [], topology }⟩ where
  coherent := hc'
  resident := by rw [BlockCache.resident, horder]; rfl
  topology := htopology
  nextStamp := hstamp.trans h.nextStamp
  stamps := h.stamps
  count := h.count
  nodup := by rw [horder]; exact List.nodup_nil
  order := by rw [horder]; exact fun _ hx => absurd hx List.not_mem_nil
  latest := fun _ hr => absurd hr List.not_mem_nil

theorem filled_resident {c : BlockCache β} {s : Slot β} {i : Nat} (h : Filled c s i c')
    (hfresh : ∀ x ∈ c.order, x.2 ≠ s.stamp) : c'.resident = c.resident ++ [⟨i, s.entry⟩] := by
  have hnew : c'.named (i, s.stamp) = some ⟨i, s.entry⟩ :=
    named_eq_some.mpr ⟨by rw [h.entry, if_pos rfl], rfl⟩
  unfold BlockCache.resident
  rw [h.order, List.filterMap_append, List.filterMap_cons_some hnew, List.filterMap_nil]
  congr 1
  refine List.filterMap_congr fun x hx => Option.ext fun r => ?_
  rw [named_eq_some, named_eq_some, h.entry]
  by_cases hr : r.slot = i
  · -- the slot was empty, and its new block is under a stamp the order did not have
    rw [if_pos hr, hr, h.empty]
    refine iff_of_false ?_ (by simp)
    rintro ⟨he, rfl⟩
    refine hfresh _ hx ?_
    rw [← Option.some.inj he]
    rfl
  · rw [if_neg hr]

theorem under_iff {pc key : UInt64} {r : Resident β} :
    r.under pc key = true ↔ r.entry.pc = pc ∧ r.entry.key = key := by
  simp [Resident.under]

theorem Tracks.insert (h : Tracks w) {pc key page : UInt64} {insns : Nat} {block : β}
    (hfits : w.Fits (.insert pc key page insns block)) :
    Tracks (w.step (.insert pc key page insns block)) := by
  obtain ⟨hcan, hcount⟩ := hfits
  obtain ⟨hstamp, hfilled, hcoherent⟩ := insert_spec h.coherent hcan page insns block
  obtain ⟨hold, hcleared⟩ := dropOld_spec h.coherent pc key
  have hroomy := cleared_roomy h.coherent pc key
  obtain ⟨d, hd⟩ : ∃ d, d = w.cache.cleared pc key := ⟨_, rfl⟩
  rw [← hd] at hfilled hroomy
  obtain ⟨id, hid⟩ : ∃ id, id = (w.cache.insert pc key page insns block).1 := ⟨_, rfl⟩
  obtain ⟨c', hc'⟩ : ∃ c', c' = (w.cache.insert pc key page insns block).2 := ⟨_, rfl⟩
  rw [← hid] at hstamp hfilled
  rw [← hc'] at hfilled hcoherent
  have hstep : w.step (.insert pc key page insns block) =
      ⟨c', w.shelf.step w.cache.capacity id (.insert pc key page insns block)⟩ := by
    rw [hc', hid]
    rfl
  rw [hstep]
  have hdstamp : d.nextStamp = w.cache.nextStamp :=
    hroomy.nextStamp.trans hcleared.frame.nextStamp
  have hentry : (d.freshSlot pc key page insns block).entry =
      ⟨block, pc, key, pageOf page, insns, id.stamp⟩ := by
    rw [hstamp, ← hdstamp]
    rfl
  have hnodup : d.order.Nodup :=
    hroomy.order.nodup (by rw [hcleared.order]; exact h.nodup)
  have horder : ∀ x ∈ d.order, x.2 ∈ stampsOf w.shelf.issued.length := fun x hx =>
    h.order x (by rw [← hcleared.order]; exact hroomy.order.subset hx)
  have hfresh : ∀ x ∈ d.order, x.2 ≠ (d.freshSlot pc key page insns block).stamp := by
    intro x hx heq
    refine stamp_fresh hcount ?_
    rw [← h.nextStamp, ← hdstamp]
    have hmem := horder x hx
    rwa [heq] at hmem
  -- what is left of the shelf: not the block that is replaced, and as many as there is room for
  have hothers : (w.cache.dropOld pc key).resident =
      w.shelf.blocks.filter fun r => ¬ r.under pc key := by
    rw [hcleared.resident (P := fun r => r.under pc key = true), h.resident]
    intro r he
    rw [under_iff]
    constructor
    · rintro ⟨e, he', hpk⟩
      rw [he] at he'
      obtain rfl := Option.some.inj he'
      exact hpk
    · exact fun hpk => ⟨r.entry, he, hpk⟩
  have hlen : (w.cache.dropOld pc key).len =
      (w.shelf.blocks.filter fun r => ¬ r.under pc key).length := by
    rw [← hothers]
    exact (resident_length hold.core hold.ordered (by rw [hcleared.order]; exact h.nodup)).symm
  exact
    { coherent := hcoherent
      resident := by
        rw [filled_resident hfilled hfresh, hentry,
          hroomy.resident (by rw [hcleared.order]; exact h.nodup), hothers, hlen,
          hcleared.frame.capacity]
        rfl
      topology := by
        rw [hfilled.epoch, hroomy.epoch, hcleared.frame.epoch]
        exact h.topology
      nextStamp := by
        rw [hfilled.nextStamp, hdstamp, h.nextStamp]
        exact (UInt64.ofNat_add ..).symm
      stamps := by
        simp only [Shelf.step, List.map_cons, List.length_cons, h.stamps, stampsOf]
        rw [hstamp, h.nextStamp]
      count := hcount
      nodup := by
        rw [hfilled.order]
        refine List.nodup_append'.mpr ⟨hnodup, List.nodup_singleton _, fun x hx hxn => ?_⟩
        rw [List.mem_singleton] at hxn
        refine hfresh x hx ?_
        rw [hxn]
      order := by
        intro x hx
        simp only [Shelf.step, List.length_cons, stampsOf, List.mem_cons]
        rw [hfilled.order, List.mem_append, List.mem_singleton] at hx
        rcases hx with hx | rfl
        · exact Or.inr (horder x hx)
        · refine Or.inl ?_
          rw [← h.nextStamp, ← hdstamp]
          rfl
      latest := by
        intro r hr
        simp only [Shelf.step, List.mem_append, List.mem_singleton] at hr ⊢
        rcases hr with hr | rfl
        · have hr := List.mem_filter.mp (List.mem_of_mem_drop hr)
          rw [List.find?_cons_of_neg]
          · exact h.latest r hr.1
          · -- the new block has a pc and a key nothing else on the shelf has
            intro hnew
            obtain ⟨hpc, hkey⟩ := under_iff.mp hnew
            have := hr.2
            simp only [decide_eq_true_eq] at this
            exact this (under_iff.mpr ⟨hpc.symm, hkey.symm⟩)
        · rw [List.find?_cons_of_pos]
          exact under_iff.mpr ⟨rfl, rfl⟩ }

theorem Tracks.step (h : Tracks w) {op : Op β} (hfits : w.Fits op) : Tracks (w.step op) := by
  cases op with
  | insert pc key page insns block => exact h.insert hfits
  | lookup pc key => exact h.kept (lookup_spec h.coherent pc key)
  | link from_ pc to_ => exact h.kept (link_spec h.coherent from_ pc to_)
  | follow from_ pc key =>
    obtain ⟨hc', hcleared, -⟩ := follow_spec h.coherent from_ pc key
    exact h.kept ⟨hc', hcleared⟩
  | setCode id code => exact h.kept (setCode_spec h.coherent id code)
  | invalidate id =>
    obtain ⟨hc', hcleared⟩ := invalidate_spec h.coherent id
    refine h.cleared hc' hcleared (P := fun r => r.id = id) fun r he => ?_
    obtain ⟨slot, stamp⟩ := id
    simp only [Resident.id, BlockId.mk.injEq]
    refine and_congr_right fun hslot => ?_
    constructor
    · rintro ⟨e, he', hs⟩
      rw [he] at he'
      rw [Option.some.inj he']
      exact hs
    · exact fun hs => ⟨r.entry, he, hs⟩
  | invalidatePage phys =>
    obtain ⟨hcore, hpaged, hcleared⟩ :=
      invalidatePage_spec h.coherent.core h.coherent.paged phys
    refine h.cleared ⟨hcore, hpaged, hcleared.ordered h.coherent.ordered⟩ hcleared
      (P := fun r => r.entry.page = pageOf phys) fun r he => ?_
    constructor
    · rintro ⟨e, he', hpage⟩
      rw [he] at he'
      rw [Option.some.inj he']
      exact hpage
    · exact fun hpage => ⟨r.entry, he, hpage⟩
  | noteWrite phys len =>
    obtain ⟨hcore, hpaged, hcleared⟩ :=
      noteWrite_spec h.coherent.core h.coherent.paged phys len
    refine h.cleared ⟨hcore, hpaged, hcleared.ordered h.coherent.ordered⟩ hcleared
      (P := fun r => Touches phys len r.entry.page) fun r he => ?_
    constructor
    · rintro ⟨e, he', htouch⟩
      rw [he] at he'
      rw [Option.some.inj he']
      exact htouch
    · exact fun htouch => ⟨r.entry, he, htouch⟩
  | sync epoch =>
    obtain ⟨hc', -⟩ := sync_spec h.coherent epoch
    by_cases htop : epoch.topology = w.cache.epoch.topology
    · have hsame : (w.cache.sync epoch).2 = { w.cache with epoch } := by
        simp [BlockCache.sync, htop]
      have hblocks : (if epoch.topology = w.shelf.topology then w.shelf.blocks else []) =
          w.shelf.blocks := if_pos (htop.trans h.topology)
      have hstep : w.step (.sync epoch) =
          ⟨{ w.cache with epoch }, { w.shelf with topology := epoch.topology }⟩ := by
        rw [← hsame]
        unfold Shop.step Shelf.step
        simp only [hblocks]
        rfl
      rw [hstep]
      rw [hsame] at hc'
      exact
        { coherent := hc'
          resident := h.resident
          topology := rfl
          nextStamp := h.nextStamp
          stamps := h.stamps
          count := h.count
          nodup := h.nodup
          order := h.order
          latest := h.latest }
    · have hflush : (w.cache.sync epoch).2 = { w.cache with epoch }.flush := by
        simp [BlockCache.sync, htop]
      have hblocks : (if epoch.topology = w.shelf.topology then w.shelf.blocks else []) = [] :=
        if_neg fun heq => htop (heq.trans h.topology.symm)
      have hstep : w.step (.sync epoch) = ⟨{ w.cache with epoch }.flush,
          { w.shelf with blocks := [], topology := epoch.topology }⟩ := by
        rw [← hflush]
        unfold Shop.step Shelf.step
        simp only [hblocks]
        rfl
      rw [hstep]
      rw [hflush] at hc'
      exact h.emptied hc' rfl rfl _ rfl
  | flush =>
    have := h.emptied (flush_spec h.coherent).1 rfl rfl w.shelf.topology h.topology
    exact this

theorem Tracks.run (h : Tracks w) {ops : List (Op β)} (hfits : w.FitsAll ops) :
    Tracks (w.run ops) := by
  induction ops generalizing w with
  | nil => exact h
  | cons op ops ih => exact ih (h.step hfits.1) hfits.2

theorem forM_ok {α : Type} {l : List α} {f : α → Except String Unit} (h : ∀ x ∈ l, f x = .ok ()) :
    l.forM f = .ok () := by
  induction l with
  | nil => rfl
  | cons x l ih =>
    change (f x >>= fun _ => l.forM f) = _
    rw [h x (List.mem_cons_self ..)]
    exact ih fun y hy => h y (List.mem_cons_of_mem _ hy)

theorem check_ok {c : BlockCache β} (hc : Coherent c) : c.check = .ok () := by
  have hslots : ((List.range c.slots.length).forM fun i =>
      (peek c.slots i).elim (.ok ()) (c.checkSlot i)) = Except.ok () := by
    refine forM_ok fun i _ => ?_
    rcases hs : peek c.slots i with _ | s
    · rfl
    have hentry : c.entry i = some s.entry := entry_eq_some.mpr ⟨s, hs, rfl⟩
    have hexits : (List.finRange exitCount).forM (c.checkExit i s) = .ok () := by
      refine forM_ok fun n _ => ?_
      unfold checkExit
      by_cases hn : (s.exits n).target = noSlot
      · rw [if_pos hn]
      · obtain ⟨t, ht, hstamp, hmem⟩ := hc.core.linked.exit n hs hn
        rw [if_neg hn, ht]
        simp only
        rw [if_neg (not_not.mpr hstamp), if_neg (not_not.mpr hmem)]
    have hpreds : s.preds.forM (c.checkBackEdge i) = .ok () := by
      refine forM_ok fun edge hedge => ?_
      obtain ⟨q, hq, htarget⟩ := hc.core.linked.back hs hedge
      unfold checkBackEdge
      simp only [hq]
      rw [if_neg (not_not.mpr htarget)]
    have hfilter : c.filterSet s.page = true := by
      rw [← s.entry_page]
      exact hc.core.filtered hentry
    have hpage : i ∈ (c.pages.get s.page.toNat).getD [] :=
      (hc.paged.mem s.page.toNat i).mpr ⟨s.entry, hentry, rfl⟩
    simp only [Option.elim_some]
    unfold checkSlot
    rw [hexits, hpreds, if_pos hpage, if_pos hfilter]
    rfl
  have hpages : (c.pages.entries.forM fun entry => entry.2.forM (c.checkPage entry.1)) =
      Except.ok () := by
    refine forM_ok fun entry hentry => forM_ok fun i hi => ?_
    obtain ⟨p, list⟩ := entry
    have hget : c.pages.get p = some list := SortedMap.get_eq_some.mpr hentry
    obtain ⟨e, he, hpage⟩ := (hc.paged.mem p i).mp (by rw [pageList, hget]; exact hi)
    obtain ⟨s, hs, rfl⟩ := entry_eq_some.mp he
    unfold checkPage
    rw [if_pos]
    rw [hs, Option.any_some]
    exact decide_eq_true hpage
  have hbelt : ¬ c.stats.staleLinks ≠ 0 := not_not.mpr hc.core.belt
  unfold check
  rw [hslots, hpages, if_neg hbelt]
  rfl

def Shelf.current (s : Shelf β) (pc key : UInt64) : Option BlockId :=
  ((s.issued.find? (BlockCache.Resident.under pc key)).map Resident.id).filter
    fun id => id ∈ s.blocks.map Resident.id

/-- A block that was handed out and is no longer in the cache. -/
def Shop.Gone (w : Shop β) (id : BlockId) : Prop :=
  id ∈ w.shelf.issued.map Resident.id ∧ w.cache.slot id = none

/-- **What the cache promises its callers.** -/
structure Promises (w : Shop β) : Prop where
  check : w.cache.check = .ok ()
  /-- An exit link names a live slot by its stamp and has exactly one back edge. -/
  exit : ∀ i s n, peek w.cache.slots i = some s → (s.exits n).target ≠ noSlot →
    ∃ t, peek w.cache.slots (s.exits n).target = some t ∧ t.stamp = (s.exits n).stamp ∧
      t.preds.count (i, n) = 1
  /-- A back edge has its exit link. -/
  back : ∀ i s p n, peek w.cache.slots i = some s → (p, n) ∈ s.preds →
    ∃ q, peek w.cache.slots p = some q ∧ (q.exits n).target = i ∧ (q.exits n).stamp = s.stamp
  /-- A live block is in its page's list, in its hash chain and in the filter. -/
  indexed : ∀ i s, peek w.cache.slots i = some s → i ∈ w.cache.pageList s.page.toNat ∧
    w.cache.find s.pc s.key = some ⟨i, s.stamp⟩ ∧ w.cache.filterSet s.page = true
  lookup : ∀ pc key, (w.cache.lookup pc key).1 = w.shelf.current pc key
  /-- What an id of the shelf names is the block that was inserted. -/
  block : ∀ r ∈ w.shelf.blocks, w.cache.block r.id = some r.entry.block
  follow : ∀ from_ pc key id, (w.cache.follow from_ pc key).1 = some id →
    (w.cache.lookup pc key).1 = some id
  /-- A write takes exactly the live blocks whose page has one of its bytes. -/
  noteWrite : ∀ phys len id s, w.cache.slot id = some s →
    ((w.cache.noteWrite phys len).2.slot id = none ↔
      ∃ a, phys.toNat ≤ a ∧ a < phys.toNat + len.toNat ∧ s.page.toNat ≤ a ∧
        a < s.page.toNat + pageSize.toNat)
  staleLinks : w.cache.stats.staleLinks = 0

theorem Tracks.slot_iff (h : Tracks w) (id : BlockId) :
    (∃ s, w.cache.slot id = some s) ↔ id ∈ w.shelf.blocks.map Resident.id := by
  rw [← h.resident, List.mem_map]
  constructor
  · rintro ⟨s, hs⟩
    obtain ⟨hpeek, hstamp⟩ := slot_eq_some.mp hs
    refine ⟨⟨id.slot, s.entry⟩, (mem_resident h.coherent.ordered).mpr
      (entry_eq_some.mpr ⟨s, hpeek, rfl⟩), ?_⟩
    cases id
    exact congrArg (BlockId.mk _) hstamp
  · rintro ⟨r, hr, rfl⟩
    obtain ⟨s, hs, he⟩ := entry_eq_some.mp ((mem_resident h.coherent.ordered).mp hr)
    refine ⟨s, slot_eq_some.mpr ⟨hs, ?_⟩⟩
    rw [Resident.id, ← he]
    rfl

theorem Tracks.lookup (h : Tracks w) (pc key : UInt64) :
    (w.cache.lookup pc key).1 = w.shelf.current pc key := by
  rw [lookup_fst]
  refine Option.ext fun id => ?_
  have hcurrent : w.shelf.current pc key = some id ↔
      (∃ r, w.shelf.issued.find? (BlockCache.Resident.under pc key) = some r ∧ r.id = id) ∧
        id ∈ w.shelf.blocks.map Resident.id := by
    rw [Shelf.current, Option.filter_eq_some_iff, Option.map_eq_some_iff, decide_eq_true_eq]
  rw [find_eq_some h.coherent.core, hcurrent]
  constructor
  · rintro ⟨e, he, hstamp, rfl, rfl⟩
    have hmem : (⟨id.slot, e⟩ : Resident β) ∈ w.shelf.blocks := by
      rw [← h.resident]
      exact (mem_resident h.coherent.ordered).mpr he
    have hid : (⟨id.slot, e⟩ : Resident β).id = id := by
      cases id
      exact congrArg (BlockId.mk _) hstamp
    exact ⟨⟨_, h.latest _ hmem, hid⟩, List.mem_map.mpr ⟨_, hmem, hid⟩⟩
  · rintro ⟨⟨r, hr, rfl⟩, hmem⟩
    -- the block on the shelf with the id is the one issued last under the pc and the key
    obtain ⟨q, hq, hid⟩ := List.mem_map.mp hmem
    have hissued : ∀ {x}, x ∈ w.shelf.blocks → x ∈ w.shelf.issued := fun hx =>
      List.mem_of_find?_eq_some (h.latest _ hx)
    have hsame : q = r := by
      have hnodup : (w.shelf.issued.map (·.entry.stamp)).Nodup := by
        rw [h.stamps]
        exact stampsOf_nodup h.count
      refine List.inj_on_of_nodup_map hnodup (hissued hq) (List.mem_of_find?_eq_some hr) ?_
      exact congrArg BlockId.stamp hid
    subst hsame
    rw [← h.resident] at hq
    exact ⟨q.entry, (mem_resident h.coherent.ordered).mp hq, rfl, under_iff.mp (by
      have := List.find?_some hr
      exact this)⟩

theorem Tracks.promises (h : Tracks w) : Promises w := by
  have hc := h.coherent
  refine
    { check := check_ok hc
      exit := ?_
      back := ?_
      indexed := ?_
      lookup := h.lookup
      block := ?_
      follow := ?_
      noteWrite := ?_
      staleLinks := hc.core.belt }
  · intro i s n hs htarget
    obtain ⟨t, ht, hstamp, hmem⟩ := hc.core.linked.exit n hs htarget
    exact ⟨t, ht, hstamp, List.count_eq_one_of_mem (hc.core.linked.once ht) hmem⟩
  · intro i s p n hs hmem
    obtain ⟨q, hq, htarget⟩ := hc.core.linked.back hs hmem
    refine ⟨q, hq, htarget, ?_⟩
    obtain ⟨t, ht, hstamp, -⟩ := hc.core.linked.exit n hq (by
      have := lt_of_peek hs
      have := hc.core.below
      omega)
    rw [htarget, hs] at ht
    obtain rfl := Option.some.inj ht
    exact hstamp.symm
  · intro i s hs
    have hentry : w.cache.entry i = some s.entry := entry_eq_some.mpr ⟨s, hs, rfl⟩
    rw [← s.entry_page]
    exact ⟨(hc.paged.mem _ i).mpr ⟨_, hentry, rfl⟩,
      (find_eq_some hc.core).mpr ⟨_, hentry, rfl, rfl, rfl⟩, hc.core.filtered hentry⟩
  · intro r hr
    rw [← h.resident] at hr
    obtain ⟨s, hs, he⟩ := entry_eq_some.mp ((mem_resident hc.ordered).mp hr)
    have hslot : w.cache.slot r.id = some s := slot_eq_some.mpr ⟨hs, by
      rw [Resident.id, ← he]
      rfl⟩
    rw [BlockCache.block, hslot, ← he]
    rfl
  · intro from_ pc key id hfollow
    rw [lookup_fst]
    exact (follow_spec hc from_ pc key).2.2 id hfollow
  · intro phys len id s hs
    obtain ⟨-, -, hcleared⟩ := noteWrite_spec hc.core hc.paged phys len
    obtain ⟨hpeek, hstamp⟩ := slot_eq_some.mp hs
    have hentry : w.cache.entry id.slot = some s.entry := entry_eq_some.mpr ⟨s, hpeek, rfl⟩
    have htouch : (∃ e, w.cache.entry id.slot = some e ∧ Touches phys len e.page) ↔
        Touches phys len s.page := by
      constructor
      · rintro ⟨e, he, ht⟩
        rw [hentry] at he
        obtain rfl := Option.some.inj he
        exact ht
      · exact fun ht => ⟨_, hentry, ht⟩
    have hgone : (w.cache.noteWrite phys len).2.slot id = none ↔ Touches phys len s.page := by
      rw [← htouch, slot_isNone]
      constructor
      · intro hnone
        by_contra hkept
        have := hcleared.kept hkept
        rw [hentry] at this
        obtain ⟨t, ht, he⟩ := entry_eq_some.mp this
        exact hnone t ht ((congrArg Entry.stamp he).trans hstamp)
      · intro hg t ht
        have := hcleared.went hg
        rw [entry_eq_none, ht] at this
        cases this
    exact hgone

theorem issued_step (w : Shop β) (op : Op β) :
    ∀ r ∈ w.shelf.issued, r ∈ (w.step op).shelf.issued := by
  intro r hr
  cases op with
  | insert pc key page insns block => exact List.mem_cons_of_mem _ hr
  | _ => exact hr

theorem blocks_step (w : Shop β) (op : Op β) :
    ∀ r ∈ (w.step op).shelf.blocks, r ∈ w.shelf.blocks ∨
      (w.step op).shelf.issued = r :: w.shelf.issued := by
  intro r hr
  cases op with
  | insert pc key page insns block =>
    rcases List.mem_append.mp hr with hr | hr
    · exact Or.inl (List.mem_filter.mp (List.mem_of_mem_drop hr)).1
    · rw [List.mem_singleton] at hr
      exact Or.inr (by rw [hr]; rfl)
  | invalidate id => exact Or.inl (List.mem_filter.mp hr).1
  | invalidatePage phys => exact Or.inl (List.mem_filter.mp hr).1
  | noteWrite phys len => exact Or.inl (List.mem_filter.mp hr).1
  | sync epoch =>
    have hr' : r ∈ if epoch.topology = w.shelf.topology then w.shelf.blocks else [] := hr
    split at hr'
    · exact Or.inl hr'
    · exact absurd hr' List.not_mem_nil
  | flush => exact absurd hr List.not_mem_nil
  | _ => exact Or.inl hr

theorem Tracks.gone_step (h : Tracks w) {op : Op β} (hfits : w.Fits op) {id : BlockId}
    (hgone : w.Gone id) : (w.step op).Gone id := by
  obtain ⟨hissued, hnone⟩ := hgone
  have h' := h.step hfits
  obtain ⟨r, hr, hrid⟩ := List.mem_map.mp hissued
  refine ⟨List.mem_map.mpr ⟨r, issued_step w op r hr, hrid⟩, ?_⟩
  by_contra hsome
  obtain ⟨q, hq, hqid⟩ :=
    List.mem_map.mp ((h'.slot_iff id).mp (Option.ne_none_iff_exists'.mp hsome))
  rcases blocks_step w op q hq with hold | hnew
  · obtain ⟨s, hs⟩ := (h.slot_iff id).mpr (List.mem_map.mpr ⟨q, hold, hqid⟩)
    rw [hnone] at hs
    cases hs
  · -- the id was given out again, which takes a stamp that was used
    have hstamps := h'.stamps
    have hnodup := stampsOf_nodup h'.count
    rw [← hstamps, hnew, List.map_cons] at hnodup
    refine (List.nodup_cons.mp hnodup).1 (List.mem_map.mpr ⟨r, hr, ?_⟩)
    exact congrArg BlockId.stamp (hrid.trans hqid.symm)

theorem Tracks.gone_run (h : Tracks w) {ops : List (Op β)} (hfits : w.FitsAll ops) {id : BlockId}
    (hgone : w.Gone id) : (w.run ops).Gone id := by
  induction ops generalizing w with
  | nil => exact hgone
  | cons op ops ih => exact ih (h.step hfits.1) hfits.2 (h.gone_step hfits.1 hgone)

/-- **Every run whose insertions have a slot and a stamp of their own** ends in a cache that
keeps its promises, and an id whose block has gone names none however the run goes on. -/
theorem cache_keeps_promises (capacity : Nat) (ops : List (Op β))
    (hfits : (Shop.new β capacity).FitsAll ops) :
    Promises ((Shop.new β capacity).run ops) ∧
      ∀ id, ((Shop.new β capacity).run ops).Gone id → ∀ more : List (Op β),
        ((Shop.new β capacity).run ops).FitsAll more →
        (((Shop.new β capacity).run ops).run more).Gone id :=
  have h := (tracks_new capacity).run hfits
  ⟨h.promises, fun _ hgone _ hmore => h.gone_run hmore hgone⟩

/-- A block, and a write of four bytes of which the last two are in its page. -/
theorem written_keeps_promises :
    Promises ((Shop.new Nat 2).run [.insert 0x1000 0 0x1000 1 7, .noteWrite 0xffe 4]) ∧
      ∀ id, ((Shop.new Nat 2).run [.insert 0x1000 0 0x1000 1 7, .noteWrite 0xffe 4]).Gone id →
        ∀ more : List (Op Nat), ((Shop.new Nat 2).run
          [.insert 0x1000 0 0x1000 1 7, .noteWrite 0xffe 4]).FitsAll more →
        (((Shop.new Nat 2).run
          [.insert 0x1000 0 0x1000 1 7, .noteWrite 0xffe 4]).run more).Gone id :=
  cache_keeps_promises 2 _
    ⟨⟨Or.inl (Nat.lt_of_lt_of_le (by decide : 0 < 1) (by decide)), Nat.two_pow_pos 64⟩,
      trivial, trivial⟩

theorem one_block_run (n : Nat) :
    Coherent ((Shop.new Unit 1).run (List.replicate (n + 1) (.insert 0 0 0 1 ()))).cache ∧
      ((Shop.new Unit 1).run (List.replicate (n + 1) (.insert 0 0 0 1 ()))).cache.capacity = 1 ∧
      ((Shop.new Unit 1).run (List.replicate (n + 1) (.insert 0 0 0 1 ()))).cache.nextStamp =
        UInt64.ofNat (n + 2) ∧
      ((Shop.new Unit 1).run (List.replicate (n + 1) (.insert 0 0 0 1 ()))).cache.entry 0 =
        some ⟨(), 0, 0, 0, 1, UInt64.ofNat (n + 1)⟩ ∧
      (⟨0, ⟨(), 0, 0, 0, 1, 1⟩⟩ : Resident Unit) ∈ ((Shop.new Unit 1).run
        (List.replicate (n + 1) (.insert 0 0 0 1 ()))).shelf.issued := by
  -- one insertion into a cache of one block fills its one slot under the next stamp
  have hinsert : ∀ c : BlockCache Unit, Coherent c → c.capacity = 1 →
      Coherent (c.insert 0 0 0 1 ()).2 ∧ (c.insert 0 0 0 1 ()).2.capacity = 1 ∧
        (c.insert 0 0 0 1 ()).2.nextStamp = c.nextStamp + 1 ∧
        (c.insert 0 0 0 1 ()).1 = ⟨0, c.nextStamp⟩ ∧
        (c.insert 0 0 0 1 ()).2.entry 0 = some ⟨(), 0, 0, 0, 1, c.nextStamp⟩ := by
    intro c hc hcapacity
    have hcan : c.CanInsert 0 0 := by
      refine Or.inl (lt_of_le_of_lt hc.core.fits ?_)
      rw [hcapacity]
      exact Nat.lt_of_lt_of_le (by decide : 1 < 2) (by decide)
    obtain ⟨hstamp, hfilled, hcoherent⟩ := insert_spec hc hcan 0 1 ()
    have hroomy := cleared_roomy hc 0 0
    have hcleared := (dropOld_spec hc 0 0).2
    have hcap : (c.cleared 0 0).capacity = 1 :=
      (hroomy.capacity.trans hcleared.frame.capacity).trans hcapacity
    have hnext : (c.cleared 0 0).nextStamp = c.nextStamp :=
      hroomy.nextStamp.trans hcleared.frame.nextStamp
    have hslot : (c.insert 0 0 0 1 ()).1.slot = 0 := by
      have := hfilled.lt
      have := hfilled.fits
      omega
    refine ⟨hcoherent, hfilled.capacity.trans hcap, by rw [hfilled.nextStamp, hnext], ?_, ?_⟩
    · rw [← hslot, ← hstamp]
    · rw [hfilled.entry, if_pos hslot.symm, ← hnext]
      rfl
  induction n with
  | zero =>
    obtain ⟨h1, h2, h3, h4, h5⟩ := hinsert _ (withCapacity_spec 1) rfl
    refine ⟨h1, h2, h3, h5, ?_⟩
    have hissued : (⟨0, ⟨(), 0, 0, 0, 1, 1⟩⟩ : Resident Unit) =
        ⟨((withCapacity Unit 1).insert 0 0 0 1 ()).1.slot,
          ⟨(), 0, 0, pageOf 0, 1, ((withCapacity Unit 1).insert 0 0 0 1 ()).1.stamp⟩⟩ := by
      rw [h4]
      rfl
    rw [hissued]
    exact List.mem_cons_self ..
  | succ n ih =>
    obtain ⟨hc, hcapacity, hnext, -, hissued⟩ := ih
    rw [List.replicate_succ', Shop.run, List.foldl_append]
    obtain ⟨h1, h2, h3, -, h5⟩ := hinsert _ hc hcapacity
    refine ⟨h1, h2, ?_, ?_, List.mem_cons_of_mem _ hissued⟩
    · refine h3.trans ?_
      rw [hnext]
      exact (UInt64.ofNat_add ..).symm
    · refine h5.trans ?_
      rw [hnext]

/-- **A stamp is used again after 2^64 insertions**: in a cache of one block the id of the
first block names none after the second insertion, and a block after insertion 2^64 + 1. -/
theorem gone_id_names_block_again :
    ¬ ∀ (capacity : Nat) (ops more : List (Op Unit)) (id : BlockId),
      ((Shop.new Unit capacity).run ops).Gone id →
        (((Shop.new Unit capacity).run ops).run more).Gone id := by
  intro h
  obtain ⟨N, hN⟩ : ∃ N : Nat, N = 2 ^ 64 := ⟨_, rfl⟩
  have hpos : 2 ≤ N := by
    rw [hN]
    exact Nat.le_trans (by decide : 2 ≤ 2 ^ 1) (Nat.pow_le_pow_right (by omega) (by omega))
  obtain ⟨hc, -, -, hentry, hissued⟩ := one_block_run 1
  have hgone : ((Shop.new Unit 1).run (List.replicate 2 (.insert 0 0 0 1 ()))).Gone ⟨0, 1⟩ := by
    refine ⟨List.mem_map.mpr ⟨_, hissued, rfl⟩, slot_isNone.mpr fun s hs hstamp => ?_⟩
    rw [entry, hs] at hentry
    have := congrArg Entry.stamp (Option.some.inj hentry)
    rw [Slot.entry_stamp, hstamp] at this
    cases this
  have hagain := (h 1 _ (List.replicate (N - 1) (.insert 0 0 0 1 ())) _ hgone).2
  have hrun : ((Shop.new Unit 1).run (List.replicate 2 (.insert 0 0 0 1 ()))).run
      (List.replicate (N - 1) (.insert 0 0 0 1 ())) =
      (Shop.new Unit 1).run (List.replicate (N + 1) (.insert 0 0 0 1 ())) := by
    rw [Shop.run, Shop.run, Shop.run, ← List.foldl_append, List.replicate_append_replicate,
      show 2 + (N - 1) = N + 1 by omega]
  rw [hrun] at hagain
  obtain ⟨-, -, -, hlast, -⟩ := one_block_run N
  obtain ⟨s, hs, he⟩ := entry_eq_some.mp hlast
  refine slot_isNone.mp hagain s hs ?_
  have := congrArg Entry.stamp he
  rw [Slot.entry_stamp] at this
  rw [this, hN]
  rfl

end Rsemu.Jit
