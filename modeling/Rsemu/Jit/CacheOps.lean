import Rsemu.Jit.CacheInvariant

/-!
# The operations keep the translation cache coherent

Each operation has one specification: that it keeps `Coherent`, and which slots it clears
or fills. An invalidation clears the blocks of its page, a guest write those of the pages
its bytes are in, whatever the filter let through; an eviction clears the oldest block; an
insertion fills a slot that was empty. A link moves nothing but links.
-/

namespace Rsemu.Jit.BlockCache

open Slab

variable {β : Type}

variable {c c' : BlockCache β} {slots : List (Option (Slot β))} {key pc : UInt64} {x : Nat × UInt64}

theorem Core.congr (hc : Core c) (hslots : c'.slots = c.slots) (hfree : c'.free = c.free)
    (hbuckets : c'.buckets = c.buckets) (hmask : c'.bucketMask = c.bucketMask)
    (hfilter : c'.filter = c.filter) (hcapacity : c'.capacity = c.capacity)
    (hstale : c'.stats.staleLinks = c.stats.staleLinks) : Core c' := by
  have hentry : ∀ i, c'.entry i = c.entry i := fun i => by rw [entry, hslots, entry]
  have hhead : ∀ b, c'.head b = c.head b := fun b => by rw [head, hbuckets, head]
  refine
    { linked := hslots ▸ hc.linked
      masked := by rw [hmask, hbuckets]; exact hc.masked
      chain := ?_
      unique := fun he hf => hc.unique ((hentry _).symm.trans he) ((hentry _).symm.trans hf)
      free_nodup := hfree ▸ hc.free_nodup
      mem_free := by rw [hfree, hslots]; exact hc.mem_free
      below := hslots ▸ hc.below
      fits := by rw [hslots, hcapacity]; exact hc.fits
      room := hcapacity ▸ hc.room
      filtered := fun he =>
        (filterSet_congr hfilter _).trans (hc.filtered ((hentry _).symm.trans he))
      wide := hfilter ▸ hc.wide
      aligned := fun he => hc.aligned ((hentry _).symm.trans he)
      belt := hstale.trans hc.belt }
  rw [hbuckets]
  simpa only [hslots, hhead, hentry, bucket_congr hmask] using hc.chain

theorem Paged.congr (hp : Paged c) (hslots : c'.slots = c.slots) (hpages : c'.pages = c.pages) :
    Paged c' := by
  have hlist : ∀ p, c'.pageList p = c.pageList p := fun p => by rw [pageList, hpages, pageList]
  have hentry : ∀ i, c'.entry i = c.entry i := fun i => by rw [entry, hslots, entry]
  refine ⟨fun p => by rw [hlist]; exact hp.nodup p, fun p i => ?_⟩
  rw [hlist, hp.mem]
  simp only [hentry]

/-! ## Removing one block -/

theorem dropFromPage_get (pages : SortedMap Nat (List Nat)) (page : UInt64) (id p : Nat) :
    ((dropFromPage pages page id).get p).getD [] =
      if p = page.toNat then ((pages.get p).getD []).filter (· ≠ id)
      else (pages.get p).getD [] := by
  unfold dropFromPage
  rcases hget : pages.get page.toNat with _ | list
  · by_cases hp : p = page.toNat
    · subst hp
      simp [hget]
    · simp [hp]
  · simp only
    by_cases hempty : (list.filter (· ≠ id)).isEmpty
    · rw [if_pos hempty, SortedMap.get_erase]
      by_cases hp : p = page.toNat
      · subst hp
        rw [if_pos rfl, if_pos rfl, hget]
        exact (List.isEmpty_iff.mp hempty).symm
      · rw [if_neg hp, if_neg hp]
    · rw [if_neg hempty, SortedMap.get_insert]
      by_cases hp : p = page.toNat
      · subst hp
        rw [if_pos rfl, if_pos rfl, hget]
        rfl
      · rw [if_neg hp, if_neg hp]

theorem remove_spec (hc : Core c) (hp : Paged c) (id : Nat) :
    Core (c.remove id) ∧ Paged (c.remove id) ∧ Cleared c (c.remove id) (· = id) := by
  unfold remove
  rcases hid : peek c.slots id with _ | slot
  · rw [removeKeepingPage_dead hid]
    refine ⟨hc, hp, (Cleared.none c).congr fun i e he => ?_⟩
    refine iff_of_false not_false fun hi => ?_
    rw [hi, entry, hid] at he
    cases he
  simp only
  obtain ⟨d, hd⟩ : ∃ d, { c with pages := dropFromPage c.pages slot.page id } = d := ⟨_, rfl⟩
  have hcd : Core d := hd ▸ hc.congr rfl rfl rfl rfl rfl rfl rfl
  have hentry : ∀ i, d.entry i = c.entry i := fun i => by rw [← hd]; rfl
  rw [hd]
  have hdc := removeKeepingPage_cleared hcd id
  have hcleared : Cleared c (d.removeKeepingPage id) (· = id) := by
    refine ⟨?_, by rw [hdc.order, ← hd], hdc.went, fun hi => (hdc.kept hi).trans (hentry _)⟩
    have := hdc.frame
    rw [← hd] at this ⊢
    exact ⟨this.length, this.nextStamp, this.capacity, this.filter, this.bucketMask,
      this.buckets, this.epoch, this.staleLinks⟩
  have hlist : ∀ p, (d.removeKeepingPage id).pageList p = (c.pageList p).filter (· ≠ id) := by
    intro p
    rw [pageList, removeKeepingPage_pages, ← hd]
    rw [dropFromPage_get]
    by_cases hpage : p = slot.page.toNat
    · rw [if_pos hpage]
      rfl
    · -- a block is in the list of its own page only
      rw [if_neg hpage]
      refine (List.filter_eq_self.mpr fun j hj => ?_).symm
      rw [decide_eq_true_eq]
      rintro rfl
      obtain ⟨e, he, rfl⟩ := (hp.mem p j).mp hj
      rw [entry, hid] at he
      obtain rfl := Option.some.inj he
      exact hpage rfl
  refine ⟨removeKeepingPage_core hcd id, hcleared.paged hp (fun p => ?_) (fun p i => ?_), hcleared⟩
  · rw [hlist]
    exact (hp.nodup p).filter _
  · rw [hlist, List.mem_filter, decide_eq_true_eq]

/-! ## Invalidating pages -/

/-- Slot `i` holds a block of this page. -/
def OnPage (c : BlockCache β) (page : UInt64) (i : Nat) : Prop :=
  ∃ e, c.entry i = some e ∧ e.page = page

theorem invalidatePage_spec (hc : Core c) (hp : Paged c) (phys : UInt64) :
    Core (c.invalidatePage phys).2 ∧ Paged (c.invalidatePage phys).2 ∧
      Cleared c (c.invalidatePage phys).2 (c.OnPage (pageOf phys)) := by
  have hmem : ∀ i, i ∈ c.pageList (pageOf phys).toNat ↔ c.OnPage (pageOf phys) i := fun i => by
    rw [hp.mem]
    exact exists_congr fun e => and_congr_right' UInt64.toNat_inj
  unfold invalidatePage
  simp only
  rcases hget : c.pages.get (pageOf phys).toNat with _ | ids
  · refine ⟨hc, hp, (Cleared.none c).congr fun i e _ => iff_of_false not_false fun hi => ?_⟩
    have := (hmem i).mpr hi
    rw [pageList, hget] at this
    exact absurd this List.not_mem_nil
  simp only
  obtain ⟨d, hd⟩ : ∃ d, { c with pages := c.pages.erase (pageOf phys).toNat } = d := ⟨_, rfl⟩
  have hcd : Core d := hd ▸ hc.congr rfl rfl rfl rfl rfl rfl rfl
  have hentry : ∀ i, d.entry i = c.entry i := fun i => by rw [← hd]; rfl
  rw [hd]
  obtain ⟨hcore, hdc, hpages⟩ := removeAll_spec hcd ids
  have hids : ∀ i, i ∈ ids ↔ c.OnPage (pageOf phys) i := fun i => by
    rw [← hmem, pageList, hget]
    rfl
  have hcleared : Cleared c (ids.foldl removeKeepingPage d) (c.OnPage (pageOf phys)) := by
    refine ⟨?_, by rw [hdc.order, ← hd], fun hi => hdc.went ((hids _).mpr hi),
      fun hi => (hdc.kept (fun h => hi ((hids _).mp h))).trans (hentry _)⟩
    have := hdc.frame
    rw [← hd] at this ⊢
    exact ⟨this.length, this.nextStamp, this.capacity, this.filter, this.bucketMask,
      this.buckets, this.epoch, this.staleLinks⟩
  have hlist : ∀ p, (ids.foldl removeKeepingPage d).pageList p =
      if p = (pageOf phys).toNat then [] else c.pageList p := by
    intro p
    rw [pageList, hpages, ← hd]
    rw [SortedMap.get_erase]
    by_cases hpage : p = (pageOf phys).toNat
    · rw [if_pos hpage, if_pos hpage]
      rfl
    · rw [if_neg hpage, if_neg hpage]
      rfl
  refine ⟨hcore, hcleared.paged hp (fun p => ?_) (fun p i => ?_), hcleared⟩
  · rw [hlist]
    split
    · exact List.nodup_nil
    · exact hp.nodup p
  · rw [hlist]
    by_cases hpage : p = (pageOf phys).toNat
    · rw [if_pos hpage, hpage, hmem]
      simp
    · rw [if_neg hpage]
      refine ⟨fun hi => ⟨hi, ?_⟩, fun h => h.1⟩
      rintro ⟨e, he, heq⟩
      obtain ⟨f, hf, hfp⟩ := (hp.mem p i).mp hi
      rw [he] at hf
      obtain rfl := Option.some.inj hf
      exact hpage (by rw [← hfp, heq])

theorem Core.filter_sound (hc : Core c) {page : UInt64} (h : c.filterSet page = false) (i : Nat) :
    ¬ c.OnPage page i := by
  rintro ⟨e, he, rfl⟩
  rw [hc.filtered he] at h
  cases h

theorem Cleared.ofStats {stats : CacheStats} {gone : Nat → Prop} (h : Cleared c c' gone)
    (hstale : stats.staleLinks = c'.stats.staleLinks) : Cleared c { c' with stats } gone :=
  ⟨⟨h.frame.length, h.frame.nextStamp, h.frame.capacity, h.frame.filter, h.frame.bucketMask,
    h.frame.buckets, h.frame.epoch, hstale.trans h.frame.staleLinks⟩, h.order, h.went, h.kept⟩

theorem hitPage_spec (hc : Core c) (hp : Paged c) {page : UInt64} (hpage : pageOf page = page) :
    Core (c.hitPage page).2 ∧ Paged (c.hitPage page).2 ∧
      Cleared c (c.hitPage page).2 (c.OnPage page) := by
  unfold hitPage
  by_cases hset : c.filterSet page
  · rw [if_pos hset]
    have := invalidatePage_spec hc hp page
    rwa [hpage] at this
  · rw [if_neg hset]
    refine ⟨hc.congr rfl rfl rfl rfl rfl rfl rfl, hp.congr rfl rfl, ?_⟩
    refine Cleared.ofStats ?_ rfl
    refine (Cleared.none c).congr fun i e _ => iff_of_false not_false ?_
    exact hc.filter_sound (by simpa using hset) i

/-- Slot `i` holds a block of one of these pages. -/
def OnPages (c : BlockCache β) (first last : UInt64) (i : Nat) : Prop :=
  ∃ e, c.entry i = some e ∧ first.toNat ≤ e.page.toNat ∧ e.page.toNat ≤ last.toNat

theorem aligned_toNat {page : UInt64} (h : pageOf page = page) :
    page.toNat = page.toNat / 4096 * 4096 := by
  rw [← toNat_pageOf, h]

theorem hitPagesFrom_spec {last : UInt64} (hlast : pageOf last = last) :
    ∀ {fuel : Nat} {page : UInt64} (hit : Nat) {c : BlockCache β}, Core c → Paged c →
      pageOf page = page → page.toNat ≤ last.toNat →
      (last.toNat - page.toNat) / 4096 < fuel →
      Core (hitPagesFrom last fuel page hit c).2 ∧ Paged (hitPagesFrom last fuel page hit c).2 ∧
        Cleared c (hitPagesFrom last fuel page hit c).2 (c.OnPages page last)
  | 0, _, _, _, _, _, _, _, hfuel => absurd hfuel (Nat.not_lt_zero _)
  | fuel + 1, page, hit, c, hc, hp, hpage, hle, hfuel => by
    obtain ⟨hcore, hpaged, hcleared⟩ := hitPage_spec hc hp hpage
    have hpa := aligned_toNat hpage
    have hla := aligned_toNat hlast
    unfold hitPagesFrom
    simp only
    by_cases hend : last ≤ page
    · rw [if_pos hend]
      refine ⟨hcore, hpaged, hcleared.congr fun i e he => ?_⟩
      have heq : page.toNat = last.toNat := Nat.le_antisymm hle (UInt64.le_iff_toNat_le.mp hend)
      constructor
      · rintro ⟨f, hf, rfl⟩
        exact ⟨f, hf, Nat.le_refl _, hle⟩
      · rintro ⟨f, hf, h1, h2⟩
        exact ⟨f, hf, UInt64.toNat_inj.mp (by omega)⟩
    · rw [if_neg hend]
      have hlt : page.toNat < last.toNat := by
        rw [UInt64.le_iff_toNat_le] at hend
        omega
      have hbound := last.toNat_lt
      have hsize : pageSize.toNat = 4096 := rfl
      have hnext : (saturatingAdd page pageSize).toNat = page.toNat + 4096 := by
        rw [toNat_saturatingAdd, hsize]
        omega
      have hnextPage : pageOf (saturatingAdd page pageSize) = saturatingAdd page pageSize := by
        refine UInt64.toNat_inj.mp ?_
        rw [toNat_pageOf, hnext]
        omega
      have hdiv : (last.toNat - (saturatingAdd page pageSize).toNat) / 4096 < fuel := by omega
      obtain ⟨hcore', hpaged', hcleared'⟩ := hitPagesFrom_spec hlast
        (hit + (c.hitPage page).1) hcore hpaged hnextPage (by omega) hdiv
      refine ⟨hcore', hpaged', (hcleared.trans hcleared').congr fun i e he => ?_⟩
      constructor
      · rintro (⟨f, hf, rfl⟩ | ⟨f, hf, h1, h2⟩)
        · exact ⟨f, hf, Nat.le_refl _, hle⟩
        · exact ⟨f, (hcleared.entry_eq_some.mp hf).1, by omega, h2⟩
      · rintro ⟨f, hf, h1, h2⟩
        by_cases hfp : f.page = page
        · exact Or.inl ⟨f, hf, hfp⟩
        · have hne : f.page.toNat ≠ page.toNat := fun h => hfp (UInt64.toNat_inj.mp h)
          have hfa := aligned_toNat (hc.aligned hf)
          refine Or.inr ⟨f, hcleared.entry_eq_some.mpr ⟨hf, ?_⟩, by omega, h2⟩
          rintro ⟨g, hg, hgp⟩
          rw [hf] at hg
          obtain rfl := Option.some.inj hg
          exact hfp hgp

/-- The range has a byte in the page. -/
def Touches (phys len page : UInt64) : Prop :=
  ∃ a, phys.toNat ≤ a ∧ a < phys.toNat + len.toNat ∧ page.toNat ≤ a ∧ a < page.toNat + 4096

theorem touches_iff {phys len page : UInt64} :
    Touches phys len page ↔
      len ≠ 0 ∧ page.toNat < phys.toNat + len.toNat ∧ phys.toNat < page.toNat + 4096 := by
  have hlen : len ≠ 0 ↔ 0 < len.toNat := by
    rw [Nat.pos_iff_ne_zero, ne_eq, ne_eq, ← UInt64.toNat_inj]
    rfl
  rw [hlen]
  constructor
  · rintro ⟨a, h1, h2, h3, h4⟩
    omega
  · rintro ⟨h1, h2, h3⟩
    exact ⟨max phys.toNat page.toNat, by omega, by omega, by omega, by omega⟩

instance (phys len page : UInt64) : Decidable (Touches phys len page) :=
  decidable_of_iff' _ touches_iff

theorem hitPages_spec (hc : Core c) (hp : Paged c) {first last : UInt64}
    (hfirst : pageOf first = first) (hlast : pageOf last = last) (hle : first.toNat ≤ last.toNat) :
    Core (c.hitPages first last).2 ∧ Paged (c.hitPages first last).2 ∧
      Cleared c (c.hitPages first last).2 (c.OnPages first last) := by
  have hfuel : (last.toNat - first.toNat) / 4096 <
      (last.toNat - first.toNat) / pageSize.toNat + 1 := Nat.lt_succ_self _
  obtain ⟨hcore, hpaged, hcleared⟩ := hitPagesFrom_spec hlast 0 hc hp hfirst hle hfuel
  exact ⟨hcore.congr rfl rfl rfl rfl rfl rfl rfl, hpaged.congr rfl rfl, hcleared.ofStats rfl⟩

theorem noteWrite_spec (hc : Core c) (hp : Paged c) (phys len : UInt64) :
    Core (c.noteWrite phys len).2 ∧ Paged (c.noteWrite phys len).2 ∧
      Cleared c (c.noteWrite phys len).2
        (fun i => ∃ e, c.entry i = some e ∧ Touches phys len e.page) := by
  unfold noteWrite
  by_cases hlen : len = 0
  · rw [if_pos hlen]
    refine ⟨hc, hp, (Cleared.none c).congr fun i e _ => iff_of_false not_false ?_⟩
    rintro ⟨f, -, hf⟩
    exact (touches_iff.mp hf).1 hlen
  rw [if_neg hlen]
  simp only
  have hpos : 0 < len.toNat := by
    rw [Nat.pos_iff_ne_zero]
    exact fun h => hlen (UInt64.toNat_inj.mp h)
  have hsub : (len - 1).toNat = len.toNat - 1 :=
    UInt64.toNat_sub_of_le _ _ (UInt64.le_iff_toNat_le.mpr hpos)
  have hphys := phys.toNat_lt
  obtain ⟨first, hf⟩ : ∃ p, pageOf phys = p := ⟨_, rfl⟩
  obtain ⟨last, hl⟩ : ∃ p, pageOf (saturatingAdd phys (len - 1)) = p := ⟨_, rfl⟩
  have hfirst : first.toNat = phys.toNat / 4096 * 4096 := by rw [← hf, toNat_pageOf]
  have hlast : last.toNat = min (phys.toNat + (len.toNat - 1)) (2 ^ 64 - 1) / 4096 * 4096 := by
    rw [← hl, toNat_pageOf, toNat_saturatingAdd, hsub]
  have hfirstPage : pageOf first = first := by rw [← hf, pageOf_pageOf]
  have hlastPage : pageOf last = last := by rw [← hl, pageOf_pageOf]
  have hle : first.toNat ≤ last.toNat := by omega
  -- the pages from the first byte's to the last byte's are the pages that have a byte
  have hpages : ∀ i e, c.entry i = some e → (c.OnPages first last i ↔
      ∃ e, c.entry i = some e ∧ Touches phys len e.page) := by
    intro i e _
    refine exists_congr fun f => and_congr_right fun he => ?_
    have ha := aligned_toNat (hc.aligned he)
    have hb := f.page.toNat_lt
    rw [touches_iff]
    constructor
    · rintro ⟨h1, h2⟩
      exact ⟨hlen, by omega, by omega⟩
    · rintro ⟨-, h1, h2⟩
      constructor <;> omega
  rw [hf, hl]
  have hhit := hitPages_spec hc hp hfirstPage hlastPage hle
  by_cases heq : first = last
  · rw [if_pos heq]
    by_cases hset : c.filterSet first
    · rw [if_pos hset]
      exact ⟨hhit.1, hhit.2.1, hhit.2.2.congr hpages⟩
    · rw [if_neg hset]
      refine ⟨hc.congr rfl rfl rfl rfl rfl rfl rfl, hp.congr rfl rfl, ?_⟩
      refine Cleared.ofStats ?_ rfl
      refine (Cleared.none c).congr fun i e he => iff_of_false not_false fun h => ?_
      obtain ⟨f, hf, h1, h2⟩ := (hpages i e he).mpr h
      refine hc.filter_sound (by simpa using hset) i ⟨f, hf, UInt64.toNat_inj.mp ?_⟩
      rw [← heq] at h2
      omega
  · rw [if_neg heq]
    exact ⟨hhit.1, hhit.2.1, hhit.2.2.congr hpages⟩

/-! ## Looking a block up -/

theorem walk_spec (pc key : UInt64) :
    ∀ {l : List Nat} {at_ fuel : Nat}, Chained (nextOf slots) noSlot at_ l → l.length < fuel →
      (∀ id, walk slots pc key fuel at_ = some id → ∃ s, peek slots id.slot = some s ∧
        s.stamp = id.stamp ∧ s.pc = pc ∧ s.key = key) ∧
      (walk slots pc key fuel at_ = none → ∀ i ∈ l, ∀ s, peek slots i = some s →
        ¬ (s.pc = pc ∧ s.key = key))
  | _, _, 0, _, hfuel => absurd hfuel (Nat.not_lt_zero _)
  | [], at_, fuel + 1, hc, _ => by
    have hat : at_ = noSlot := hc
    rw [walk, if_pos hat]
    exact ⟨fun id h => absurd h (by simp), fun _ i hi => absurd hi List.not_mem_nil⟩
  | i :: l, at_, fuel + 1, hc, hfuel => by
    obtain ⟨rfl, hi, n, hn, hl⟩ := hc
    obtain ⟨s, hs, rfl⟩ := Option.map_eq_some_iff.mp hn
    rw [walk, if_neg hi]
    simp only [hs]
    by_cases hmatch : s.pc = pc ∧ s.key = key
    · rw [if_pos hmatch]
      refine ⟨fun id hid => ?_, fun h => absurd h (by simp)⟩
      obtain rfl := Option.some.inj hid
      exact ⟨s, hs, rfl, hmatch⟩
    · rw [if_neg hmatch]
      obtain ⟨hsome, hnone⟩ := walk_spec pc key hl
        (by rw [List.length_cons] at hfuel; omega : l.length < fuel)
      refine ⟨hsome, fun h j hj t ht => ?_⟩
      rcases List.mem_cons.mp hj with rfl | hj
      · rw [hs] at ht
        obtain rfl := Option.some.inj ht
        exact hmatch
      · exact hnone h j hj t ht

theorem find_eq_some (hc : Core c) {id : BlockId} :
    c.find pc key = some id ↔
      ∃ e, c.entry id.slot = some e ∧ e.stamp = id.stamp ∧ e.pc = pc ∧ e.key = key := by
  obtain ⟨l, hl, hnodup, hmem⟩ := hc.chain _ (bucket_lt hc.masked pc key)
  have hlen : l.length < c.slots.length + 1 :=
    Nat.lt_succ_of_le (length_le_of_occupied hnodup fun i hi => by
      obtain ⟨e, he, -⟩ := (hmem i).mp hi
      obtain ⟨s, hs, -⟩ := entry_eq_some.mp he
      exact ⟨s, hs⟩)
  obtain ⟨hsome, hnone⟩ := walk_spec pc key hl hlen
  rw [find]
  constructor
  · intro h
    obtain ⟨s, hs, hstamp, hpc, hkey⟩ := hsome id h
    exact ⟨s.entry, entry_eq_some.mpr ⟨s, hs, rfl⟩, hstamp, hpc, hkey⟩
  · rintro ⟨e, he, hstamp, hpc, hkey⟩
    obtain ⟨s, hs, rfl⟩ := entry_eq_some.mp he
    have hi : id.slot ∈ l := (hmem _).mpr ⟨s.entry, he, by rw [hpc, hkey]⟩
    rcases hres : walk c.slots pc key (c.slots.length + 1) (c.head (c.bucket pc key)) with _ | id'
    · exact absurd ⟨hpc, hkey⟩ (hnone hres _ hi s hs)
    · -- there is one block for the pc and the key
      obtain ⟨t, ht, hstamp', hpc', hkey'⟩ := hsome id' hres
      have hslot : id'.slot = id.slot := hc.unique (entry_eq_some.mpr ⟨t, ht, rfl⟩) he
        (hpc'.trans hpc.symm) (hkey'.trans hkey.symm)
      rw [hslot, hs] at ht
      obtain rfl := Option.some.inj ht
      have hstamps : id'.stamp = id.stamp := hstamp'.symm.trans hstamp
      cases id
      cases id'
      simp only at hslot hstamps
      rw [hslot, hstamps]

theorem find_eq_none (hc : Core c) :
    c.find pc key = none ↔ ∀ i e, c.entry i = some e → ¬ (e.pc = pc ∧ e.key = key) := by
  constructor
  · rintro h i e he ⟨hpc, hkey⟩
    have hsome : c.find pc key = some ⟨i, e.stamp⟩ :=
      (find_eq_some hc).mpr ⟨e, he, rfl, hpc, hkey⟩
    rw [h] at hsome
    cases hsome
  · intro h
    rcases hf : c.find pc key with _ | id
    · rfl
    · obtain ⟨e, he, -, hpc, hkey⟩ := (find_eq_some hc).mp hf
      exact absurd ⟨hpc, hkey⟩ (h _ e he)

theorem lookup_fst (c : BlockCache β) (pc key : UInt64) : (c.lookup pc key).1 = c.find pc key := by
  unfold lookup
  split
  · rename_i h
    exact h.symm
  · rename_i h
    exact h.symm

theorem Coherent.ofStats (hc : Coherent c) {stats : CacheStats}
    (hstale : stats.staleLinks = c.stats.staleLinks) : Coherent { c with stats } :=
  ⟨hc.core.congr rfl rfl rfl rfl rfl rfl hstale, hc.paged.congr rfl rfl, hc.ordered⟩

theorem lookup_spec (hc : Coherent c) (pc key : UInt64) :
    Coherent (c.lookup pc key).2 ∧ Cleared c (c.lookup pc key).2 fun _ => False := by
  unfold lookup
  split
  · exact ⟨hc.ofStats rfl, (Cleared.none c).ofStats rfl⟩
  · exact ⟨hc.ofStats rfl, (Cleared.none c).ofStats rfl⟩

/-! ## Eviction -/

theorem live_iff : c.live x = true ↔ ∃ e, c.entry x.1 = some e ∧ e.stamp = x.2 := by
  unfold live entry
  rcases peek c.slots x.1 with _ | s <;> simp [Slot.entry]

theorem Core.len_eq (hc : Core c) : c.len = (occupied c.slots).length := by
  have := occupied_length hc.free_nodup hc.mem_free
  unfold len
  omega

theorem Cleared.len {id : Nat} (h : Cleared c c' (· = id)) (hc : Core c) (hc' : Core c')
    {e : Entry β} (he : c.entry id = some e) : c'.len + 1 = c.len := by
  have hocc : ∀ {d : BlockCache β} {i}, i ∈ occupied d.slots ↔ ∃ e, d.entry i = some e := by
    intro d i
    rw [mem_occupied]
    constructor
    · exact fun ⟨s, hs⟩ => ⟨s.entry, Rsemu.Jit.entry_eq_some.mpr ⟨s, hs, rfl⟩⟩
    · rintro ⟨e, he⟩
      obtain ⟨s, hs, -⟩ := Rsemu.Jit.entry_eq_some.mp he
      exact ⟨s, hs⟩
  have hperm : (id :: occupied c'.slots).Perm (occupied c.slots) := by
    refine (List.perm_ext_iff_of_nodup ?_ (occupied_nodup _)).mpr fun i => ?_
    · refine List.nodup_cons.mpr ⟨fun hi => ?_, occupied_nodup _⟩
      obtain ⟨f, hf⟩ := hocc.mp hi
      rw [h.went rfl] at hf
      cases hf
    · rw [List.mem_cons, hocc, hocc]
      by_cases hi : i = id
      · subst hi
        exact iff_of_true (Or.inl rfl) ⟨e, he⟩
      · rw [h.kept hi]
        simp [hi]
  rw [hc.len_eq, hc'.len_eq, ← hperm.length_eq, List.length_cons]

theorem Core.exists_entry (hc : Core c) (h : 0 < c.len) : ∃ i e, c.entry i = some e := by
  rw [hc.len_eq] at h
  obtain ⟨i, hi⟩ := List.exists_mem_of_length_pos h
  obtain ⟨s, hs⟩ := mem_occupied.mp hi
  exact ⟨i, s.entry, entry_eq_some.mpr ⟨s, hs, rfl⟩⟩

theorem evictFrom_spec (hc : Core c) (hp : Paged c) :
    ∀ {order : List (Nat × UInt64)}, (∃ x ∈ order, c.live x = true) →
      ∃ pre x rest c', order = pre ++ x :: rest ∧ (∀ y ∈ pre, c.live y = false) ∧
        c.live x = true ∧ c.evictFrom order = (true, c') ∧ Core c' ∧ Paged c' ∧
        Cleared { c with order := rest } c' (· = x.1)
  | [], h => by
    obtain ⟨x, hx, -⟩ := h
    exact absurd hx List.not_mem_nil
  | y :: order, h => by
    unfold evictFrom
    by_cases hy : c.live y = true
    · rw [if_pos hy]
      have hcd : Core { c with order } := hc.congr rfl rfl rfl rfl rfl rfl rfl
      obtain ⟨hcore, hpaged, hcleared⟩ := remove_spec hcd (hp.congr rfl rfl) y.1
      exact ⟨[], y, order, _, rfl, fun _ h => absurd h List.not_mem_nil, hy, rfl,
        hcore.congr rfl rfl rfl rfl rfl rfl rfl, hpaged.congr rfl rfl, hcleared.ofStats rfl⟩
    · rw [if_neg hy]
      have h' : ∃ x ∈ order, c.live x = true := by
        obtain ⟨x, hx, hlive⟩ := h
        rcases List.mem_cons.mp hx with rfl | hx
        · exact absurd hlive hy
        · exact ⟨x, hx, hlive⟩
      obtain ⟨pre, x, rest, c', hsplit, hdead, hrest⟩ := evictFrom_spec hc hp h'
      refine ⟨y :: pre, x, rest, c', by rw [hsplit]; rfl, fun z hz => ?_, hrest⟩
      rcases List.mem_cons.mp hz with rfl | hz
      · exact Bool.eq_false_iff.mpr hy
      · exact hdead z hz

theorem evicted_ordered (ho : Ordered c) {pre rest : List (Nat × UInt64)}
    (hsplit : c.order = pre ++ x :: rest) (hdead : ∀ y ∈ pre, c.live y = false)
    (h : Cleared { c with order := rest } c' (· = x.1)) : Ordered c' := by
  intro i e he
  obtain ⟨he, hi⟩ := h.entry_eq_some.mp he
  have hmem := ho (i := i) (e := e) he
  rw [h.order]
  rw [hsplit, List.mem_append, List.mem_cons] at hmem
  rcases hmem with hpre | rfl | hrest
  · have := hdead _ hpre
    rw [Bool.eq_false_iff] at this
    exact absurd (live_iff.mpr ⟨e, he, rfl⟩) this
  · exact absurd rfl hi
  · exact hrest

/-- A slot and what it holds. -/
structure Resident (β : Type) where
  slot : Nat
  entry : Entry β

def Resident.id (r : Resident β) : BlockId := ⟨r.slot, r.entry.stamp⟩

def named (c : BlockCache β) (x : Nat × UInt64) : Option (Resident β) :=
  ((c.entry x.1).filter fun e => e.stamp = x.2).map (⟨x.1, ·⟩)

def resident (c : BlockCache β) : List (Resident β) := c.order.filterMap c.named

theorem named_eq_some {r : Resident β} :
    c.named x = some r ↔ c.entry r.slot = some r.entry ∧ x = (r.slot, r.entry.stamp) := by
  obtain ⟨i, stamp⟩ := x
  obtain ⟨slot, e⟩ := r
  unfold named
  rw [Option.map_eq_some_iff]
  simp only [Option.filter_eq_some_iff, decide_eq_true_eq, Resident.mk.injEq, Prod.mk.injEq]
  constructor
  · rintro ⟨f, ⟨hf, rfl⟩, rfl, rfl⟩
    exact ⟨hf, rfl, rfl⟩
  · rintro ⟨he, rfl, rfl⟩
    exact ⟨e, ⟨he, rfl⟩, rfl, rfl⟩

theorem mem_resident (ho : Ordered c) {r : Resident β} :
    r ∈ c.resident ↔ c.entry r.slot = some r.entry := by
  unfold resident
  rw [List.mem_filterMap]
  constructor
  · rintro ⟨x, -, hx⟩
    exact (named_eq_some.mp hx).1
  · exact fun h => ⟨_, ho h, named_eq_some.mpr ⟨h, rfl⟩⟩

theorem resident_length (hc : Core c) (ho : Ordered c) (hnodup : c.order.Nodup) :
    c.resident.length = c.len := by
  have hslots : (c.resident.map Resident.slot).Nodup := by
    refine List.Nodup.map_on ?_ (hnodup.filterMap fun x y r hx hy => ?_)
    · intro r hr q hq heq
      have h1 := (mem_resident ho).mp hr
      have h2 := (mem_resident ho).mp hq
      rw [heq, h2] at h1
      obtain ⟨slot, e⟩ := r
      obtain ⟨slot', e'⟩ := q
      rw [show slot = slot' from heq, show e = e' from (Option.some.inj h1).symm]
    · exact (named_eq_some.mp hx).2.trans (named_eq_some.mp hy).2.symm
  have hperm : (c.resident.map Resident.slot).Perm (occupied c.slots) := by
    refine (List.perm_ext_iff_of_nodup hslots (occupied_nodup _)).mpr fun i => ?_
    rw [List.mem_map, mem_occupied]
    constructor
    · rintro ⟨r, hr, rfl⟩
      obtain ⟨s, hs, -⟩ := entry_eq_some.mp ((mem_resident ho).mp hr)
      exact ⟨s, hs⟩
    · rintro ⟨s, hs⟩
      exact ⟨⟨i, s.entry⟩, (mem_resident ho).mpr (entry_eq_some.mpr ⟨s, hs, rfl⟩), rfl⟩
  rw [hc.len_eq, ← hperm.length_eq, List.length_map]

theorem Cleared.resident {gone : Nat → Prop} (h : Cleared c c' gone) {P : Resident β → Prop}
    [DecidablePred P] (hP : ∀ r, c.entry r.slot = some r.entry → (gone r.slot ↔ P r)) :
    c'.resident = c.resident.filter fun r => ¬ P r := by
  unfold BlockCache.resident
  rw [h.order, List.filter_filterMap]
  congr 1
  funext x
  refine Option.ext fun r => ?_
  rw [named_eq_some, h.entry_eq_some, Option.filter_eq_some_iff, named_eq_some, decide_eq_true_eq]
  constructor
  · rintro ⟨⟨he, hg⟩, hx⟩
    exact ⟨⟨he, hx⟩, fun hp => hg ((hP r he).mpr hp)⟩
  · rintro ⟨⟨he, hx⟩, hp⟩
    exact ⟨⟨he, fun hg => hp ((hP r he).mp hg)⟩, hx⟩

theorem evicted_resident (hnodup : c.order.Nodup) {pre rest : List (Nat × UInt64)}
    (hsplit : c.order = pre ++ x :: rest) (hdead : ∀ y ∈ pre, c.live y = false)
    (hlive : c.live x = true) (h : Cleared { c with order := rest } c' (· = x.1)) :
    c'.resident = c.resident.drop 1 := by
  obtain ⟨e, he, hstamp⟩ := live_iff.mp hlive
  have hpre : pre.filterMap c.named = [] := by
    refine List.filterMap_eq_nil_iff.mpr fun y hy => ?_
    rcases hn : c.named y with _ | r
    · rfl
    · obtain ⟨hr, rfl⟩ := named_eq_some.mp hn
      have := hdead _ hy
      rw [live_iff.mpr ⟨r.entry, hr, rfl⟩] at this
      cases this
  have hx : c.named x = some ⟨x.1, e⟩ := named_eq_some.mpr ⟨he, by rw [hstamp]⟩
  rw [hsplit] at hnodup
  have hxrest : x ∉ rest := (List.nodup_cons.mp (List.nodup_append.mp hnodup).2.1).1
  unfold BlockCache.resident
  rw [h.order, hsplit, List.filterMap_append, hpre, List.nil_append, List.filterMap_cons_some hx,
    List.drop_one, List.tail_cons]
  refine List.filterMap_congr fun y hy => ?_
  refine Option.ext fun r => ?_
  rw [named_eq_some, named_eq_some, h.entry_eq_some]
  refine ⟨fun hr => ⟨hr.1.1, hr.2⟩, fun hr => ⟨⟨hr.1, fun hslot => ?_⟩, hr.2⟩⟩
  -- the slot of the evicted block under its stamp is named once in the order
  have hee : e = r.entry := by
    have := hr.1
    rw [hslot] at this
    exact Option.some.inj (he.symm.trans this)
  refine hxrest ?_
  have hyx : y = x := by rw [hr.2, hslot, ← hee, hstamp]
  exact hyx ▸ hy

/-- **Making room** takes whole blocks out, until there is room for one more. -/
structure Roomy (c c' : BlockCache β) : Prop where
  coherent : Coherent c'
  room : c'.len < c'.capacity
  entry : ∀ {i e}, c'.entry i = some e → c.entry i = some e
  length : c'.slots.length = c.slots.length
  nextStamp : c'.nextStamp = c.nextStamp
  capacity : c'.capacity = c.capacity
  epoch : c'.epoch = c.epoch
  order : c'.order.Sublist c.order
  /-- A slot can be freed only when something goes. -/
  free : c.free.length ≤ c'.free.length
  evicts : c.capacity ≤ c.len → c.free.length < c'.free.length
  /-- The oldest blocks are the ones that go. -/
  resident : c.order.Nodup → c'.resident = c.resident.drop (c.len + 1 - c.capacity)

theorem makeRoom_spec {fuel : Nat} (hc : Coherent c) (hfuel : c.len < fuel) :
    Roomy c (makeRoom fuel c) := by
  induction fuel generalizing c with
  | zero => exact absurd hfuel (Nat.not_lt_zero _)
  | succ fuel ih =>
    unfold makeRoom
    by_cases hfull : c.capacity ≤ c.len
    · rw [if_pos hfull]
      have hpos : 0 < c.len := lt_of_lt_of_le hc.core.room hfull
      obtain ⟨i, e, he⟩ := hc.core.exists_entry hpos
      obtain ⟨pre, x, rest, c', hsplit, hdead, hlive, hevict, hcore, hpaged, hcleared⟩ :=
        evictFrom_spec hc.core hc.paged
          ⟨(i, e.stamp), hc.ordered he, live_iff.mpr ⟨e, he, rfl⟩⟩
      have hevictOne : c.evictOne = (true, c') := hevict
      rw [hevictOne]
      obtain ⟨f, hf, -⟩ := live_iff.mp hlive
      have hlen : c'.len + 1 = c.len :=
        hcleared.len (hc.core.congr rfl rfl rfl rfl rfl rfl rfl) hcore hf
      have hlength : c'.slots.length = c.slots.length := hcleared.frame.length
      have hfree : c.free.length < c'.free.length := by
        have h1 := hc.core.len_eq
        have h2 := occupied_length hc.core.free_nodup hc.core.mem_free
        have h3 := hcore.len_eq
        have h4 := occupied_length hcore.free_nodup hcore.mem_free
        omega
      have hroomy := ih ⟨hcore, hpaged, evicted_ordered hc.ordered hsplit hdead hcleared⟩
        (by omega)
      exact
        { coherent := hroomy.coherent
          room := hroomy.room
          entry := fun h => (hcleared.entry_eq_some.mp (hroomy.entry h)).1
          length := hroomy.length.trans hlength
          nextStamp := hroomy.nextStamp.trans hcleared.frame.nextStamp
          capacity := hroomy.capacity.trans hcleared.frame.capacity
          epoch := hroomy.epoch.trans hcleared.frame.epoch
          order := by
            refine hroomy.order.trans ?_
            rw [hcleared.order, hsplit]
            exact (List.sublist_cons_self ..).trans (List.sublist_append_right ..)
          free := hfree.le.trans hroomy.free
          evicts := fun _ => lt_of_lt_of_le hfree hroomy.free
          resident := fun hnodup => by
            have hrest : rest.Nodup := by
              rw [hsplit] at hnodup
              exact (List.nodup_cons.mp (List.nodup_append.mp hnodup).2.1).2
            rw [hroomy.resident (by rw [hcleared.order]; exact hrest),
              evicted_resident hnodup hsplit hdead hlive hcleared, List.drop_drop]
            have hcap : c'.capacity = c.capacity := hcleared.frame.capacity
            congr 1
            omega }
    · rw [if_neg hfull]
      refine ⟨hc, by omega, id, rfl, rfl, rfl, rfl, List.Sublist.refl _, Nat.le_refl _,
        fun h => absurd h hfull, fun _ => ?_⟩
      rw [show c.len + 1 - c.capacity = 0 by omega]
      rfl

/-! ## Insertion -/

/-- A slot is free or can be added. -/
def HasSlot (c : BlockCache β) : Prop := c.free ≠ [] ∨ c.slots.length < noSlot

/-- What `place` does: it fills a slot that was empty. -/
structure Placed (c : BlockCache β) (fresh : Slot β) (i : Nat) (c' : BlockCache β) : Prop where
  was : peek c.slots i = none
  peek : ∀ j, Slab.peek c'.slots j = if j = i then some fresh else Slab.peek c.slots j
  lt : i < c'.slots.length
  below : c'.slots.length ≤ noSlot
  fits : c'.slots.length ≤ c.capacity
  free_nodup : c'.free.Nodup
  mem_free : ∀ j, j ∈ c'.free ↔ j < c'.slots.length ∧ Slab.peek c'.slots j = none
  rest : c' = { c with slots := c'.slots, free := c'.free }

theorem place_spec (hc : Core c) (hroom : c.len < c.capacity) (hslot : c.HasSlot) (fresh : Slot β) :
    Placed c fresh (c.place fresh).1 (c.place fresh).2 := by
  unfold place
  rcases hfree : c.free with _ | ⟨i, free⟩
  · have hlt : c.slots.length < noSlot := hslot.resolve_left fun h => h hfree
    have hidx : slotIndex c.slots.length = c.slots.length := if_pos (by
      unfold noSlot at hlt
      omega)
    have hlen : c.len = c.slots.length := by rw [len, hfree]; rfl
    simp only [hidx]
    have hnone : peek c.slots c.slots.length = none := by
      rcases h : peek c.slots c.slots.length with _ | s
      · rfl
      · exact absurd (lt_of_peek h) (Nat.lt_irrefl _)
    refine ⟨hnone, peek_snoc _ _, by simp, ?_, ?_, by simp, ?_, by simp⟩
    · rw [List.length_append, List.length_singleton]
      exact hlt
    · rw [List.length_append, List.length_singleton, ← hlen]
      exact hroom
    · intro j
      refine iff_of_false List.not_mem_nil ?_
      rintro ⟨hj, hpeek⟩
      rw [peek_snoc] at hpeek
      by_cases heq : j = c.slots.length
      · rw [if_pos heq] at hpeek
        cases hpeek
      · rw [if_neg heq] at hpeek
        rw [List.length_append, List.length_singleton] at hj
        have := (hc.mem_free j).mpr ⟨by omega, hpeek⟩
        rw [hfree] at this
        exact List.not_mem_nil this
  · have hi := (hc.mem_free i).mp (by rw [hfree]; exact List.mem_cons_self ..)
    have hnodup := hc.free_nodup
    rw [hfree] at hnodup
    obtain ⟨hifree, hnodup⟩ := List.nodup_cons.mp hnodup
    have hpeek : ∀ j, peek (c.slots.set i (some fresh)) j =
        if j = i then some fresh else peek c.slots j := fun j => by
      rw [peek_set _ hi.1]
      exact if_congr eq_comm rfl rfl
    refine ⟨hi.2, hpeek, by rw [List.length_set]; exact hi.1, by rw [List.length_set]; exact hc.below,
      by rw [List.length_set]; exact hc.fits, hnodup, fun j => ?_, rfl⟩
    rw [List.length_set, hpeek]
    by_cases hj : j = i
    · subst hj
      simp [hifree]
    · rw [if_neg hj, ← hc.mem_free, hfree, List.mem_cons]
      simp [hj]

theorem linked_insert {slots' : List (Option (Slot β))} (hl : Linked slots) {i : Nat} {s : Slot β}
    (hwas : peek slots i = none) (hexits : ∀ n, s.exits n = Link.empty) (hpreds : s.preds = [])
    (h : ∀ j, peek slots' j = if j = i then some s else peek slots j) : Linked slots' := by
  have hold : ∀ {j t}, peek slots j = some t → peek slots' j = some t := by
    intro j t ht
    rw [h, if_neg]
    · exact ht
    · rintro rfl
      rw [hwas] at ht
      cases ht
  refine ⟨?_, ?_, ?_⟩
  · intro j t n ht htarget
    rw [h] at ht
    by_cases hj : j = i
    · rw [if_pos hj] at ht
      obtain rfl := Option.some.inj ht
      exact absurd (by rw [hexits]; rfl) htarget
    · rw [if_neg hj] at ht
      obtain ⟨u, hu, hstamp, hmem⟩ := hl.exit n ht htarget
      exact ⟨u, hold hu, hstamp, hmem⟩
  · intro j t p n ht hmem
    rw [h] at ht
    by_cases hj : j = i
    · rw [if_pos hj] at ht
      obtain rfl := Option.some.inj ht
      rw [hpreds] at hmem
      cases hmem
    · rw [if_neg hj] at ht
      obtain ⟨q, hq, htarget⟩ := hl.back ht hmem
      exact ⟨q, hold hq, htarget⟩
  · intro j t ht
    rw [h] at ht
    by_cases hj : j = i
    · rw [if_pos hj] at ht
      obtain rfl := Option.some.inj ht
      rw [hpreds]
      exact List.nodup_nil
    · rw [if_neg hj] at ht
      exact hl.once ht

/-- What `install` does, structure by structure: slot `i` was empty and has `s`, which is
first in its bucket and last in its page and in the order. -/
structure Filled (c : BlockCache β) (s : Slot β) (i : Nat) (c' : BlockCache β) : Prop where
  was : peek c.slots i = none
  slots : ∀ j, peek c'.slots j = if j = i then some s else peek c.slots j
  lt : i < c'.slots.length
  below : c'.slots.length ≤ noSlot
  fits : c'.slots.length ≤ c.capacity
  free_nodup : c'.free.Nodup
  mem_free : ∀ j, j ∈ c'.free ↔ j < c'.slots.length ∧ peek c'.slots j = none
  exits : ∀ n, s.exits n = Link.empty
  preds : s.preds = []
  next : s.next = c.head (c.bucket s.pc s.key)
  bucketMask : c'.bucketMask = c.bucketMask
  buckets : c'.buckets = c.buckets.set (c.bucket s.pc s.key) i
  pages : c'.pages = c.pages.insert s.page.toNat (c.pageList s.page.toNat ++ [i])
  filter : c'.filter = markFilter c.filter s.page
  order : c'.order = c.order ++ [(i, s.stamp)]
  nextStamp : c'.nextStamp = c.nextStamp + 1
  capacity : c'.capacity = c.capacity
  epoch : c'.epoch = c.epoch
  staleLinks : c'.stats.staleLinks = c.stats.staleLinks

def freshSlot (c : BlockCache β) (pc key page : UInt64) (insns : Nat) (block : β) : Slot β :=
  { block, pc, key, page := pageOf page, insns, stamp := c.nextStamp
    next := c.head (c.bucket pc key), exits := fun _ => Link.empty, preds := [], code := none }

theorem install_filled (hc : Core c) (hroom : c.len < c.capacity) (hslot : c.HasSlot)
    (pc key page : UInt64) (insns : Nat) (block : β) :
    (c.install pc key page insns block).1.stamp = c.nextStamp ∧
      Filled c (c.freshSlot pc key page insns block) (c.install pc key page insns block).1.slot
        (c.install pc key page insns block).2 := by
  obtain ⟨fresh, hfresh⟩ : ∃ s : Slot β, s =
      ⟨block, pc, key, pageOf page, insns, c.nextStamp, noSlot, fun _ => Link.empty, [], none⟩ :=
    ⟨_, rfl⟩
  obtain ⟨d, hd⟩ : ∃ d : BlockCache β, d = { c with nextStamp := c.nextStamp + 1 } := ⟨_, rfl⟩
  have hcd : Core d := by rw [hd]; exact hc.congr rfl rfl rfl rfl rfl rfl rfl
  have hplaced := place_spec hcd (by rw [hd]; exact hroom) (by rw [hd]; exact hslot) fresh
  unfold install
  simp only
  rw [← hd, ← hfresh]
  rcases hif : d.place fresh with ⟨i, f⟩
  rw [hif] at hplaced
  simp only at hplaced ⊢
  obtain ⟨hwas, hpeek, hlt, hbelow, hfits, hnodup, hmem, hrest⟩ := hplaced
  rw [hd] at hwas hpeek hfits hrest
  simp only at hwas hpeek hfits hrest
  have hlength : ∀ g : Slot β → Slot β, (edit f.slots i g).length = f.slots.length :=
    fun g => edit_length ..
  refine ⟨trivial, ?_⟩
  refine
    { was := hwas
      slots := fun j => ?_
      lt := by rw [hlength]; exact hlt
      below := by rw [hlength]; exact hbelow
      fits := by rw [hlength]; exact hfits
      free_nodup := hnodup
      mem_free := fun j => ?_
      exits := fun n => rfl
      preds := rfl
      next := rfl
      bucketMask := by rw [hrest]
      buckets := by rw [hrest]; rfl
      pages := by rw [hrest]; rfl
      filter := by rw [hrest]; rfl
      order := by rw [hrest]; rfl
      nextStamp := by rw [hrest]
      capacity := by rw [hrest]
      epoch := by rw [hrest]
      staleLinks := by rw [hrest] }
  · rw [peek_edit, hpeek]
    by_cases hj : j = i
    · rw [if_pos hj.symm, if_pos hj, if_pos hj, hfresh, hrest]
      rfl
    · rw [if_neg (Ne.symm hj), if_neg hj, if_neg hj]
  · rw [hlength, hmem, peek_edit]
    by_cases hj : i = j
    · rw [if_pos hj, Option.map_eq_none_iff]
    · rw [if_neg hj]

section

variable {c c' : BlockCache β} {s : Slot β} {i : Nat}

section

variable (h : Filled c s i c')
include h

theorem Filled.entry (j : Nat) : c'.entry j = if j = i then some s.entry else c.entry j := by
  rw [BlockCache.entry, h.slots]
  by_cases hj : j = i
  · rw [if_pos hj, if_pos hj]
    rfl
  · rw [if_neg hj, if_neg hj]
    rfl

theorem Filled.empty : c.entry i = none := by
  rw [BlockCache.entry, h.was]
  rfl

theorem Filled.kept {j : Nat} {e : Entry β} (he : c.entry j = some e) : j ≠ i := by
  rintro rfl
  rw [h.empty] at he
  cases he

theorem Filled.chain (hc : Core c) {b : Nat} (hb : b < c.buckets.length) :
    ∃ l, Chained (nextOf c'.slots) noSlot (c'.head b) l ∧ l.Nodup ∧
      ∀ j, j ∈ l ↔ ∃ e, c'.entry j = some e ∧ c.bucket e.pc e.key = b := by
  obtain ⟨l, hl, hnodup, hmem⟩ := hc.chain b hb
  have hil : i ∉ l := fun hi => by
    obtain ⟨e, he, -⟩ := (hmem i).mp hi
    exact h.kept he rfl
  have hl' : Chained (nextOf c'.slots) noSlot (c.head b) l := hl.congr fun j hj => by
    have hne : j ≠ i := fun heq => hil (heq ▸ hj)
    rw [nextOf, h.slots, if_neg hne]
    rfl
  by_cases hbk : c.bucket s.pc s.key = b
  · -- its own bucket: the block comes first
    refine ⟨i :: l, ⟨?_, ?_, c.head b, ?_, hl'⟩, List.nodup_cons.mpr ⟨hil, hnodup⟩, ?_⟩
    · rw [head, h.buckets, hbk, List.getD_eq_getElem?_getD, List.getElem?_set_self hb,
        Option.getD_some]
    · have := h.lt
      have := h.below
      omega
    · rw [nextOf, h.slots, if_pos rfl, Option.map_some, h.next, hbk]
    · intro j
      rw [List.mem_cons, hmem, h.entry]
      by_cases hj : j = i
      · rw [if_pos hj]
        exact iff_of_true (Or.inl hj) ⟨_, rfl, hbk⟩
      · rw [if_neg hj]
        simp [hj]
  · refine ⟨l, ?_, hnodup, fun j => ?_⟩
    · have hhead : c'.head b = c.head b := by
        rw [head, h.buckets, List.getD_eq_getElem?_getD, List.getElem?_set_ne hbk, head,
          List.getD_eq_getElem?_getD]
      rw [hhead]
      exact hl'
    · rw [hmem, h.entry]
      by_cases hj : j = i
      · rw [if_pos hj, hj, h.empty]
        refine iff_of_false (by simp) ?_
        rintro ⟨e, he, heb⟩
        obtain rfl := Option.some.inj he
        exact hbk heb
      · rw [if_neg hj]

theorem Filled.core (hc : Core c) (hnew : c.find s.pc s.key = none)
    (haligned : pageOf s.page = s.page) : Core c' := by
  refine
    { linked := linked_insert hc.linked h.was h.exits h.preds h.slots
      masked := by rw [h.bucketMask, h.buckets, List.length_set]; exact hc.masked
      chain := ?_
      unique := ?_
      free_nodup := h.free_nodup
      mem_free := h.mem_free
      below := h.below
      fits := by rw [h.capacity]; exact h.fits
      room := by rw [h.capacity]; exact hc.room
      filtered := ?_
      wide := by rw [h.filter, markFilter_length]; exact hc.wide
      aligned := ?_
      belt := by rw [h.staleLinks]; exact hc.belt }
  · intro b hb
    rw [h.buckets, List.length_set] at hb
    simpa only [bucket_congr h.bucketMask] using h.chain hc hb
  · -- no other block has its pc and key
    intro j k e g he hg hpc hkey
    have hno := (find_eq_none hc).mp hnew
    rw [h.entry] at he hg
    by_cases hj : j = i <;> by_cases hk : k = i
    · rw [hj, hk]
    · rw [if_pos hj] at he
      rw [if_neg hk] at hg
      obtain rfl := Option.some.inj he
      exact absurd ⟨hpc.symm, hkey.symm⟩ (hno k g hg)
    · rw [if_neg hj] at he
      rw [if_pos hk] at hg
      obtain rfl := Option.some.inj hg
      exact absurd ⟨hpc, hkey⟩ (hno j e he)
    · rw [if_neg hj] at he
      rw [if_neg hk] at hg
      exact hc.unique he hg hpc hkey
  · intro j e he
    rw [h.entry] at he
    refine filterSet_mark hc.wide h.filter _ ?_
    by_cases hj : j = i
    · rw [if_pos hj] at he
      obtain rfl := Option.some.inj he
      exact Or.inl rfl
    · rw [if_neg hj] at he
      exact Or.inr (hc.filtered he)
  · intro j e he
    rw [h.entry] at he
    by_cases hj : j = i
    · rw [if_pos hj] at he
      obtain rfl := Option.some.inj he
      exact haligned
    · rw [if_neg hj] at he
      exact hc.aligned he

theorem Filled.paged (hp : Paged c) : Paged c' := by
  have hpages : ∀ p, c'.pageList p =
      if p = s.page.toNat then c.pageList p ++ [i] else c.pageList p := by
    intro p
    rw [pageList, h.pages, SortedMap.get_insert]
    by_cases hpage : p = s.page.toNat
    · rw [if_pos hpage, if_pos hpage, hpage]
      rfl
    · rw [if_neg hpage, if_neg hpage]
      rfl
  have hnot : ∀ p, i ∉ c.pageList p := fun p hi => by
    obtain ⟨e, he, -⟩ := (hp.mem p i).mp hi
    exact h.kept he rfl
  refine ⟨fun p => ?_, fun p j => ?_⟩
  · rw [hpages]
    by_cases hpage : p = s.page.toNat
    · rw [if_pos hpage]
      refine List.nodup_append'.mpr ⟨hp.nodup p, List.nodup_singleton i, fun j hj hji => ?_⟩
      rw [List.mem_singleton] at hji
      exact hnot p (hji ▸ hj)
    · rw [if_neg hpage]
      exact hp.nodup p
  · rw [hpages, h.entry]
    by_cases hj : j = i
    · rw [if_pos hj, hj]
      by_cases hpage : p = s.page.toNat
      · rw [if_pos hpage]
        exact iff_of_true (by simp) ⟨_, rfl, hpage.symm⟩
      · rw [if_neg hpage]
        refine iff_of_false (hnot p) ?_
        rintro ⟨e, he, hep⟩
        obtain rfl := Option.some.inj he
        exact hpage hep.symm
    · rw [if_neg hj, ← hp.mem]
      by_cases hpage : p = s.page.toNat
      · rw [if_pos hpage, List.mem_append, List.mem_singleton]
        exact or_iff_left hj
      · rw [if_neg hpage]

theorem Filled.ordered (ho : Ordered c) : Ordered c' := by
  intro j e he
  rw [h.entry] at he
  rw [h.order, List.mem_append, List.mem_singleton]
  by_cases hj : j = i
  · rw [if_pos hj] at he
    obtain rfl := Option.some.inj he
    exact Or.inr (by rw [hj]; rfl)
  · rw [if_neg hj] at he
    exact Or.inl (ho he)

end

end

/-- Slot `i` holds the block of this address and key. -/
def HasKey (c : BlockCache β) (pc key : UInt64) (i : Nat) : Prop :=
  ∃ e, c.entry i = some e ∧ e.pc = pc ∧ e.key = key

theorem dropOld_spec (hc : Coherent c) (pc key : UInt64) :
    Coherent (c.dropOld pc key) ∧ Cleared c (c.dropOld pc key) (c.HasKey pc key) := by
  unfold dropOld
  rcases hf : c.find pc key with _ | old
  · refine ⟨hc, (Cleared.none c).congr fun i e he => iff_of_false not_false ?_⟩
    rintro ⟨f, hf', hpk⟩
    exact (find_eq_none hc.core).mp hf i f hf' hpk
  · obtain ⟨e, he, -, hpc, hkey⟩ := (find_eq_some hc.core).mp hf
    obtain ⟨hcore, hpaged, hcleared⟩ := remove_spec hc.core hc.paged old.slot
    refine ⟨⟨hcore, hpaged, hcleared.ordered hc.ordered⟩, hcleared.congr fun i f hf' => ?_⟩
    constructor
    · rintro rfl
      exact ⟨e, he, hpc, hkey⟩
    · rintro ⟨g, hg, hgpc, hgkey⟩
      exact hc.core.unique hg he (hgpc.trans hpc.symm) (hgkey.trans hkey.symm)

theorem dropOld_find (hc : Coherent c) (pc key : UInt64) :
    (c.dropOld pc key).find pc key = none := by
  obtain ⟨hcoherent, hcleared⟩ := dropOld_spec hc pc key
  refine (find_eq_none hcoherent.core).mpr fun i e he hpk => ?_
  obtain ⟨he, hi⟩ := hcleared.entry_eq_some.mp he
  exact hi ⟨e, he, hpk⟩

theorem Cleared.free_le {gone : Nat → Prop} (h : Cleared c c' gone) (hc : Core c) (hc' : Core c') :
    c.free.length ≤ c'.free.length := by
  refine (List.subperm_of_subset hc.free_nodup fun i hi => ?_).length_le
  obtain ⟨hlt, hnone⟩ := (hc.mem_free i).mp hi
  refine (hc'.mem_free i).mpr ⟨by rw [h.frame.length]; exact hlt, ?_⟩
  rw [← entry_eq_none] at hnone ⊢
  by_cases hg : gone i
  · exact h.went hg
  · rw [h.kept hg]
    exact hnone

/-- Whether an insertion has a slot to go to: the table can grow, or there is a free slot,
or one is freed on the way. -/
def CanInsert (c : BlockCache β) (pc key : UInt64) : Prop :=
  c.slots.length < noSlot ∨ c.free ≠ [] ∨ c.find pc key ≠ none ∨ c.capacity ≤ c.len

def cleared (c : BlockCache β) (pc key : UInt64) : BlockCache β :=
  makeRoom ((c.dropOld pc key).len + 1) (c.dropOld pc key)

section

variable (hc : Coherent c)
include hc

theorem cleared_roomy (pc key : UInt64) : Roomy (c.dropOld pc key) (c.cleared pc key) :=
  makeRoom_spec (dropOld_spec hc pc key).1 (Nat.lt_succ_self _)

theorem cleared_find (pc key : UInt64) : (c.cleared pc key).find pc key = none := by
  have hroomy := cleared_roomy hc pc key
  have hnone := (find_eq_none (dropOld_spec hc pc key).1.core).mp (dropOld_find hc pc key)
  exact (find_eq_none hroomy.coherent.core).mpr fun i e he => hnone i e (hroomy.entry he)

theorem dropOld_frees (hfind : c.find pc key ≠ none) : ∃ i, i ∈ (c.dropOld pc key).free := by
  obtain ⟨hcoherent, hcleared⟩ := dropOld_spec hc pc key
  obtain ⟨old, hf⟩ := Option.ne_none_iff_exists'.mp hfind
  obtain ⟨e, he, -, hpk⟩ := (find_eq_some hc.core).mp hf
  refine ⟨old.slot, (hcoherent.core.mem_free _).mpr ⟨?_, ?_⟩⟩
  · rw [hcleared.frame.length]
    obtain ⟨s, hs, -⟩ := entry_eq_some.mp he
    exact lt_of_peek hs
  · rw [← entry_eq_none]
    exact hcleared.went ⟨e, he, hpk⟩

theorem cleared_hasSlot (hcan : c.CanInsert pc key) : (c.cleared pc key).HasSlot := by
  obtain ⟨hcoherent, hcleared⟩ := dropOld_spec hc pc key
  have hroomy := cleared_roomy hc pc key
  have hdrop := hcleared.free_le hc.core hcoherent.core
  have hfree := hroomy.free
  have hreplaced : c.find pc key ≠ none → (c.cleared pc key).HasSlot := by
    intro hfind
    refine Or.inl fun h => ?_
    rw [h, List.length_nil] at hfree
    obtain ⟨i, hi⟩ := dropOld_frees hc hfind
    have := List.length_pos_of_mem hi
    omega
  rcases hcan with hlt | hne | hfind | hfull
  · refine Or.inr ?_
    rw [hroomy.length, hcleared.frame.length]
    exact hlt
  · refine Or.inl fun h => ?_
    rw [h, List.length_nil] at hfree
    exact hne (List.length_eq_zero_iff.mp (by omega))
  · exact hreplaced hfind
  · by_cases hfind : c.find pc key = none
    · refine Or.inl fun h => ?_
      have hsame : c.dropOld pc key = c := by
        unfold dropOld
        simp only [hfind]
      have := hroomy.evicts (by rw [hsame]; exact hfull)
      rw [h, List.length_nil] at this
      omega
    · exact hreplaced hfind

theorem insert_spec (hcan : c.CanInsert pc key) (page : UInt64) (insns : Nat)
    (block : β) :
    (c.insert pc key page insns block).1.stamp = c.nextStamp ∧
      Filled (c.cleared pc key) ((c.cleared pc key).freshSlot pc key page insns block)
        (c.insert pc key page insns block).1.slot (c.insert pc key page insns block).2 ∧
      Coherent (c.insert pc key page insns block).2 := by
  have hroomy := cleared_roomy hc pc key
  have hcleared := (dropOld_spec hc pc key).2
  obtain ⟨hstamp, hfilled⟩ := install_filled hroomy.coherent.core hroomy.room
    (cleared_hasSlot hc hcan) pc key page insns block
  refine ⟨?_, hfilled, ?_⟩
  · exact hstamp.trans (hroomy.nextStamp.trans hcleared.frame.nextStamp)
  · exact ⟨hfilled.core hroomy.coherent.core (cleared_find hc pc key) (pageOf_pageOf page),
      hfilled.paged hroomy.coherent.paged, hfilled.ordered hroomy.coherent.ordered⟩

/-! ## Links -/

theorem Coherent.relink (hl : Linked c'.slots) {f : Nat → Slot β → Slot β}
    (hpeek : ∀ j, peek c'.slots j = (peek c.slots j).map (f j))
    (hentry : ∀ j s, (f j s).entry = s.entry) (hnext : ∀ j s, (f j s).next = s.next)
    (hlength : c'.slots.length = c.slots.length)
    (hrest : c' = { c with slots := c'.slots, stats := c'.stats })
    (hstale : c'.stats.staleLinks = c.stats.staleLinks) :
    Coherent c' ∧ Cleared c c' fun _ => False := by
  have hentries : ∀ j, c'.entry j = c.entry j := by
    intro j
    rw [entry, hpeek, Option.map_map, entry]
    congr 1
    funext s
    exact hentry j s
  have hnexts : nextOf c'.slots = nextOf c.slots := by
    funext j
    rw [nextOf, hpeek, Option.map_map, nextOf]
    congr 1
    funext s
    exact hnext j s
  have hmask : c'.bucketMask = c.bucketMask := by rw [hrest]
  have hbuckets : c'.buckets = c.buckets := by rw [hrest]
  have hfilter : c'.filter = c.filter := by rw [hrest]
  have hcapacity : c'.capacity = c.capacity := by rw [hrest]
  have hfree : c'.free = c.free := by rw [hrest]
  have horder : c'.order = c.order := by rw [hrest]
  have hpages : c'.pages = c.pages := by rw [hrest]
  have hhead : ∀ b, c'.head b = c.head b := fun b => by rw [head, hbuckets, head]
  refine ⟨⟨?_, ⟨?_, ?_⟩, fun he => ?_⟩, ⟨?_, horder, fun h => h.elim, fun _ => hentries _⟩⟩
  · refine
      { linked := hl
        masked := by rw [hmask, hbuckets]; exact hc.core.masked
        chain := ?_
        unique := fun he hf => hc.core.unique ((hentries _).symm.trans he)
          ((hentries _).symm.trans hf)
        free_nodup := hfree ▸ hc.core.free_nodup
        mem_free := ?_
        below := hlength ▸ hc.core.below
        fits := by rw [hlength, hcapacity]; exact hc.core.fits
        room := hcapacity ▸ hc.core.room
        filtered := fun he =>
          (filterSet_congr hfilter _).trans (hc.core.filtered ((hentries _).symm.trans he))
        wide := hfilter ▸ hc.core.wide
        aligned := fun he => hc.core.aligned ((hentries _).symm.trans he)
        belt := hstale.trans hc.core.belt }
    · rw [hbuckets]
      simpa only [hnexts, hhead, hentries, bucket_congr hmask] using hc.core.chain
    · intro i
      rw [hfree, hc.core.mem_free, hlength, hpeek, Option.map_eq_none_iff]
  · intro p
    rw [pageList, hpages]
    exact hc.paged.nodup p
  · intro p i
    rw [pageList, hpages, hentries]
    exact hc.paged.mem p i
  · rw [horder]
    exact hc.ordered ((hentries _).symm.trans he)
  · exact ⟨hlength, by rw [hrest], hcapacity, hfilter, hmask, by rw [hbuckets],
      by rw [hrest], hstale⟩

theorem setCode_spec (id : BlockId) (code : CodeRef) :
    Coherent (c.setCode id code) ∧ Cleared c (c.setCode id code) fun _ => False := by
  obtain ⟨f, hf⟩ : ∃ f : Nat → Slot β → Slot β, f = fun j s =>
      if j = id.slot ∧ s.stamp = id.stamp then { s with code := some code } else s := ⟨_, rfl⟩
  have hpeek : ∀ j, peek (c.setCode id code).slots j = (peek c.slots j).map (f j) := by
    intro j
    rw [setCode, peek_edit]
    rcases h : peek c.slots j with _ | s
    · simp
    · by_cases hj : id.slot = j
      · subst hj
        simp [hf]
      · simp [hf, hj, Ne.symm hj]
  have hties : ∀ j s, (f j s).exits = s.exits ∧ (f j s).preds = s.preds ∧
      (f j s).stamp = s.stamp := by
    intro j s
    rw [hf]
    simp only
    split <;> exact ⟨rfl, rfl, rfl⟩
  refine hc.relink ⟨?_, ?_, ?_⟩ hpeek (fun j s => ?_) (fun j s => ?_) (edit_length ..) rfl rfl
  · intro i s' n hs' htarget
    obtain ⟨s, hs, rfl⟩ := Option.map_eq_some_iff.mp ((hpeek i).symm.trans hs')
    rw [(hties i s).1] at htarget ⊢
    obtain ⟨t, ht, hstamp, hmem⟩ := hc.core.linked.exit n hs htarget
    refine ⟨f _ t, by rw [hpeek, ht]; rfl, ?_, ?_⟩
    · rw [(hties _ t).2.2]
      exact hstamp
    · rw [(hties _ t).2.1]
      exact hmem
  · intro i s' p n hs' hmem
    obtain ⟨s, hs, rfl⟩ := Option.map_eq_some_iff.mp ((hpeek i).symm.trans hs')
    rw [(hties i s).2.1] at hmem
    obtain ⟨q, hq, htarget⟩ := hc.core.linked.back hs hmem
    refine ⟨f _ q, by rw [hpeek, hq]; rfl, ?_⟩
    rw [(hties _ q).1]
    exact htarget
  · intro i s' hs'
    obtain ⟨s, hs, rfl⟩ := Option.map_eq_some_iff.mp ((hpeek i).symm.trans hs')
    rw [(hties i s).2.1]
    exact hc.core.linked.once hs
  · rw [hf]
    simp only
    split <;> rfl
  · rw [hf]
    simp only
    split <;> rfl

end

/-- What patching does to slot `j`: the exit points at its new target, and its back edge is
there and nowhere else. -/
def patched' (from_ : Nat) (i : Fin exitCount) (pc : UInt64) (to_ : BlockId) (j : Nat)
    (u : Slot β) : Slot β :=
  { u with
    exits := if j = from_ then Function.update u.exits i ⟨pc, to_.slot, to_.stamp⟩ else u.exits
    preds := u.preds.filter (· ≠ (from_, i)) ++ if j = to_.slot then [(from_, i)] else [] }

theorem patch_peek (hl : Linked slots) (hbelow : slots.length ≤ noSlot) {from_ : Nat} {s : Slot β}
    (hs : peek slots from_ = some s) (i : Fin exitCount) (pc : UInt64) (to_ : BlockId) (j : Nat) :
    peek (patch slots from_ i (s.exits i) pc to_) j =
      (peek slots j).map (patched' from_ i pc to_ j) := by
  -- the back edge of the exit is in the slot the exit was patched to, and nowhere else
  have hedge : ∀ {k t}, peek slots k = some t → (from_, i) ∈ t.preds →
      (s.exits i).target = k ∧ t.stamp = (s.exits i).stamp := by
    intro k t ht hmem
    obtain ⟨q, hq, htarget⟩ := hl.back ht hmem
    rw [hs] at hq
    obtain rfl := Option.some.inj hq
    refine ⟨htarget, ?_⟩
    obtain ⟨u, hu, hstamp, -⟩ := hl.exit i hs (by
      rw [htarget]
      have := lt_of_peek ht
      omega)
    rw [htarget, ht] at hu
    obtain rfl := Option.some.inj hu
    exact hstamp
  have hdrop : ∀ slots' : List (Option (Slot β)), peek
      (if (s.exits i).target ≠ noSlot then dropBackEdge slots' (s.exits i).target
        (s.exits i).stamp from_ i else slots') j = (peek slots' j).map fun t =>
        { t with preds := t.preds.filter fun edge => ¬ (edge = (from_, i) ∧
          (s.exits i).target ≠ noSlot ∧ (s.exits i).target = j ∧
          t.stamp = (s.exits i).stamp) } := by
    intro slots'
    by_cases hn : (s.exits i).target = noSlot
    · rcases h : peek slots' j with _ | t <;> simp [hn, h]
    · rw [if_pos hn, dropBackEdge_peek]
      simp only [ne_eq, hn, not_false_eq_true, true_and]
  rw [patch, peek_edit, hdrop, peek_edit]
  rcases ht : peek slots j with _ | t
  · simp
  · have hfilter : t.preds.filter (fun edge => ¬ (edge = (from_, i) ∧
        (s.exits i).target ≠ noSlot ∧ (s.exits i).target = j ∧
        t.stamp = (s.exits i).stamp)) = t.preds.filter (· ≠ (from_, i)) := by
      refine List.filter_congr fun edge hmem => ?_
      rw [decide_eq_decide]
      refine not_congr ⟨fun h => h.1, fun h => ?_⟩
      subst h
      obtain ⟨htarget, hstamp⟩ := hedge ht hmem
      refine ⟨rfl, ?_, htarget, hstamp⟩
      rw [htarget]
      have := lt_of_peek ht
      omega
    unfold patched'
    by_cases hj : from_ = j
    · by_cases hto : to_.slot = j
      · simp only [if_pos hj, if_pos hto, if_pos hj.symm, if_pos hto.symm, Option.map_some,
          hfilter]
      · simp only [if_pos hj, if_neg hto, if_pos hj.symm, if_neg (Ne.symm hto), Option.map_some,
          hfilter, List.append_nil]
    · by_cases hto : to_.slot = j
      · simp only [if_neg hj, if_pos hto, if_neg (Ne.symm hj), if_pos hto.symm, Option.map_some,
          hfilter]
      · simp only [if_neg hj, if_neg hto, if_neg (Ne.symm hj), if_neg (Ne.symm hto),
          Option.map_some, hfilter, List.append_nil]

theorem patch_linked {slots' : List (Option (Slot β))} (hl : Linked slots) {from_ : Nat}
    {s t : Slot β} (hs : peek slots from_ = some s) {i : Fin exitCount} {to_ : BlockId}
    (ht : peek slots to_.slot = some t) (hstamp : t.stamp = to_.stamp)
    (h : ∀ j, peek slots' j = (peek slots j).map (patched' from_ i pc to_ j)) : Linked slots' := by
  have hexit : ∀ {j u} (n : Fin exitCount), (j, n) ≠ (from_, i) →
      (patched' from_ i pc to_ j u : Slot β).exits n = u.exits n := by
    intro j u n hne
    unfold patched'
    by_cases hj : j = from_
    · simp only [if_pos hj]
      rw [Function.update_of_ne]
      rintro rfl
      exact hne (by rw [hj])
    · simp only [if_neg hj]
  refine ⟨?_, ?_, ?_⟩
  · intro j u' n hu' htarget
    obtain ⟨u, hu, rfl⟩ := Option.map_eq_some_iff.mp ((h j).symm.trans hu')
    by_cases hjn : (j, n) = (from_, i)
    · obtain ⟨rfl, rfl⟩ := Prod.mk.inj hjn
      have hnew : (patched' j n pc to_ j u : Slot β).exits n = ⟨pc, to_.slot, to_.stamp⟩ := by
        simp [patched']
      rw [hnew]
      refine ⟨patched' j n pc to_ to_.slot t, by rw [h, ht]; rfl, hstamp, ?_⟩
      exact List.mem_append_right _ (by rw [if_pos rfl]; exact List.mem_singleton_self _)
    · rw [hexit n hjn] at htarget ⊢
      obtain ⟨v, hv, hvs, hmem⟩ := hl.exit n hu htarget
      refine ⟨patched' from_ i pc to_ _ v, by rw [h, hv]; rfl, hvs, ?_⟩
      exact List.mem_append_left _ (List.mem_filter.mpr ⟨hmem, decide_eq_true hjn⟩)
  · intro j u' p n hu' hmem
    obtain ⟨u, hu, rfl⟩ := Option.map_eq_some_iff.mp ((h j).symm.trans hu')
    rcases List.mem_append.mp hmem with hmem | hmem
    · obtain ⟨hmem, hne⟩ := List.mem_filter.mp hmem
      obtain ⟨q, hq, htarget⟩ := hl.back hu hmem
      refine ⟨patched' from_ i pc to_ p q, by rw [h, hq]; rfl, ?_⟩
      rw [hexit n (of_decide_eq_true hne)]
      exact htarget
    · by_cases hj : j = to_.slot
      · rw [if_pos hj, List.mem_singleton] at hmem
        obtain ⟨rfl, rfl⟩ := Prod.mk.inj hmem
        refine ⟨patched' p n pc to_ p s, by rw [h, hs]; rfl, ?_⟩
        simp [patched', hj]
      · rw [if_neg hj] at hmem
        cases hmem
  · intro j u' hu'
    obtain ⟨u, hu, rfl⟩ := Option.map_eq_some_iff.mp ((h j).symm.trans hu')
    refine List.nodup_append'.mpr ⟨(hl.once hu).filter _, ?_, ?_⟩
    · split
      · exact List.nodup_singleton _
      · exact List.nodup_nil
    · intro edge hedge hnew
      split at hnew
      · exact absurd hnew (by simpa using (List.mem_filter.mp hedge).2)
      · exact List.not_mem_nil hnew

theorem link_spec (hc : Coherent c) (from_ : BlockId) (pc : UInt64) (to_ : BlockId) :
    Coherent (c.link from_ pc to_) ∧ Cleared c (c.link from_ pc to_) fun _ => False := by
  unfold link
  rcases hto : c.slot to_ with _ | t
  · exact ⟨hc, Cleared.none c⟩
  rcases hfrom : c.slot from_ with _ | s
  · exact ⟨hc, Cleared.none c⟩
  simp only
  rcases chooseExit s.exits pc to_ (List.finRange exitCount) none with _ | i | _
  · exact ⟨hc, Cleared.none c⟩
  · obtain ⟨ht, hstamp⟩ := slot_eq_some.mp hto
    obtain ⟨hs, -⟩ := slot_eq_some.mp hfrom
    have hpeek := patch_peek hc.core.linked hc.core.below hs i pc to_
    have hlength : (patch c.slots from_.slot i (s.exits i) pc to_).length = c.slots.length := by
      rw [patch, edit_length]
      split
      · rw [dropBackEdge_length, edit_length]
      · rw [edit_length]
    exact hc.relink (patch_linked hc.core.linked hs ht hstamp hpeek) hpeek (fun _ _ => rfl)
      (fun _ _ => rfl) hlength rfl rfl
  · exact ⟨hc, Cleared.none c⟩

theorem follow_spec (hc : Coherent c) (from_ : BlockId) (pc key : UInt64) :
    Coherent (c.follow from_ pc key).2 ∧
      Cleared c (c.follow from_ pc key).2 (fun _ => False) ∧
      ∀ id, (c.follow from_ pc key).1 = some id → c.find pc key = some id := by
  unfold follow
  rcases hfrom : c.slot from_ with _ | s
  · exact ⟨hc, Cleared.none c, fun id h => absurd h (by simp)⟩
  simp only
  rcases hexit : exitAt s pc with _ | i
  · exact ⟨hc, Cleared.none c, fun id h => absurd h (by simp)⟩
  simp only
  have htarget : (s.exits i).target ≠ noSlot := by
    have := List.find?_some hexit
    simp only [decide_eq_true_eq] at this
    exact this.1
  -- the exit is patched, so its target is live under the link's stamp
  obtain ⟨t, ht, hstamp, -⟩ := hc.core.linked.exit i (slot_eq_some.mp hfrom).1 htarget
  have hlive : c.slot ⟨(s.exits i).target, (s.exits i).stamp⟩ = some t :=
    slot_eq_some.mpr ⟨ht, hstamp⟩
  rw [hlive]
  simp only
  by_cases hkey : t.pc ≠ pc ∨ t.key ≠ key
  · rw [if_pos hkey]
    exact ⟨hc, Cleared.none c, fun id h => absurd h (by simp)⟩
  · rw [if_neg hkey]
    refine ⟨hc.ofStats rfl, (Cleared.none c).ofStats rfl, fun id h => ?_⟩
    obtain rfl := Option.some.inj h
    obtain ⟨hpc, hkey⟩ := not_or.mp hkey
    exact (find_eq_some hc.core).mpr
      ⟨t.entry, entry_eq_some.mpr ⟨t, ht, rfl⟩, hstamp, not_not.mp hpc, not_not.mp hkey⟩

/-! ## Invalidation as a whole -/

theorem invalidate_spec (hc : Coherent c) (id : BlockId) :
    Coherent (c.invalidate id).2 ∧ Cleared c (c.invalidate id).2
      (fun i => i = id.slot ∧ ∃ e, c.entry i = some e ∧ e.stamp = id.stamp) := by
  unfold invalidate
  rcases hs : c.slot id with _ | s
  · rw [if_pos (by rfl)]
    refine ⟨hc, (Cleared.none c).congr fun i e he => iff_of_false not_false ?_⟩
    rintro ⟨rfl, f, hf, hstamp⟩
    obtain ⟨t, ht, rfl⟩ := entry_eq_some.mp hf
    exact slot_isNone.mp hs t ht hstamp
  · rw [if_neg (by simp)]
    obtain ⟨hpeek, hstamp⟩ := slot_eq_some.mp hs
    obtain ⟨hcore, hpaged, hcleared⟩ := remove_spec hc.core hc.paged id.slot
    refine ⟨⟨hcore, hpaged, hcleared.ordered hc.ordered⟩, hcleared.congr fun i e he => ?_⟩
    refine ⟨fun h => ⟨h, s.entry, ?_, hstamp⟩, fun h => h.1⟩
    rw [h]
    exact entry_eq_some.mpr ⟨s, hpeek, rfl⟩

theorem coherent_of_empty (hslots : c.slots = []) (hfree : c.free = [])
    (hmask : c.bucketMask.toNat < c.buckets.length) (hbuckets : ∀ b, c.head b = noSlot)
    (hpages : c.pages = SortedMap.empty) (hcapacity : 1 ≤ c.capacity)
    (hfilter : 0 < c.filter.length) (hstale : c.stats.staleLinks = 0) : Coherent c := by
  have hpeek : ∀ i, peek c.slots i = none := fun i => by rw [hslots, peek_nil]
  have hentry : ∀ i e, c.entry i ≠ some e := fun i e h => by
    rw [entry, hpeek] at h
    cases h
  have hnone : ∀ i {P : Entry β → Prop}, ¬ ∃ e, c.entry i = some e ∧ P e := by
    intro i P h
    obtain ⟨e, he, -⟩ := h
    exact hentry i e he
  have hlist : ∀ p, c.pageList p = [] := fun p => by rw [pageList, hpages]; rfl
  refine ⟨?_, ⟨fun p => ?_, fun p i => ?_⟩, fun he => absurd he (hentry _ _)⟩
  · refine
      { linked := ⟨fun n h _ => ?_, fun h _ => ?_, fun h => ?_⟩
        masked := hmask
        chain := fun b _ => ⟨[], hbuckets b, List.nodup_nil, fun i => iff_of_false
          List.not_mem_nil (hnone i)⟩
        unique := fun he _ _ _ => absurd he (hentry _ _)
        free_nodup := hfree ▸ List.nodup_nil
        mem_free := fun i => by rw [hfree, hslots]; simp
        below := by rw [hslots]; exact Nat.zero_le _
        fits := by rw [hslots]; exact Nat.zero_le _
        room := hcapacity
        filtered := fun he => absurd he (hentry _ _)
        wide := hfilter
        aligned := fun he => absurd he (hentry _ _)
        belt := hstale }
    all_goals
      rw [hpeek] at h
      cases h
  · rw [hlist]
    exact List.nodup_nil
  · rw [hlist]
    exact iff_of_false List.not_mem_nil (hnone i)

theorem getD_noSlot (n b : Nat) : (List.replicate n noSlot).getD b noSlot = noSlot := by
  rw [List.getD_eq_getElem?_getD, List.getElem?_replicate]
  split <;> rfl

theorem withCapacity_spec (capacity : Nat) : Coherent (withCapacity β capacity) := by
  have hpos : 0 < (max capacity 1).nextPowerOfTwo := Nat.pos_of_isPowerOfTwo
    (Nat.isPowerOfTwo_nextPowerOfTwo _)
  refine coherent_of_empty rfl rfl ?_ (fun b => ?_) rfl (Nat.le_max_right ..) ?_ rfl
  · simp only [withCapacity, List.length_replicate]
    exact lt_of_le_of_lt (Nat.mod_le ..) (by omega)
  · exact getD_noSlot _ b
  · simp only [withCapacity, List.length_replicate]
    omega

theorem flush_spec (hc : Coherent c) : Coherent c.flush ∧ ∀ i, c.flush.entry i = none := by
  refine ⟨coherent_of_empty rfl rfl ?_ (fun b => ?_) rfl hc.core.room ?_ hc.core.belt,
    fun i => rfl⟩
  · simp only [flush, List.length_replicate]
    exact hc.core.masked
  · exact getD_noSlot _ b
  · simp only [flush, List.length_replicate]
    exact hc.core.wide

theorem sync_spec (hc : Coherent c) (epoch : Epoch) :
    Coherent (c.sync epoch).2 ∧
      ∀ i, (c.sync epoch).2.entry i =
        if epoch.topology = c.epoch.topology then c.entry i else none := by
  have hcd : Coherent { c with epoch } :=
    ⟨hc.core.congr rfl rfl rfl rfl rfl rfl rfl, hc.paged.congr rfl rfl, hc.ordered⟩
  unfold sync
  by_cases h : epoch.topology = c.epoch.topology
  · simp only [h, bne_self_eq_false, Bool.false_eq_true, if_false, if_true]
    exact ⟨hcd, fun i => rfl⟩
  · have hne : (epoch.topology != c.epoch.topology) = true := by simpa using h
    simp only [hne, if_true, if_neg h]
    exact flush_spec hcd

end Rsemu.Jit.BlockCache
