import Rsemu.Virtio.Walk

/-!
# When an address does not fit

The ring addresses are whatever the driver wrote into the registers, and a descriptor's
address is whatever it wrote into memory, so any of the sums that lead from these to an access
may go past 64 bits. For each of the functions that add them this says which rings, tables and
buffers keep every sum in bounds, whatever entry, index or position is asked for.
-/

namespace Rsemu.Virtio

/-- No sum went past 64 bits. -/
def Fits {α : Type} (r : Except Fault α) : Prop := r ≠ .error .overflow

section Steps

variable {α γ : Type}

@[simp]
theorem fits_ok (a : α) : Fits (.ok a : Except Fault α) := by
  intro h
  cases h

@[simp]
theorem fits_bus : Fits (.error .bus : Except Fault α) := by
  intro h
  cases h

@[simp]
theorem fits_add64 {a b : Nat} : Fits (add64 a b) ↔ a + b < 2 ^ 64 := by
  unfold add64
  by_cases h : a + b < 2 ^ 64
  · rw [if_pos h]
    exact iff_of_true (fits_ok _) h
  · rw [if_neg h]
    exact iff_of_false (fun hfit => hfit rfl) h

theorem fits_add64_bind {a b : Nat} {f : Nat → Except Fault α} :
    Fits (add64 a b >>= f) ↔ a + b < 2 ^ 64 ∧ Fits (f (a + b)) := by
  unfold add64
  by_cases h : a + b < 2 ^ 64
  · rw [if_pos h]
    exact (and_iff_right h).symm
  · rw [if_neg h]
    exact iff_of_false (fun hfit => hfit rfl) fun hfit => h hfit.1

theorem fits_load_bind {mem : Reads} {addr bytes : Nat} {f : Nat → Except Fault α} :
    Fits (mem.load addr bytes >>= f) ↔ ∀ value, mem addr bytes = some value → Fits (f value) := by
  unfold Reads.load
  rcases mem addr bytes with _ | value
  · exact iff_of_true fits_bus (by simp)
  · simp only [Option.some.injEq, forall_eq']
    exact Iff.rfl

@[simp]
theorem fits_load {mem : Reads} {addr bytes : Nat} : Fits (mem.load addr bytes) := by
  unfold Reads.load
  rcases mem addr bytes with _ | value
  · exact fits_bus
  · exact fits_ok value

end Steps

variable {mem : Reads}

/-- A descriptor at `at_` that can be read field by field: its fields lie below 2^64, but for
those behind one that the bus refuses. -/
structure Clear (mem : Reads) (at_ : Nat) : Prop where
  addr : at_ < 2 ^ 64
  len : 2 ^ 64 ≤ at_ + 8 → mem at_ 8 = none
  flags : 2 ^ 64 ≤ at_ + 12 → mem at_ 8 = none ∨ mem (at_ + 8) 4 = none
  next : 2 ^ 64 ≤ at_ + 14 → mem at_ 8 = none ∨ mem (at_ + 8) 4 = none ∨ mem (at_ + 12) 2 = none

theorem fits_readDescriptor {at_ : Nat} (hat : at_ < 2 ^ 64) :
    Fits (readDescriptor mem at_) ↔ Clear mem at_ := by
  unfold readDescriptor
  simp only [fits_load_bind, fits_add64_bind]
  constructor
  · intro h
    -- each sum is reached when the fields before it can be read
    refine ⟨hat, fun hlen => ?_, fun hflags => ?_, fun hnext => ?_⟩
    · rcases h1 : mem at_ 8 with _ | addr
      · rfl
      · have := (h addr h1).1
        omega
    · rcases h1 : mem at_ 8 with _ | addr
      · exact .inl rfl
      · rcases h2 : mem (at_ + 8) 4 with _ | len
        · exact .inr rfl
        · have := ((h addr h1).2 len h2).1
          omega
    · rcases h1 : mem at_ 8 with _ | addr
      · exact .inl rfl
      · rcases h2 : mem (at_ + 8) 4 with _ | len
        · exact .inr (.inl rfl)
        · rcases h3 : mem (at_ + 12) 2 with _ | flags
          · exact .inr (.inr rfl)
          · have := (((h addr h1).2 len h2).2 flags h3).1
            omega
  · intro h addr h1
    have hlen : at_ + 8 < 2 ^ 64 := Nat.lt_of_not_le fun hle => by simp [h.len hle] at h1
    refine ⟨hlen, fun len h2 => ?_⟩
    have hflags : at_ + 12 < 2 ^ 64 := Nat.lt_of_not_le fun hle => by
      rcases h.flags hle with hno | hno
      · simp [hno] at h1
      · simp [hno] at h2
    refine ⟨hflags, fun flags h3 => ?_⟩
    have hnext : at_ + 14 < 2 ^ 64 := Nat.lt_of_not_le fun hle => by
      rcases h.next hle with hno | hno | hno
      · simp [hno] at h1
      · simp [hno] at h2
      · simp [hno] at h3
    exact ⟨hnext, fun _ _ => fits_ok _⟩

theorem fits_tableEntry {base index : Nat} :
    Fits (tableEntry mem base index) ↔ Clear mem (base + index * descSize) := by
  unfold tableEntry
  rw [fits_add64_bind]
  constructor
  · intro ⟨hat, h⟩
    exact (fits_readDescriptor hat).mp h
  · intro h
    exact ⟨h.addr, (fits_readDescriptor h.addr).mpr h⟩

theorem fits_descriptor {layout : Layout} {index : Nat} :
    Fits (descriptor mem layout index) ↔
      (index < layout.size → Clear mem (layout.desc + index * descSize)) := by
  unfold descriptor
  by_cases h : layout.size ≤ index
  · rw [if_pos h]
    exact iff_of_true (fits_ok _) fun hlt => absurd hlt (Nat.not_lt.mpr h)
  · rw [if_neg h, fits_add64_bind]
    have hread : ∀ at_, Fits (do return some (← readDescriptor mem at_)) ↔
        Fits (readDescriptor mem at_) := by
      intro at_
      rcases readDescriptor mem at_ with e | desc
      · exact ⟨fun hfit he => hfit (congrArg _ (Except.error.inj he)),
          fun hfit he => hfit (congrArg _ (Except.error.inj he))⟩
      · exact iff_of_true (fits_ok _) (fits_ok _)
    rw [hread]
    constructor
    · intro ⟨hat, hfit⟩ _
      exact (fits_readDescriptor hat).mp hfit
    · intro hclear
      have hclear := hclear (Nat.lt_of_not_le h)
      exact ⟨hclear.addr, (fits_readDescriptor hclear.addr).mpr hclear⟩

theorem fits_walkIndirect {desc : Descriptor} :
    (walkIndirect mem desc).fault ≠ some .overflow ↔
      ∀ n j, desc.Leads mem n j → Clear mem (desc.addr + j * descSize) := by
  unfold walkIndirect Descriptor.Leads Descriptor.count
  simp only [ne_eq, walkTable_fault_eq, not_exists, not_and, and_imp]
  refine forall₂_congr fun n j => forall₂_congr fun _ _ => ?_
  exact fits_tableEntry

theorem ringLen_lt (layout : Layout) : layout.ringLen < 2 ^ 16 := by
  unfold Layout.ringLen
  omega

theorem fits_availHead {layout : Layout} {n : Nat} :
    Fits (availHead mem layout n) ↔ layout.avail + 4 + n % layout.ringLen * 2 < 2 ^ 64 := by
  unfold availHead
  simp only [fits_add64_bind, fits_load, and_true]
  omega

theorem fits_avail {layout : Layout} :
    (Fits (availIdx mem layout) ∧ ∀ n < 2 ^ 16, Fits (availHead mem layout n)) ↔
      layout.avail + 4 + (layout.ringLen - 1) * 2 < 2 ^ 64 := by
  have hpos := ringLen_pos layout
  have hlt := ringLen_lt layout
  unfold availIdx
  simp only [fits_add64_bind, fits_load, and_true, fits_availHead]
  constructor
  · intro ⟨_, h⟩
    have hlast := h (layout.ringLen - 1) (by omega)
    rwa [Nat.mod_eq_of_lt (Nat.sub_one_lt_of_lt hpos)] at hlast
  · intro h
    refine ⟨by omega, fun n _ => ?_⟩
    have := Nat.mod_lt n hpos
    omega

section Used

variable {σ α : Type}

variable {s : σ} {ds : List Descriptor}

theorem fits_ofExcept_bind {r : Except Fault Nat} {f : Nat → Dma σ α} :
    Fits ((Dma.ofExcept r >>= f) s).1 ↔ Fits r ∧ ∀ a, r = .ok a → Fits (f a s).1 := by
  rcases r with e | a
  · exact ⟨fun h => ⟨fun he => h (congrArg _ (Except.error.inj he)), fun a ha => by simp at ha⟩,
      fun h he => h.1 (congrArg _ (Except.error.inj he))⟩
  · refine ⟨fun h => ⟨fits_ok a, fun b hb => ?_⟩, fun h => h.2 a rfl⟩
    obtain rfl := Except.ok.inj hb
    exact h

theorem fits_store_bind {write : σ → Bool × σ} {f : Unit → Dma σ α} :
    Fits ((Dma.store write >>= f) s).1 ↔ ((write s).1 = true → Fits (f () (write s).2).1) := by
  rcases hwrite : write s with ⟨_ | _, t⟩
  · have hstop : ((Dma.store write >>= f) s).1 = .error .bus := by
      simp [bind, Dma.store, hwrite]
    rw [hstop]
    exact iff_of_true fits_bus (by simp)
  · have hgo : (Dma.store write >>= f) s = f () t := by
      simp [bind, Dma.store, hwrite]
    rw [hgo]
    simp

theorem fits_pure {a : α} : Fits ((pure a : Dma σ α) s).1 := fits_ok a

theorem fits_publish {g : Guest σ} {layout : Layout} {usedIdx head written : Nat} :
    Fits (publish g layout usedIdx head written s).1 ↔
      layout.used + 4 + usedIdx % layout.ringLen * 8 < 2 ^ 64 ∧
      (2 ^ 64 ≤ layout.used + 8 + usedIdx % layout.ringLen * 8 →
        (g.write (layout.used + 4 + usedIdx % layout.ringLen * 8) 4 head s).1 = false) := by
  unfold publish
  simp only [fits_ofExcept_bind, fits_store_bind, fits_add64_bind, fits_add64, fits_pure,
    implies_true, and_true]
  obtain ⟨at_, hat⟩ : ∃ at_, at_ = layout.used + 4 + usedIdx % layout.ringLen * 8 := ⟨_, rfl⟩
  rw [← hat]
  constructor
  · intro ⟨⟨_, hfit⟩, h⟩
    refine ⟨hfit, fun htop => ?_⟩
    rcases hwrite : (g.write at_ 4 head s).1 with _ | _
    · rfl
    · have hsum : (do add64 (← add64 layout.used 4) (usedIdx % layout.ringLen * 8)) =
          .ok at_ := by
        have h4 : layout.used + 4 < 2 ^ 64 := by omega
        have hfit' : layout.used + 4 + usedIdx % layout.ringLen * 8 < 2 ^ 64 := by omega
        rw [add64_of_lt h4]
        exact (add64_of_lt hfit').trans (by rw [hat])
      have := ((h at_ hsum) hwrite).1
      omega
  · intro ⟨hfit, htop⟩
    refine ⟨⟨by omega, hfit⟩, fun a ha hwrite => ?_⟩
    have ha' : a = at_ := by
      unfold add64 at ha
      rw [if_pos (by omega)] at ha
      have := add64_ok ha
      omega
    subst ha'
    refine ⟨Nat.lt_of_not_le fun hle => ?_, fun _ _ _ => by omega⟩
    rw [htop (by omega)] at hwrite
    cases hwrite

/-- A used ring that takes an entry in any slot: the slots lie below 2^64, and where only the
first half of one does, the bus refuses it. -/
def UsedClear (g : Guest σ) (s : σ) (layout : Layout) : Prop :=
  ∀ slot < layout.ringLen, layout.used + 4 + slot * 8 < 2 ^ 64 ∧
    (2 ^ 64 ≤ layout.used + 8 + slot * 8 →
      ∀ head < 2 ^ 16, (g.write (layout.used + 4 + slot * 8) 4 head s).1 = false)

theorem fits_used {g : Guest σ} {layout : Layout} :
    (∀ usedIdx < 2 ^ 16, ∀ head < 2 ^ 16, ∀ written,
      Fits (publish g layout usedIdx head written s).1) ↔ UsedClear g s layout := by
  have hpos := ringLen_pos layout
  have hlt := ringLen_lt layout
  unfold UsedClear
  simp only [fits_publish]
  constructor
  · intro h slot hslot
    have hmod := Nat.mod_eq_of_lt hslot
    have hslot' : slot < 2 ^ 16 := hslot.trans hlt
    refine ⟨?_, fun htop head hhead => ?_⟩
    · have := (h slot hslot' 0 (by omega) 0).1
      rwa [hmod] at this
    · have := (h slot hslot' head hhead 0).2
      rw [hmod] at this
      exact this htop
  · intro h usedIdx _ head hhead _
    obtain ⟨hfit, htop⟩ := h (usedIdx % layout.ringLen) (Nat.mod_lt _ hpos)
    exact ⟨hfit, fun hle => htop hle head hhead⟩

/-- The buffer's last byte has a 64-bit address. -/
def Descriptor.Fits (d : Descriptor) : Prop := 0 < d.len → d.addr + (d.len - 1) < 2 ^ 64

variable {g : Guest σ}

theorem readBuffers_past {rest : List Descriptor} {skip want : Nat} (before : List Descriptor) :
    readBuffers g s (before ++ rest) ((before.map (·.len)).sum + skip) want =
      readBuffers g s rest skip want := by
  induction before with
  | nil => simp
  | cons d before ih =>
    rw [List.cons_append, readBuffers, if_pos (by simp; omega)]
    rw [← ih]
    congr 1
    simp
    omega

theorem writeBuffers_past {rest : List Descriptor} {skip : Nat} {src : List UInt8}
    (before : List Descriptor) :
    writeBuffers g (before ++ rest) ((before.map (·.len)).sum + skip) src =
      writeBuffers g rest skip src := by
  induction before with
  | nil => simp
  | cons d before ih =>
    rw [List.cons_append, writeBuffers, if_pos (by simp; omega)]
    rw [← ih]
    congr 1
    simp
    omega

theorem fits_readBuffers (skip want : Nat) (hds : ∀ d ∈ ds, d.Fits) :
    Fits (readBuffers g s ds skip want) := by
  induction ds generalizing skip want with
  | nil => exact fits_ok _
  | cons d ds ih =>
    have hd := hds d List.mem_cons_self
    have ih := fun skip want => ih skip want fun d hd => hds d (List.mem_cons_of_mem _ hd)
    unfold readBuffers
    by_cases hskip : d.len ≤ skip
    · rw [if_pos hskip]
      exact ih _ _
    · rw [if_neg hskip]
      dsimp only
      split
      · exact fits_ok _
      · rw [fits_add64_bind]
        refine ⟨by unfold Descriptor.Fits at hd; omega, ?_⟩
        split
        · exact fits_bus
        · split
          · exact fits_ok _
          · have hrest := ih 0 (want - min (d.len - skip) want)
            rcases hread : readBuffers g s ds 0 (want - min (d.len - skip) want) with e | part
            · rw [hread] at hrest
              exact fun he => hrest he
            · exact fits_ok _

theorem fits_readChain :
    (∀ skip want, Fits (readChain g s ds skip want)) ↔ ∀ d ∈ ds, d.isWrite = false → d.Fits := by
  constructor
  · intro h d hd hread hlen
    -- the position of the buffer's last byte
    have hmem : d ∈ ds.filter fun d => ¬ d.isWrite :=
      List.mem_filter.mpr ⟨hd, by simp [hread]⟩
    obtain ⟨before, rest, hsplit⟩ := List.append_of_mem hmem
    have hone := h ((before.map (·.len)).sum + (d.len - 1)) 1
    unfold readChain at hone
    rw [hsplit, readBuffers_past, readBuffers, if_neg (by omega)] at hone
    dsimp only at hone
    rw [if_neg (by omega), fits_add64_bind] at hone
    exact hone.1
  · intro h skip want
    refine fits_readBuffers skip want fun d hd => ?_
    obtain ⟨hmem, hread⟩ := List.mem_filter.mp hd
    exact h d hmem (by simpa using hread)

theorem fits_writeBuffers (skip : Nat) (src : List UInt8) (s : σ) (hds : ∀ d ∈ ds, d.Fits) :
    Fits (writeBuffers g ds skip src s).1 := by
  induction ds generalizing skip src s with
  | nil => exact fits_ok _
  | cons d ds ih =>
    have hd := hds d List.mem_cons_self
    have ih := fun skip src s => ih skip src s fun d hd => hds d (List.mem_cons_of_mem _ hd)
    unfold writeBuffers
    by_cases hskip : d.len ≤ skip
    · rw [if_pos hskip]
      exact ih _ _ _
    · rw [if_neg hskip]
      split
      · exact fits_pure
      · rw [fits_ofExcept_bind, fits_add64]
        refine ⟨by unfold Descriptor.Fits at hd; omega, fun at_ _ => ?_⟩
        rw [fits_store_bind]
        intro _
        split
        · exact fits_pure
        · obtain ⟨t, ht⟩ : ∃ t, t = (g.writeBytes at_
              (src.take (min (d.len - skip) src.length)) s).2 := ⟨_, rfl⟩
          rw [← ht]
          have hrest := ih 0 (src.drop (min (d.len - skip) src.length)) t
          simp only [bind]
          rcases hwrite : writeBuffers g ds 0 (src.drop (min (d.len - skip) src.length)) t with
            ⟨e | done, u⟩
          · rw [hwrite] at hrest
            exact fun he => hrest he
          · exact fits_pure

theorem fits_writeChain :
    (∀ skip src, Fits (writeChain g ds skip src s).1) ↔ ∀ d ∈ ds, d.isWrite = true → d.Fits := by
  constructor
  · intro h d hd hwrite hlen
    have hmem : d ∈ ds.filter (·.isWrite) := List.mem_filter.mpr ⟨hd, hwrite⟩
    obtain ⟨before, rest, hsplit⟩ := List.append_of_mem hmem
    have hone := h ((before.map (·.len)).sum + (d.len - 1)) [0]
    unfold writeChain at hone
    rw [hsplit, writeBuffers_past, writeBuffers, if_neg (by omega)] at hone
    rw [if_neg (by simp; omega), fits_ofExcept_bind, fits_add64] at hone
    exact hone.1
  · intro h skip src
    refine fits_writeBuffers skip src s fun d hd => ?_
    obtain ⟨hmem, hwrite⟩ := List.mem_filter.mp hd
    exact h d hmem hwrite

/-- **When no sum is too big.** Over whatever guest memory holds, each function on a queue
stays clear of sums past 64 bits exactly when

* the available ring's last slot has its address below 2^64;
* the used ring is clear in every slot;
* every descriptor of the table that an index leads to is clear;
* every entry that the links of an indirect table lead to is clear;
* every buffer read from, or written to, ends below 2^64. -/
theorem sums_fit_iff (g : Guest σ) (s : σ) (layout : Layout) :
    ((Fits (availIdx (g.read s) layout) ∧ ∀ n < 2 ^ 16, Fits (availHead (g.read s) layout n)) ↔
      layout.avail + 4 + (layout.ringLen - 1) * 2 < 2 ^ 64) ∧
    ((∀ usedIdx < 2 ^ 16, ∀ head < 2 ^ 16, ∀ written,
        Fits (publish g layout usedIdx head written s).1) ↔ UsedClear g s layout) ∧
    ((∀ index < 2 ^ 16, Fits (descriptor (g.read s) layout index)) ↔
      ∀ index < 2 ^ 16, index < layout.size →
        Clear (g.read s) (layout.desc + index * descSize)) ∧
    (∀ desc, (walkIndirect (g.read s) desc).fault ≠ some .overflow ↔
      ∀ n j, desc.Leads (g.read s) n j → Clear (g.read s) (desc.addr + j * descSize)) ∧
    (∀ ds, (∀ skip want, Fits (readChain g s ds skip want)) ↔
      ∀ d ∈ ds, d.isWrite = false → d.Fits) ∧
    ∀ ds, (∀ skip src, Fits (writeChain g ds skip src s).1) ↔
      ∀ d ∈ ds, d.isWrite = true → d.Fits := by
  refine ⟨fits_avail, fits_used, ?_, fun desc => fits_walkIndirect, fun ds => fits_readChain,
    fun ds => fits_writeChain⟩
  exact forall₂_congr fun index _ => fits_descriptor

end Used

/-- A queue whose available ring the driver placed on the last byte there is: it is live, and
the sum that leads to the ring's index is 2^64 + 1. -/
theorem avail_at_top_overflows :
    (Layout.mk 256 4096 (2 ^ 64 - 1) 8192 true).isLive = true ∧
      ∀ mem, availIdx mem ⟨256, 4096, 2 ^ 64 - 1, 8192, true⟩ = .error .overflow := by
  refine ⟨by decide, fun mem => ?_⟩
  rfl

end Rsemu.Virtio
