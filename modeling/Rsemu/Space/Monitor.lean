import Mathlib.Data.List.Pairwise
import Rsemu.Base.Bitmap
import Rsemu.Base.Word

/-!
# The exclusive monitor

A space keeps one table of reservations for all its cores. A core registers once and
gets a slot; a reservation is the slot's flag and a word that packs the base of the
reserved granule with its width, in the low bits that the alignment leaves free. A store
walks the set flags, unpacks each word and clears the flags whose granule it touches.

What the table owes its callers (`monitor_covers`): no two registered cores have one
slot, the counter a store looks at first is the number of reservations, and a store
clears the reservations whose granule it writes to. The last holds except on two
kinds of store, each from one comparison with an end that is not one past the range: a
store of no bytes whose address lies past a granule's first byte, and a store to the last
byte of the address space (`Missed`).
-/

namespace Rsemu.Space

open Word Bitmap

def monitorSlots : Nat := 256

def words : Nat := monitorSlots / 64

def minGranuleShift : Nat := 3
def maxGranuleShift : Nat := 10

/-- One participant's registration: its slot, and its granule as a shift. -/
structure MonitorId where
  slot : Nat
  shift : Nat
  deriving DecidableEq

/-- The reservation table. -/
structure ExclusiveMonitor where
  /-- How many flags are set across `live`. -/
  outstanding : Nat
  live : Flags
  claimed : Flags
  /-- The reserved granule per slot, packed; meaningful while its flag is set. -/
  slots : Nat → BitVec 64

def lowMask (shift : Nat) : BitVec 64 := 1#64 <<< shift - 1#64

def pack (addr : BitVec 64) (shift : Nat) : BitVec 64 :=
  (addr &&& ~~~(lowMask shift)) ||| BitVec.ofNat 64 (shift - minGranuleShift)

def unpackShift (packed : BitVec 64) : Nat := (packed &&& 7#64).toNat + minGranuleShift

def unpackBase (packed : BitVec 64) : Nat := (packed &&& ~~~(lowMask (unpackShift packed))).toNat

namespace ExclusiveMonitor

def new : ExclusiveMonitor := ⟨0, fun _ => 0#64, fun _ => 0#64, fun _ => 0#64⟩

def holds (m : ExclusiveMonitor) (id : MonitorId) : Bool := test m.live id.slot

def clear (m : ExclusiveMonitor) (id : MonitorId) : ExclusiveMonitor :=
  { m with
    live := erase m.live id.slot
    outstanding := if test m.live id.slot then wrappingSub 64 m.outstanding 1 else m.outstanding }

/-- Claim a slot for a granule of `1 << shift` bytes; `none` when every slot is taken. -/
def register (m : ExclusiveMonitor) (shift : Nat) :
    Except String (ExclusiveMonitor × Option MonitorId) :=
  if minGranuleShift ≤ shift ∧ shift ≤ maxGranuleShift then
    match firstClear m.claimed words with
    | none => .ok (m, none)
    | some slot =>
      .ok (({ m with claimed := insert m.claimed slot } : ExclusiveMonitor).clear ⟨slot, shift⟩,
        some ⟨slot, shift⟩)
  else
    .error ("a reservation granule of 2^" ++ toString shift
      ++ " bytes does not fit a monitor slot")

def release (m : ExclusiveMonitor) (id : MonitorId) : ExclusiveMonitor :=
  { m.clear id with claimed := erase m.claimed id.slot }

def reserve (m : ExclusiveMonitor) (id : MonitorId) (addr : BitVec 64) : ExclusiveMonitor :=
  let m := m.clear id
  { m with
    slots := Function.update m.slots id.slot (pack addr id.shift)
    live := insert m.live id.slot
    outstanding := if test m.live id.slot then m.outstanding else wrappingAdd 64 m.outstanding 1 }

def covered (addr stop : Nat) (packed : BitVec 64) : Bool :=
  addr < saturatingAdd 64 (unpackBase packed) (1 <<< unpackShift packed)
    && unpackBase packed < stop

def visit (addr stop word bit : Nat) (m : ExclusiveMonitor) : ExclusiveMonitor :=
  let index := word * 64 + bit
  if covered addr stop (m.slots index) then m.clear ⟨index, unpackShift (m.slots index)⟩ else m

def breakCovering (m : ExclusiveMonitor) (addr bytes : Nat) : ExclusiveMonitor :=
  let stop := saturatingAdd 64 addr bytes
  (List.range words).foldl (fun m word => walk (visit addr stop word) 64 (m.live word) m) m

def noteStore (m : ExclusiveMonitor) (addr bytes : Nat) : ExclusiveMonitor :=
  if m.outstanding = 0 then m else m.breakCovering addr bytes

end ExclusiveMonitor

section Pack

variable {a : BitVec 64} {s : Nat}

theorem lowMask_toNat (hs : s < 64) : (lowMask s).toNat = 2 ^ s - 1 := by
  have hlt : 2 ^ s < 2 ^ 64 := Nat.pow_lt_pow_right (by decide) hs
  have hshift : (1#64 <<< s).toNat = 2 ^ s := by
    rw [BitVec.toNat_shiftLeft, BitVec.toNat_ofNat, Nat.shiftLeft_eq]
    have : 1 % 2 ^ 64 = 1 := rfl
    rw [this, Nat.one_mul, Nat.mod_eq_of_lt hlt]
  have hone : (1#64).toNat ≤ (1#64 <<< s).toNat := by
    rw [hshift]
    exact Nat.two_pow_pos s
  unfold lowMask
  rw [BitVec.toNat_sub_of_le hone, hshift]
  rfl

theorem and_not_lowMask (hs : s < 64) : (a &&& ~~~(lowMask s)).toNat = a.toNat / 2 ^ s * 2 ^ s := by
  refine Nat.eq_of_testBit_eq fun k => ?_
  have hleft : (a &&& ~~~(lowMask s)).toNat.testBit k = (a &&& ~~~(lowMask s)).getLsbD k := rfl
  have hmask : (lowMask s).getLsbD k = decide (k < s) := by
    change (lowMask s).toNat.testBit k = _
    rw [lowMask_toNat hs, Nat.testBit_two_pow_sub_one]
  rw [hleft, BitVec.getLsbD_and, BitVec.getLsbD_not, hmask, Nat.testBit_mul_two_pow,
    Nat.testBit_div_two_pow]
  by_cases hk : k < 64
  · by_cases hks : k < s
    · simp [hks, Nat.not_le.mpr hks]
    · have hle : s ≤ k := Nat.le_of_not_lt hks
      simp [hk, hks, hle, Nat.sub_add_cancel hle, BitVec.getLsbD]
  · have hge : a.toNat.testBit k = false := BitVec.getLsbD_of_ge a k (Nat.le_of_not_lt hk)
    have hle : s ≤ k := by omega
    simp [hk, hle, Nat.sub_add_cancel hle, hge]

theorem pack_toNat (hlo : minGranuleShift ≤ s) (hhi : s ≤ maxGranuleShift) :
    (pack a s).toNat = a.toNat / 2 ^ s * 2 ^ s + (s - minGranuleShift) := by
  unfold minGranuleShift maxGranuleShift at *
  have hcode : (BitVec.ofNat 64 (s - 3)).toNat = s - 3 := by
    exact Nat.mod_eq_of_lt (by omega)
  have hlt : s - 3 < 2 ^ s := Nat.lt_of_le_of_lt (Nat.sub_le s 3) Nat.lt_two_pow_self
  unfold pack minGranuleShift
  rw [BitVec.toNat_or, and_not_lowMask (by omega), hcode, Nat.mul_comm,
    ← Nat.two_pow_add_eq_or_of_lt hlt]

theorem unpackShift_pack (hlo : minGranuleShift ≤ s) (hhi : s ≤ maxGranuleShift) :
    unpackShift (pack a s) = s := by
  have hp := pack_toNat (a := a) hlo hhi
  unfold unpackShift
  rw [BitVec.toNat_and]
  have h7 : (7#64).toNat = 2 ^ 3 - 1 := rfl
  rw [h7, Nat.and_two_pow_sub_one_eq_mod, hp]
  unfold minGranuleShift maxGranuleShift at *
  obtain ⟨k, rfl⟩ : ∃ k, s = 3 + k := ⟨s - 3, by omega⟩
  have hdvd : a.toNat / 2 ^ (3 + k) * 2 ^ (3 + k) = 2 ^ 3 * (a.toNat / 2 ^ (3 + k) * 2 ^ k) := by
    ring
  omega

theorem unpackBase_pack (hlo : minGranuleShift ≤ s) (hhi : s ≤ maxGranuleShift) :
    unpackBase (pack a s) = a.toNat / 2 ^ s * 2 ^ s := by
  have hp := pack_toNat (a := a) hlo hhi
  unfold unpackBase
  rw [unpackShift_pack hlo hhi]
  unfold minGranuleShift maxGranuleShift at *
  rw [and_not_lowMask (by omega), hp]
  have hlt : s - 3 < 2 ^ s := Nat.lt_of_le_of_lt (Nat.sub_le s 3) Nat.lt_two_pow_self
  rw [Nat.add_comm, Nat.add_mul_div_right _ _ (Nat.two_pow_pos s), Nat.div_eq_of_lt hlt,
    Nat.zero_add]

end Pack

namespace ExclusiveMonitor

/-- The count kept is that of the live reservations. -/
def Counted (m : ExclusiveMonitor) : Prop := m.outstanding = count m.live monitorSlots

section Clear

variable {m : ExclusiveMonitor} {id : MonitorId} {i : Nat}

theorem count_le (b : Flags) : count b monitorSlots ≤ monitorSlots := by
  exact Nat.le_trans (Finset.card_filter_le _ _) (Nat.le_of_eq (Finset.card_range _))

theorem clear_live : test (m.clear id).live i = (test m.live i && !decide (i = id.slot)) :=
  test_erase

theorem Counted.clear (h : m.Counted) (hid : id.slot < monitorSlots) : (m.clear id).Counted := by
  have hle := count_le m.live
  unfold Counted ExclusiveMonitor.clear at *
  dsimp only
  cases hset : test m.live id.slot with
  | true =>
    have hcount := count_erase hid hset
    unfold monitorSlots at *
    rw [if_pos rfl, h, wrappingSub_of_le (by omega) (by omega)]
    omega
  | false =>
    rw [if_neg Bool.false_ne_true, h]
    refine (count_congr fun i => ?_).symm
    rw [test_erase]
    by_cases he : i = id.slot
    · subst he
      rw [hset]
      rfl
    · simp [he]

theorem Counted.reserve (h : m.Counted) (hid : id.slot < monitorSlots) (addr : BitVec 64) :
    (m.reserve id addr).Counted := by
  have hclear := h.clear hid
  have hoff : test (m.clear id).live id.slot = false := by
    rw [clear_live]
    simp
  have hcount := count_insert hid hoff
  have hle := count_le (insert (m.clear id).live id.slot)
  unfold Counted at hclear ⊢
  unfold ExclusiveMonitor.reserve
  dsimp only
  rw [hoff, if_neg Bool.false_ne_true, hclear, hcount]
  refine wrappingAdd_of_lt ?_
  unfold monitorSlots at *
  omega

end Clear

/-- What a sweep did: it took away the flags that were hit, and touched nothing else. -/
structure Swept (m m' : ExclusiveMonitor) (hit : Nat → Prop) : Prop where
  claimed : m'.claimed = m.claimed
  slots : m'.slots = m.slots
  counted : m.Counted → m'.Counted
  live : ∀ i, test m'.live i = true ↔ test m.live i = true ∧ ¬ hit i

section Swept

variable {m m' m'' : ExclusiveMonitor} {hit hit' : Nat → Prop}

theorem Swept.refl (m : ExclusiveMonitor) : Swept m m fun _ => False :=
  ⟨rfl, rfl, fun h => h, fun i => by simp⟩

theorem Swept.trans (h : Swept m m' hit) (h' : Swept m' m'' hit') :
    Swept m m'' fun i => hit i ∨ hit' i := by
  refine ⟨h'.claimed.trans h.claimed, h'.slots.trans h.slots, fun hc => h'.counted (h.counted hc),
    fun i => ?_⟩
  rw [h'.live, h.live]
  tauto

theorem Swept.congr (h : Swept m m' hit) (hiff : ∀ i, test m.live i = true → (hit i ↔ hit' i)) :
    Swept m m' hit' := by
  refine ⟨h.claimed, h.slots, h.counted, fun i => ?_⟩
  rw [h.live]
  constructor
  · rintro ⟨hi, hn⟩
    exact ⟨hi, fun hh => hn ((hiff i hi).mpr hh)⟩
  · rintro ⟨hi, hn⟩
    exact ⟨hi, fun hh => hn ((hiff i hi).mp hh)⟩

theorem swept_visit (m : ExclusiveMonitor) (addr stop : Nat) {word bit : Nat} (hw : word < words)
    (hb : bit < 64) : Swept m (visit addr stop word bit m)
      fun i => i = word * 64 + bit ∧ covered addr stop (m.slots i) = true := by
  unfold visit
  dsimp only
  have hslot : word * 64 + bit < monitorSlots := by
    unfold words monitorSlots at *
    omega
  split
  · rename_i hcov
    refine ⟨rfl, rfl, fun hc => hc.clear hslot, fun i => ?_⟩
    rw [clear_live]
    simp only [Bool.and_eq_true, Bool.not_eq_true', decide_eq_false_iff_not]
    constructor
    · rintro ⟨hi, hne⟩
      exact ⟨hi, fun hh => hne hh.1⟩
    · rintro ⟨hi, hn⟩
      refine ⟨hi, ?_⟩
      rintro rfl
      exact hn ⟨rfl, hcov⟩
  · rename_i hcov
    refine (Swept.refl m).congr fun i _ => ⟨False.elim, ?_⟩
    rintro ⟨rfl, hc⟩
    exact hcov hc

theorem swept_word (m : ExclusiveMonitor) (addr stop : Nat) {word : Nat} (hw : word < words) :
    Swept m (walk (visit addr stop word) 64 (m.live word) m)
      fun i => i / 64 = word ∧ covered addr stop (m.slots i) = true := by
  obtain ⟨l, hl, hwalk⟩ := walk_eq (visit addr stop word) (m.live word) m
  have hbits : ∀ k ∈ l, k < 64 := by
    intro k hk
    by_contra hge
    have := (hl k).mp hk
    rw [BitVec.getLsbD_of_ge _ _ (Nat.le_of_not_lt hge)] at this
    cases this
  have hfold : ∀ (l : List Nat) (m : ExclusiveMonitor), (∀ k ∈ l, k < 64) →
      Swept m (l.foldl (fun m k => visit addr stop word k m) m)
        fun i => (∃ k ∈ l, i = word * 64 + k) ∧ covered addr stop (m.slots i) = true := by
    intro l
    induction l with
    | nil => intro m _; exact (Swept.refl m).congr fun i _ => by simp
    | cons k l ih =>
      intro m hlt
      have hfirst := swept_visit m addr stop hw (hlt k (List.mem_cons_self ..))
      have hrest := ih (visit addr stop word k m) fun k hk => hlt k (List.mem_cons_of_mem _ hk)
      refine (hfirst.trans hrest).congr fun i _ => ?_
      rw [hfirst.slots]
      simp only [List.mem_cons, exists_eq_or_imp]
      tauto
  rw [hwalk]
  refine (hfold l m hbits).congr fun i hi => ?_
  constructor
  · rintro ⟨⟨k, hk, rfl⟩, hc⟩
    have := hbits k hk
    exact ⟨by omega, hc⟩
  · rintro ⟨rfl, hc⟩
    refine ⟨⟨i % 64, (hl _).mpr ?_, by omega⟩, hc⟩
    rw [← test_eq]
    exact hi

theorem swept_words (m : ExclusiveMonitor) (addr stop : Nat) : ∀ n, n ≤ words →
    Swept m ((List.range n).foldl
        (fun m word => walk (visit addr stop word) 64 (m.live word) m) m)
      fun i => i / 64 < n ∧ covered addr stop (m.slots i) = true
  | 0, _ => (Swept.refl m).congr fun i _ => by simp
  | n + 1, hn => by
    have ih := swept_words m addr stop n (Nat.le_of_succ_le hn)
    have hword := swept_word ((List.range n).foldl
      (fun m word => walk (visit addr stop word) 64 (m.live word) m) m) addr stop hn
    rw [List.range_succ, List.foldl_append, List.foldl_cons, List.foldl_nil]
    refine (ih.trans hword).congr fun i _ => ?_
    rw [ih.slots]
    constructor
    · rintro (⟨hlt, hc⟩ | ⟨heq, hc⟩)
      · exact ⟨by omega, hc⟩
      · exact ⟨by omega, hc⟩
    · rintro ⟨hlt, hc⟩
      rcases Nat.lt_or_eq_of_le (Nat.le_of_lt_succ hlt) with h | h
      · exact Or.inl ⟨h, hc⟩
      · exact Or.inr ⟨h, hc⟩

theorem swept_noteStore (hcount : m.Counted) (addr bytes : Nat) :
    Swept m (m.noteStore addr bytes) fun i => i < monitorSlots
      ∧ covered addr (saturatingAdd 64 addr bytes) (m.slots i) = true := by
  unfold noteStore
  split
  · rename_i hzero
    -- nothing is set, so there is nothing to hit
    refine (Swept.refl m).congr fun i hi => ⟨False.elim, fun hh => ?_⟩
    have hpos := count_pos hh.1 hi
    rw [← hcount, hzero] at hpos
    exact absurd hpos (Nat.lt_irrefl 0)
  · refine (swept_words m addr (saturatingAdd 64 addr bytes) words (Nat.le_refl _)).congr
      fun i _ => ?_
    have hiff : i / 64 < words ↔ i < monitorSlots := by
      unfold words monitorSlots
      omega
    rw [hiff]

end Swept

end ExclusiveMonitor

/-- The table, the registrations in use, and the address each slot last reserved. -/
structure Cores where
  monitor : ExclusiveMonitor
  ids : List MonitorId
  last : Nat → BitVec 64

namespace Cores

def new : Cores := ⟨.new, [], fun _ => 0#64⟩

/-- The operations on the table. -/
inductive Op where
  | register (shift : Nat)
  | reserve (id : MonitorId) (addr : BitVec 64)
  | clear (id : MonitorId)
  | release (id : MonitorId)
  | noteStore (addr bytes : UInt64)

/-- A call that is about a registration is about one in use; a granule fits a slot. -/
def Allows (w : Cores) : Op → Prop
  | .register shift => minGranuleShift ≤ shift ∧ shift ≤ maxGranuleShift
  | .reserve id _ => id ∈ w.ids
  | .clear id => id ∈ w.ids
  | .release id => id ∈ w.ids
  | .noteStore _ _ => True

instance (w : Cores) : (op : Op) → Decidable (w.Allows op)
  | .register _ => inferInstanceAs (Decidable (_ ∧ _))
  | .reserve id _ => inferInstanceAs (Decidable (id ∈ w.ids))
  | .clear id => inferInstanceAs (Decidable (id ∈ w.ids))
  | .release id => inferInstanceAs (Decidable (id ∈ w.ids))
  | .noteStore _ _ => inferInstanceAs (Decidable True)

/-- One call by one of the cores. -/
def step (w : Cores) : Op → Cores
  | .register shift =>
    match w.monitor.register shift with
    | .ok (m, some id) => ⟨m, id :: w.ids, w.last⟩
    | .ok (m, none) => { w with monitor := m }
    | .error _ => w
  | .reserve id addr =>
    ⟨w.monitor.reserve id addr, w.ids, Function.update w.last id.slot addr⟩
  | .clear id => { w with monitor := w.monitor.clear id }
  | .release id => { w with monitor := w.monitor.release id, ids := w.ids.erase id }
  | .noteStore addr bytes => { w with monitor := w.monitor.noteStore addr.toNat bytes.toNat }

/-- The runs of cores that use the slots they were given. -/
inductive Reached : Cores → Prop where
  | init : Reached new
  | step {w : Cores} (op : Op) : Reached w → w.Allows op → Reached (w.step op)

/-- **What the table is about**: every set flag is a registration's, and its word the packing
of the address that registration last reserved. -/
structure Inv (w : Cores) : Prop where
  apart : w.ids.Pairwise fun a b => a.slot ≠ b.slot
  range : ∀ id ∈ w.ids, id.slot < monitorSlots ∧ minGranuleShift ≤ id.shift
    ∧ id.shift ≤ maxGranuleShift
  claimed : ∀ id ∈ w.ids, test w.monitor.claimed id.slot = true
  owned : ∀ i, test w.monitor.live i = true → ∃ id ∈ w.ids, id.slot = i
    ∧ w.monitor.slots i = pack (w.last i) id.shift
  counted : w.monitor.Counted

theorem inv_new : Inv new where
  apart := List.Pairwise.nil
  range := by simp [new]
  claimed := by simp [new]
  owned := by
    intro i hi
    rw [test_eq] at hi
    simp [new, ExclusiveMonitor.new] at hi
  counted := by
    refine (Finset.card_eq_zero.mpr (Finset.filter_eq_empty_iff.mpr fun i _ => ?_)).symm
    rw [test_eq]
    simp [new, ExclusiveMonitor.new]

section Step

variable {w : Cores}

theorem Inv.slot_inj (h : Inv w) {a b : MonitorId} (ha : a ∈ w.ids) (hb : b ∈ w.ids)
    (hs : a.slot = b.slot) : a = b := by
  by_contra hne
  have : Std.Symm fun a b : MonitorId => a.slot ≠ b.slot := ⟨fun _ _ hab => hab.symm⟩
  exact h.apart.forall ha hb hne hs

theorem Inv.swept (h : Inv w) {m' : ExclusiveMonitor} {hit : Nat → Prop}
    (hs : ExclusiveMonitor.Swept w.monitor m' hit) : Inv { w with monitor := m' } := by
  refine ⟨h.apart, h.range, fun id hid => ?_, fun i hi => ?_, hs.counted h.counted⟩
  · exact hs.claimed ▸ h.claimed id hid
  · obtain ⟨id, hid, hslot, hpack⟩ := h.owned i ((hs.live i).mp hi).1
    exact ⟨id, hid, hslot, hs.slots ▸ hpack⟩

theorem swept_clear (w : Cores) {id : MonitorId} (hid : id.slot < monitorSlots) :
    ExclusiveMonitor.Swept w.monitor (w.monitor.clear id) fun i => i = id.slot := by
  refine ⟨rfl, rfl, fun hc => hc.clear hid, fun i => ?_⟩
  rw [ExclusiveMonitor.clear_live]
  simp

theorem Inv.register (h : Inv w) {shift : Nat}
    (hs : minGranuleShift ≤ shift ∧ shift ≤ maxGranuleShift) : Inv (w.step (.register shift)) := by
  cases hf : firstClear w.monitor.claimed words with
  | none =>
    have hreg : w.monitor.register shift = .ok (w.monitor, none) := by
      unfold ExclusiveMonitor.register
      rw [if_pos hs, hf]
    simp only [step, hreg]
    exact h
  | some slot =>
    have hreg : w.monitor.register shift = .ok
        (({ w.monitor with claimed := insert w.monitor.claimed slot } : ExclusiveMonitor).clear
          ⟨slot, shift⟩, some ⟨slot, shift⟩) := by
      unfold ExclusiveMonitor.register
      rw [if_pos hs, hf]
    simp only [step, hreg]
    obtain ⟨hlt, hfree⟩ := firstClear_some hf
    have hslot : slot < monitorSlots := hlt
    have hnew : ∀ id ∈ w.ids, slot ≠ id.slot := by
      rintro id hid rfl
      rw [h.claimed id hid] at hfree
      cases hfree
    refine ⟨List.pairwise_cons.mpr ⟨hnew, h.apart⟩, ?_, ?_, fun i hi => ?_, ?_⟩
    · intro id hid
      rcases List.mem_cons.mp hid with rfl | hid
      · exact ⟨hslot, hs⟩
      · exact h.range id hid
    · intro id hid
      change test (insert w.monitor.claimed slot) id.slot = true
      rw [test_insert]
      rcases List.mem_cons.mp hid with rfl | hid
      · simp
      · rw [h.claimed id hid]
        rfl
    · rw [ExclusiveMonitor.clear_live, Bool.and_eq_true] at hi
      obtain ⟨id, hid, hrest⟩ := h.owned i hi.1
      exact ⟨id, List.mem_cons_of_mem _ hid, hrest⟩
    · exact ExclusiveMonitor.Counted.clear
        (m := { w.monitor with claimed := insert w.monitor.claimed slot }) h.counted hslot

theorem Inv.reserve (h : Inv w) {id : MonitorId} (hid : id ∈ w.ids) (addr : BitVec 64) :
    Inv (w.step (.reserve id addr)) := by
  refine ⟨h.apart, h.range, h.claimed, fun i hi => ?_, h.counted.reserve (h.range id hid).1 addr⟩
  change test (insert (w.monitor.clear id).live id.slot) i = true at hi
  change ∃ id' ∈ w.ids, id'.slot = i ∧ Function.update w.monitor.slots id.slot
    (pack addr id.shift) i = pack (Function.update w.last id.slot addr i) id'.shift
  rw [test_insert, ExclusiveMonitor.clear_live] at hi
  by_cases he : i = id.slot
  · subst he
    exact ⟨id, hid, rfl, by rw [Function.update_self, Function.update_self]⟩
  · simp only [he, decide_false, Bool.not_false, Bool.and_true, Bool.or_false] at hi
    obtain ⟨id', hid', hslot, hpack⟩ := h.owned i hi
    exact ⟨id', hid', hslot, by rw [Function.update_of_ne he, Function.update_of_ne he, hpack]⟩

theorem Inv.release (h : Inv w) {id : MonitorId} (hid : id ∈ w.ids) :
    Inv (w.step (.release id)) := by
  have hslot := (h.range id hid).1
  have hother : ∀ id' ∈ w.ids.erase id, id' ∈ w.ids ∧ id'.slot ≠ id.slot := by
    intro id' hid'
    have hnodup : w.ids.Nodup := h.apart.imp fun hab he => hab (congrArg MonitorId.slot he)
    obtain ⟨hne, hmem⟩ := hnodup.mem_erase_iff.mp hid'
    exact ⟨hmem, fun hs => hne (h.slot_inj hmem hid hs)⟩
  refine ⟨h.apart.sublist (List.erase_sublist ..), fun id' hid' => h.range id' (hother id' hid').1,
    fun id' hid' => ?_, fun i hi => ?_, h.counted.clear hslot⟩
  · change test (erase w.monitor.claimed id.slot) id'.slot = true
    rw [test_erase, h.claimed id' (hother id' hid').1]
    simp [(hother id' hid').2]
  · change test (w.monitor.clear id).live i = true at hi
    rw [ExclusiveMonitor.clear_live] at hi
    simp only [Bool.and_eq_true, Bool.not_eq_true', decide_eq_false_iff_not] at hi
    obtain ⟨id', hid', hs, hpack⟩ := h.owned i hi.1
    refine ⟨id', ?_, hs, hpack⟩
    refine (List.mem_erase_of_ne ?_).mpr hid'
    rintro rfl
    exact hi.2 hs.symm

theorem Inv.step (h : Inv w) {op : Op} (hop : w.Allows op) : Inv (w.step op) := by
  cases op with
  | register shift => exact h.register hop
  | reserve id addr => exact h.reserve hop addr
  | clear id => exact h.swept (swept_clear w (h.range id hop).1)
  | release id => exact h.release hop
  | noteStore addr bytes =>
    exact h.swept (ExclusiveMonitor.swept_noteStore h.counted addr.toNat bytes.toNat)

end Step

theorem inv_reached {w : Cores} (h : Reached w) : Inv w := by
  induction h with
  | init => exact inv_new
  | step op _ hop ih => exact ih.step hop

end Cores

def granule (addr : BitVec 64) (shift : Nat) : Nat := addr.toNat / 2 ^ shift * 2 ^ shift

/-- The store has a byte in the granule. -/
def WritesGranule (addr bytes : Nat) (at' : BitVec 64) (shift : Nat) : Prop :=
  ∃ x, addr ≤ x ∧ x < addr + bytes ∧ granule at' shift ≤ x ∧ x < granule at' shift + 2 ^ shift

/--
The two stores that are told wrong: one of no bytes that lies in the granule past its
first byte, short of the last address, and one of the last byte of the address space when
the granule is the last one.
-/
def Missed (addr bytes : Nat) (at' : BitVec 64) (shift : Nat) : Prop :=
  (bytes = 0 ∧ granule at' shift < addr ∧ addr < granule at' shift + 2 ^ shift
      ∧ addr ≠ 2 ^ 64 - 1)
    ∨ (bytes = 1 ∧ addr = 2 ^ 64 - 1 ∧ granule at' shift + 2 ^ shift = 2 ^ 64)

theorem covered_iff {addr bytes s : Nat} {at' : BitVec 64} (hlo : minGranuleShift ≤ s)
    (hhi : s ≤ maxGranuleShift) (haddr : addr < 2 ^ 64) (hend : addr + bytes ≤ 2 ^ 64) :
    ((ExclusiveMonitor.covered addr (saturatingAdd 64 addr bytes) (pack at' s) = true)
      ↔ WritesGranule addr bytes at' s) ↔ ¬ Missed addr bytes at' s := by
  have hcov : ExclusiveMonitor.covered addr (saturatingAdd 64 addr bytes) (pack at' s) = true ↔
      addr < min (granule at' s + 2 ^ s) (2 ^ 64 - 1)
        ∧ granule at' s < min (addr + bytes) (2 ^ 64 - 1) := by
    unfold ExclusiveMonitor.covered saturatingAdd
    rw [unpackShift_pack hlo hhi, unpackBase_pack hlo hhi, Nat.one_shiftLeft]
    simp only [Bool.and_eq_true, decide_eq_true_eq, granule]
  have hwrites : WritesGranule addr bytes at' s ↔
      0 < bytes ∧ addr < granule at' s + 2 ^ s ∧ granule at' s < addr + bytes := by
    constructor
    · rintro ⟨x, h1, h2, h3, h4⟩
      omega
    · rintro ⟨h1, h2, h3⟩
      have hpos := Nat.two_pow_pos s
      exact ⟨max addr (granule at' s), by omega, by omega, by omega, by omega⟩
  -- the granule lies in the address space whole, and is at least eight bytes
  have hsize : 2 ^ 3 ≤ 2 ^ s := Nat.pow_le_pow_right (by decide) hlo
  have hfits : granule at' s + 2 ^ s ≤ 2 ^ 64 := by
    have hs : s ≤ 64 := Nat.le_trans hhi (by decide)
    have hsplit : 2 ^ 64 = 2 ^ (64 - s) * 2 ^ s := by
      rw [← Nat.pow_add, Nat.sub_add_cancel hs]
    have hlt : at'.toNat / 2 ^ s < 2 ^ (64 - s) := by
      rw [Nat.div_lt_iff_lt_mul (Nat.two_pow_pos s), ← hsplit]
      exact at'.isLt
    calc granule at' s + 2 ^ s = (at'.toNat / 2 ^ s + 1) * 2 ^ s := by
          unfold granule
          rw [Nat.add_mul, Nat.one_mul]
      _ ≤ 2 ^ (64 - s) * 2 ^ s := Nat.mul_le_mul_right _ hlt
      _ = 2 ^ 64 := hsplit.symm
  rw [hcov, hwrites]
  unfold Missed
  generalize granule at' s = g at *
  generalize 2 ^ s = len at *
  omega

/--
**A store breaks the reservations it writes to, but for two kinds of store.** In every
state a run of calls reaches: the counter is the number of live slots, each live slot is
a registration's, and no two registrations share one; and for every store that stays in
the address space, exactly the live reservations whose granule it writes to are broken,
if and only if none of them is `Missed`. A reservation that was not live is not revived.
-/
theorem monitor_covers {w : Cores} (h : w.Reached) :
    w.monitor.outstanding = Bitmap.count w.monitor.live monitorSlots
    ∧ (∀ i, test w.monitor.live i = true → ∃ id ∈ w.ids, id.slot = i)
    ∧ w.ids.Pairwise (fun a b => a.slot ≠ b.slot)
    ∧ ∀ addr bytes : Nat, addr < 2 ^ 64 → addr + bytes ≤ 2 ^ 64 →
      ((∀ id ∈ w.ids, w.monitor.holds id = true →
          ((w.monitor.noteStore addr bytes).holds id = false
            ↔ WritesGranule addr bytes (w.last id.slot) id.shift))
        ↔ ∀ id ∈ w.ids, w.monitor.holds id = true →
          ¬ Missed addr bytes (w.last id.slot) id.shift)
      ∧ ∀ id ∈ w.ids, w.monitor.holds id = false →
        (w.monitor.noteStore addr bytes).holds id = false := by
  have hinv := Cores.inv_reached h
  refine ⟨hinv.counted, fun i hi => ?_, hinv.apart, fun addr bytes haddr hend => ?_⟩
  · obtain ⟨id, hid, hslot, _⟩ := hinv.owned i hi
    exact ⟨id, hid, hslot⟩
  have hswept := ExclusiveMonitor.swept_noteStore hinv.counted addr bytes
  constructor
  · refine forall₂_congr fun id hid => forall_congr' fun hlive => ?_
    obtain ⟨hslot, hlo, hhi⟩ := hinv.range id hid
    obtain ⟨id', hid', hs, hpack⟩ := hinv.owned id.slot hlive
    obtain rfl := hinv.slot_inj hid' hid hs
    rw [← covered_iff hlo hhi haddr hend]
    have hbroken : (w.monitor.noteStore addr bytes).holds id' = false ↔
        ExclusiveMonitor.covered addr (saturatingAdd 64 addr bytes)
          (pack (w.last id'.slot) id'.shift) = true := by
      rw [← hpack, Bool.eq_false_iff]
      unfold ExclusiveMonitor.holds
      rw [Ne, hswept.live]
      constructor
      · intro hn
        by_contra hc
        exact hn ⟨hlive, fun hh => hc hh.2⟩
      · rintro hc ⟨_, hn⟩
        exact hn ⟨hslot, hc⟩
    rw [hbroken]
  · intro id hid hoff
    rw [Bool.eq_false_iff]
    unfold ExclusiveMonitor.holds at hoff ⊢
    intro hon
    rw [((hswept.live id.slot).mp hon).1] at hoff
    exact absurd hoff (by simp)

def twoCores : Cores :=
  (((Cores.new.step (.register 3)).step (.register 4)).step (.reserve ⟨0, 3⟩ 0x1005#64)).step
    (.reserve ⟨1, 4⟩ (BitVec.ofNat 64 (2 ^ 64 - 3)))

theorem twoCores_reached : twoCores.Reached :=
  ((((Cores.Reached.init.step (.register 3) (by decide)).step (.register 4) (by decide)).step
    (.reserve ⟨0, 3⟩ _) (by decide +kernel)).step (.reserve ⟨1, 4⟩ _) (by decide +kernel))

theorem monitor_covers_twoCores : twoCores.monitor.outstanding
      = Bitmap.count twoCores.monitor.live monitorSlots
    ∧ twoCores.ids.Pairwise fun a b => a.slot ≠ b.slot :=
  have h := monitor_covers twoCores_reached
  ⟨h.1, h.2.2.1⟩

/-- **Both comparisons go wrong**: no byte written, and a reservation broken; the last byte of
the address space written, and the reservation of its granule standing. -/
theorem noteStore_misses :
    twoCores.Reached ∧ twoCores.ids = [⟨1, 4⟩, ⟨0, 3⟩]
    ∧ (twoCores.monitor.holds ⟨0, 3⟩ = true
      ∧ (twoCores.monitor.noteStore 0x1004 0).holds ⟨0, 3⟩ = false
      ∧ ¬ WritesGranule 0x1004 0 (twoCores.last 0) 3)
    ∧ (twoCores.monitor.holds ⟨1, 4⟩ = true
      ∧ (twoCores.monitor.noteStore (2 ^ 64 - 1) 1).holds ⟨1, 4⟩ = true
      ∧ WritesGranule (2 ^ 64 - 1) 1 (twoCores.last 1) 4) := by
  refine ⟨twoCores_reached, by decide +kernel, ⟨by decide +kernel, by decide +kernel, ?_⟩,
    ⟨by decide +kernel, by decide +kernel, ?_⟩⟩
  · rintro ⟨x, hlo, hhi, _⟩
    omega
  · have hg : granule (twoCores.last 1) 4 = 2 ^ 64 - 16 := by decide +kernel
    refine ⟨2 ^ 64 - 1, Nat.le_refl _, by omega, ?_, ?_⟩
    · rw [hg]
      omega
    · rw [hg]
      decide

end Rsemu.Space
