import Mathlib.Logic.Function.Iterate
import Rsemu.Riscv.Pmp
import Rsemu.Riscv.Trap

/-!
# The translation cache, and what its tag tells apart

A slot is found by the low bits of the page number and holds one tag; page number, ASID,
mode and generation are folded into it, and nothing else is compared. So a hit is genuine
exactly when the key last put into the slot does not share its tag with another.

`tag_eq_iff` says which keys do: the generation's low 24 bits stand above bit 40, the ASID
and the mode below bit 18, and the page number's product over all of them. For one page,
that is equal ASIDs and modes and generations that agree modulo 2^24, so a translation
comes back to life after 2^24 fences.
-/

namespace Rsemu.Riscv

def tlbEntries : Nat := 256

/-- A slot of the table. -/
structure Entry where
  tag : U64
  /-- The physical address of the page this maps to. -/
  base : U64
  /-- Whether this slot holds anything. -/
  valid : Bool

def Entry.default : Entry := ⟨0, 0, false⟩

def Access.slot : Access → Nat
  | .fetch => 0
  | .load => 1
  | .store => 2

/-- The translation table. -/
structure Tlb where
  slots : Nat → Nat → Entry
  hits : Nat
  misses : Nat
  /-- The last physical-memory-protection answer, per privilege mode. -/
  pmp : PmpCache

namespace Tlb

def new : Tlb := ⟨fun _ _ => .default, 0, 0, .new⟩

def flush (t : Tlb) : Tlb := { t with slots := fun _ _ => .default, pmp := .new }

def spread : U64 := 0x9e3779b97f4a7c15

def tag (vpn asid : U64) (mode : Priv) (generation : U64) : U64 :=
  generation <<< 40 ^^^ vpn * spread ^^^ asid <<< 2 ^^^ mode.bits

def index (vpn : U64) : Nat := vpn.toNat % tlbEntries

def lookup (t : Tlb) (kind : Access) (vpn asid : U64) (mode : Priv) (generation : U64) :
    Option U64 × Tlb :=
  let slot := t.slots kind.slot (index vpn)
  if slot.valid ∧ slot.tag = tag vpn asid mode generation then
    (some slot.base, { t with hits := t.hits + 1 })
  else (none, { t with misses := t.misses + 1 })

def insert (t : Tlb) (kind : Access) (vpn asid : U64) (mode : Priv) (generation base : U64) :
    Tlb :=
  { t with
    slots := fun k i =>
      if k = kind.slot ∧ i = index vpn then ⟨tag vpn asid mode generation, base, true⟩
      else t.slots k i }

end Tlb

/-- What a translation is cached under: a 52-bit page number and a 16-bit ASID. -/
structure Key where
  kind : Access
  vpn : BitVec 52
  asid : BitVec 16
  mode : Priv
  generation : U64

namespace Key

def product (k : Key) : U64 := k.vpn.setWidth 64 * Tlb.spread

def tag (k : Key) : U64 := Tlb.tag (k.vpn.setWidth 64) (k.asid.setWidth 64) k.mode k.generation

def slot (k : Key) : Nat × Nat := (k.kind.slot, Tlb.index (k.vpn.setWidth 64))

/-- **The two keys have one tag**: where their products differ, and only there, the field
over it differs too. -/
structure Collides (k k' : Key) : Prop where
  mode : ∀ i < 2, (k.product ^^^ k'.product).getLsbD i = (k.mode.bits ^^^ k'.mode.bits).getLsbD i
  asid : ∀ i < 16, (k.product ^^^ k'.product).getLsbD (2 + i) = (k.asid ^^^ k'.asid).getLsbD i
  page : ∀ i < 22, (k.product ^^^ k'.product).getLsbD (18 + i) = false
  generation : ∀ i < 24, (k.product ^^^ k'.product).getLsbD (40 + i) =
    (k.generation ^^^ k'.generation).getLsbD i

end Key

theorem Priv.bits_high (mode : Priv) {i : Nat} (h : 2 ≤ i) : mode.bits.getLsbD i = false := by
  have hlt : mode.bits.toNat < 2 ^ 2 := by cases mode <;> decide
  exact Nat.testBit_lt_two_pow
    (Nat.lt_of_lt_of_le hlt (Nat.pow_le_pow_right (by decide) h))

theorem Key.getLsbD_tag (k : Key) {i : Nat} (hi : i < 64) :
    k.tag.getLsbD i =
      (((decide (40 ≤ i) && k.generation.getLsbD (i - 40)) ^^ k.product.getLsbD i) ^^
        (decide (2 ≤ i) && k.asid.getLsbD (i - 2)) ^^ k.mode.bits.getLsbD i) := by
  have hsub : i - 2 < 64 := by omega
  have h40 : (!decide (i < 40)) = decide (40 ≤ i) := by
    rw [← decide_not]
    exact decide_eq_decide.mpr Nat.not_lt
  have h2 : (!decide (i < 2)) = decide (2 ≤ i) := by
    rw [← decide_not]
    exact decide_eq_decide.mpr Nat.not_lt
  unfold Key.tag Tlb.tag Key.product
  rw [BitVec.getLsbD_xor, BitVec.getLsbD_xor, BitVec.getLsbD_xor, BitVec.getLsbD_shiftLeft,
    BitVec.getLsbD_shiftLeft, BitVec.getLsbD_setWidth, decide_eq_true hi, decide_eq_true hsub,
    Bool.true_and, Bool.true_and, Bool.true_and, h40, h2, Bool.xor_assoc]

theorem false_eq_xor (a b : Bool) : false = (a ^^ b) ↔ a = b := by
  revert a b
  decide

theorem xor_swap (a b c d : Bool) : (a ^^ b) = (c ^^ d) ↔ (a ^^ c) = (b ^^ d) := by
  revert a b c d
  decide

theorem Key.tag_eq_iff (k k' : Key) : k.tag = k'.tag ↔ k.Collides k' := by
  have hmode {i : Nat} (h : i < 2) : k.tag.getLsbD i = k'.tag.getLsbD i ↔
      (k.product ^^^ k'.product).getLsbD i = (k.mode.bits ^^^ k'.mode.bits).getLsbD i := by
    have hlow : ¬ 40 ≤ i ∧ ¬ 2 ≤ i := by omega
    rw [Key.getLsbD_tag k (by omega), Key.getLsbD_tag k' (by omega), decide_eq_false hlow.1,
      decide_eq_false hlow.2, BitVec.getLsbD_xor, BitVec.getLsbD_xor]
    simp only [Bool.false_and, Bool.false_xor, Bool.xor_false]
    exact xor_swap ..
  have hasid {i : Nat} (h : i < 16) : k.tag.getLsbD (2 + i) = k'.tag.getLsbD (2 + i) ↔
      (k.product ^^^ k'.product).getLsbD (2 + i) = (k.asid ^^^ k'.asid).getLsbD i := by
    have hlow : ¬ 40 ≤ 2 + i ∧ 2 ≤ 2 + i := by omega
    rw [Key.getLsbD_tag k (by omega), Key.getLsbD_tag k' (by omega), decide_eq_false hlow.1,
      decide_eq_true hlow.2, BitVec.getLsbD_xor, BitVec.getLsbD_xor, Priv.bits_high _ hlow.2,
      Priv.bits_high _ hlow.2, Nat.add_sub_cancel_left]
    simp only [Bool.false_and, Bool.true_and, Bool.false_xor, Bool.xor_false]
    exact xor_swap ..
  have hpage {i : Nat} (h : i < 22) : k.tag.getLsbD (18 + i) = k'.tag.getLsbD (18 + i) ↔
      (k.product ^^^ k'.product).getLsbD (18 + i) = false := by
    have hlow : ¬ 40 ≤ 18 + i ∧ 2 ≤ 18 + i := by omega
    have hover : 16 ≤ 18 + i - 2 := by omega
    rw [Key.getLsbD_tag k (by omega), Key.getLsbD_tag k' (by omega), decide_eq_false hlow.1,
      BitVec.getLsbD_xor, Priv.bits_high _ hlow.2, Priv.bits_high _ hlow.2,
      BitVec.getLsbD_of_ge _ _ hover, BitVec.getLsbD_of_ge _ _ hover]
    simp only [Bool.false_and, Bool.and_false, Bool.false_xor, Bool.xor_false]
    cases k.product.getLsbD (18 + i) <;> cases k'.product.getLsbD (18 + i) <;> decide
  have hgen {i : Nat} (h : i < 24) : k.tag.getLsbD (40 + i) = k'.tag.getLsbD (40 + i) ↔
      (k.product ^^^ k'.product).getLsbD (40 + i) =
        (k.generation ^^^ k'.generation).getLsbD i := by
    have hlow : 40 ≤ 40 + i ∧ 2 ≤ 40 + i := by omega
    have hover : 16 ≤ 40 + i - 2 := by omega
    rw [Key.getLsbD_tag k (by omega), Key.getLsbD_tag k' (by omega), decide_eq_true hlow.1,
      BitVec.getLsbD_xor, BitVec.getLsbD_xor, Priv.bits_high _ hlow.2, Priv.bits_high _ hlow.2,
      BitVec.getLsbD_of_ge _ _ hover, BitVec.getLsbD_of_ge _ _ hover, Nat.add_sub_cancel_left]
    simp only [Bool.true_and, Bool.and_false, Bool.xor_false]
    exact (xor_swap ..).trans eq_comm
  constructor
  · intro htag
    exact ⟨fun i h => (hmode h).mp (by rw [htag]), fun i h => (hasid h).mp (by rw [htag]),
      fun i h => (hpage h).mp (by rw [htag]), fun i h => (hgen h).mp (by rw [htag])⟩
  · intro hc
    refine BitVec.eq_of_getLsbD_eq fun i hi => ?_
    -- the four fields of the tag, from the bottom
    rcases (by omega : i < 2 ∨ (2 ≤ i ∧ i < 18) ∨ (18 ≤ i ∧ i < 40) ∨ 40 ≤ i) with h | h | h | h
    · exact (hmode h).mpr (hc.mode i h)
    · have hfield := (hasid (i := i - 2) (by omega)).mpr (hc.asid _ (by omega))
      rwa [Nat.add_sub_cancel' h.1] at hfield
    · have hfield := (hpage (i := i - 18) (by omega)).mpr (hc.page _ (by omega))
      rwa [Nat.add_sub_cancel' h.1] at hfield
    · have hfield := (hgen (i := i - 40) (by omega)).mpr (hc.generation _ (by omega))
      rwa [Nat.add_sub_cancel' h] at hfield

theorem Key.collides_samePage_iff {k k' : Key} (hpage : k.vpn = k'.vpn) :
    k.Collides k' ↔ k.asid = k'.asid ∧ k.mode = k'.mode ∧
      k.generation.setWidth 24 = k'.generation.setWidth 24 := by
  have hproduct : k.product ^^^ k'.product = 0#64 := by
    unfold Key.product
    rw [hpage, BitVec.xor_self]
  constructor
  · intro hc
    refine ⟨?_, ?_, ?_⟩
    · refine BitVec.eq_of_getLsbD_eq fun i hi => ?_
      have hbit := hc.asid i hi
      rw [hproduct, BitVec.getLsbD_zero, BitVec.getLsbD_xor] at hbit
      exact (false_eq_xor _ _).mp hbit
    · have h0 := hc.mode 0 (by decide)
      have h1 := hc.mode 1 (by decide)
      rw [hproduct, BitVec.getLsbD_zero] at h0 h1
      cases hm : k.mode <;> cases hm' : k'.mode <;> rw [hm, hm'] at h0 h1
      all_goals first
        | rfl
        | exact absurd h0 (by decide)
        | cases h1
    · refine BitVec.eq_of_getLsbD_eq fun i hi => ?_
      have hbit := hc.generation i hi
      rw [hproduct, BitVec.getLsbD_zero, BitVec.getLsbD_xor] at hbit
      rw [BitVec.getLsbD_setWidth, BitVec.getLsbD_setWidth, (false_eq_xor _ _).mp hbit]
  · intro hsame
    obtain ⟨hasid, hmode, hgen⟩ := hsame
    refine ⟨?_, ?_, ?_, ?_⟩
    · intro i _
      rw [hproduct, hmode, BitVec.xor_self]
    · intro i _
      rw [hproduct, hasid, BitVec.xor_self, BitVec.getLsbD_zero, BitVec.getLsbD_zero]
    · intro i _
      rw [hproduct, BitVec.getLsbD_zero]
    · intro i hi
      have hbit := congrArg (fun g => g.getLsbD i) hgen
      simp only [BitVec.getLsbD_setWidth, decide_eq_true hi, Bool.true_and] at hbit
      rw [hproduct, BitVec.getLsbD_zero, BitVec.getLsbD_xor]
      exact (false_eq_xor _ _).mpr hbit

/-- The operations on the table. -/
inductive TlbOp where
  | insert (key : Key) (base : U64)
  | lookup (key : Key)
  | flush

def Tlb.find (t : Tlb) (key : Key) : Option U64 × Tlb :=
  t.lookup key.kind (key.vpn.setWidth 64) (key.asid.setWidth 64) key.mode key.generation

def Tlb.on (t : Tlb) : TlbOp → Tlb
  | .insert key base =>
    t.insert key.kind (key.vpn.setWidth 64) (key.asid.setWidth 64) key.mode key.generation base
  | .lookup key => (t.find key).2
  | .flush => t.flush

def Tlb.run (t : Tlb) (ops : List TlbOp) : Tlb := ops.foldl Tlb.on t

/-- The last insertion at each set and way. -/
abbrev Inserts := Nat × Nat → Option (Key × U64)

def Inserts.note (last : Inserts) : TlbOp → Inserts
  | .insert key base => Function.update last key.slot (some (key, base))
  | .lookup _ => last
  | .flush => fun _ => none

def lastInserts (ops : List TlbOp) : Inserts := ops.foldl Inserts.note fun _ => none

/-- **Every hit of the sequence is of the key last put into its slot**, and its base. -/
def Genuine (ops : List TlbOp) : Prop :=
  ∀ past key rest, ops = past ++ .lookup key :: rest → ∀ base,
    ((Tlb.new.run past).find key).1 = some base → lastInserts past key.slot = some (key, base)

/-- **No lookup of the sequence meets another key that collides with its own.** -/
def Apart (ops : List TlbOp) : Prop :=
  ∀ past key rest, ops = past ++ .lookup key :: rest → ∀ k base,
    lastInserts past key.slot = some (k, base) → k = key ∨ ¬ k.Collides key

/-- The slots hold what was last put into them. -/
structure Tlb.Holds (t : Tlb) (last : Inserts) : Prop where
  full : ∀ s key base, last s = some (key, base) → t.slots s.1 s.2 = ⟨key.tag, base, true⟩
  empty : ∀ s, last s = none → (t.slots s.1 s.2).valid = false

theorem Tlb.holds_new : Tlb.new.Holds fun _ => none := by
  refine ⟨fun s key base h => ?_, fun _ _ => rfl⟩
  cases h

theorem Inserts.note_insert (last : Inserts) (key : Key) (base : U64) (s : Nat × Nat) :
    last.note (.insert key base) s = if s = key.slot then some (key, base) else last s :=
  Function.update_apply ..

theorem Tlb.slots_insert (t : Tlb) (key : Key) (base : U64) (s : Nat × Nat) :
    (t.on (.insert key base)).slots s.1 s.2 =
      if s = key.slot then ⟨key.tag, base, true⟩ else t.slots s.1 s.2 := by
  have hslot : s = key.slot ↔ s.1 = key.kind.slot ∧ s.2 = Tlb.index (key.vpn.setWidth 64) := by
    rw [Prod.ext_iff]
    rfl
  unfold Tlb.on Tlb.insert
  dsimp only
  by_cases h : s = key.slot
  · rw [if_pos h, if_pos (hslot.mp h)]
    rfl
  · rw [if_neg h, if_neg (mt hslot.mpr h)]

theorem Tlb.slots_find (t : Tlb) (key : Key) : (t.find key).2.slots = t.slots := by
  unfold Tlb.find Tlb.lookup
  dsimp only
  split <;> rfl

theorem Tlb.Holds.on {t : Tlb} {last : Inserts} (h : t.Holds last) (op : TlbOp) :
    (t.on op).Holds (last.note op) := by
  cases op with
  | insert key base =>
    refine ⟨fun s k b hs => ?_, fun s hs => ?_⟩
    · rw [Inserts.note_insert] at hs
      rw [Tlb.slots_insert]
      split at hs
      · rename_i heq
        cases hs
        rw [if_pos heq]
      · rename_i heq
        rw [if_neg heq]
        exact h.full s k b hs
    · rw [Inserts.note_insert] at hs
      rw [Tlb.slots_insert]
      split at hs
      · cases hs
      · rename_i heq
        rw [if_neg heq]
        exact h.empty s hs
  | lookup key =>
    have hslots : (t.on (.lookup key)).slots = t.slots := Tlb.slots_find t key
    refine ⟨fun s k b hs => ?_, fun s hs => ?_⟩
    · rw [hslots]
      exact h.full s k b hs
    · rw [hslots]
      exact h.empty s hs
  | flush =>
    refine ⟨fun s key base hs => ?_, fun _ _ => rfl⟩
    cases hs

theorem Tlb.Holds.run {t : Tlb} {last : Inserts} (h : t.Holds last) (ops : List TlbOp) :
    (t.run ops).Holds (ops.foldl Inserts.note last) := by
  induction ops generalizing t last with
  | nil => exact h
  | cons op ops ih => exact ih (h.on op)

theorem Tlb.Holds.find_iff {t : Tlb} {last : Inserts} (h : t.Holds last) (key : Key) (base : U64) :
    (t.find key).1 = some base ↔ ∃ k, last key.slot = some (k, base) ∧ k.tag = key.tag := by
  have hfind : (t.find key).1 =
      if (t.slots key.slot.1 key.slot.2).valid ∧ (t.slots key.slot.1 key.slot.2).tag = key.tag then
        some (t.slots key.slot.1 key.slot.2).base
      else none := by
    unfold Tlb.find Tlb.lookup
    dsimp only
    split
    · rename_i hhit
      exact (if_pos hhit).symm
    · rename_i hmiss
      exact (if_neg hmiss).symm
  rw [hfind]
  cases hlast : last key.slot with
  | none =>
    have hempty := h.empty key.slot hlast
    rw [if_neg (by rw [hempty]; exact fun hhit => Bool.false_ne_true hhit.1)]
    constructor
    · intro hno
      cases hno
    · intro hk
      obtain ⟨k, hk, -⟩ := hk
      cases hk
  | some entry =>
    have hfull := h.full key.slot entry.1 entry.2 hlast
    rw [hfull]
    by_cases htag : entry.1.tag = key.tag
    · rw [if_pos ⟨rfl, htag⟩]
      constructor
      · intro hbase
        exact ⟨entry.1, by rw [← Option.some.inj hbase], htag⟩
      · intro hk
        obtain ⟨k, hk, -⟩ := hk
        rw [Option.some.inj hk]
    · rw [if_neg fun hhit => htag hhit.2]
      constructor
      · intro hno
        cases hno
      · intro hk
        obtain ⟨k, hk, hktag⟩ := hk
        rw [Option.some.inj hk] at htag
        exact absurd hktag htag

theorem genuine_iff_apart (ops : List TlbOp) : Genuine ops ↔ Apart ops := by
  have hholds (past : List TlbOp) : (Tlb.new.run past).Holds (lastInserts past) :=
    Tlb.holds_new.run past
  constructor
  · intro hgenuine past key rest hops k base hlast
    by_cases hcollides : k.Collides key
    · have hhit := ((hholds past).find_iff key base).mpr ⟨k, hlast, (k.tag_eq_iff key).mpr hcollides⟩
      have hsame := (hgenuine past key rest hops base hhit).symm.trans hlast
      cases hsame
      exact .inl rfl
    · exact .inr hcollides
  · intro hapart past key rest hops base hhit
    obtain ⟨k, hlast, htag⟩ := ((hholds past).find_iff key base).mp hhit
    rcases hapart past key rest hops k base hlast with rfl | hno
    · exact hlast
    · exact absurd ((k.tag_eq_iff key).mp htag) hno

def Csrs.asid (c : Csrs) : U64 :=
  match c.xlen with
  | .rv32 => c.satp >>> 22 &&& 0x1ff
  | .rv64 => c.satp >>> 44 &&& 0xffff

/-- The mode an access is checked against: `MPRV` lends machine mode the previous one. -/
def Csrs.effectivePriv (c : Csrs) (kind : Access) : Priv :=
  if kind ≠ .fetch ∧ c.privMode = .machine ∧ c.mstatus &&& Status.mprv ≠ 0 then c.previous
  else c.privMode

/-- What a hart looks a page up under. -/
def Hart.keyOf (h : Hart) (kind : Access) (vpn : BitVec 52) : Key :=
  ⟨kind, vpn, h.csrs.asid.setWidth 16, h.csrs.effectivePriv kind, h.csrs.translationGen⟩

/-- The next step of the hart executes its instruction, which may be a fence. -/
structure Hart.MayFence (h : Hart) : Prop where
  running : h.pendingInterrupt = none ∧ h.wfi = false
  legal : ¬ (h.csrs.privMode = .user ∨
    (h.csrs.privMode = .supervisor ∧ h.csrs.mstatus &&& Status.tvm ≠ 0))

def Hart.fence (encoding length : U64) (h : Hart) : Hart := h.step encoding length .sfenceVma

def Key.fenced (k : Key) (n : Nat) : Key :=
  { k with generation := k.generation + BitVec.ofNat 64 n }

theorem Hart.MayFence.fence {h : Hart} (hf : h.MayFence) (encoding length : U64) :
    (h.fence encoding length).MayFence ∧
      ∀ kind vpn, (h.fence encoding length).keyOf kind vpn = (h.keyOf kind vpn).fenced 1 := by
  have hstep : h.fence encoding length =
      ({ h with csrs := h.csrs.bumpTranslation, wfi := false } : Hart).retire (h.pc + length)
        false := by
    unfold Hart.fence Hart.step
    rw [hf.running.1]
    dsimp only
    rw [if_neg (by simp [hf.running.2])]
    exact if_neg hf.legal
  rw [hstep]
  unfold Hart.retire
  dsimp only
  split <;> exact ⟨⟨⟨hf.running.1, rfl⟩, hf.legal⟩, fun _ _ => rfl⟩

theorem Hart.MayFence.keyOf_fences {h : Hart} (hf : h.MayFence) (encoding length : U64)
    (kind : Access) (vpn : BitVec 52) (n : Nat) :
    ((Hart.fence encoding length)^[n] h).keyOf kind vpn = (h.keyOf kind vpn).fenced n := by
  induction n generalizing h with
  | zero =>
    exact congrArg (fun g => { h.keyOf kind vpn with generation := g }) (BitVec.add_zero _).symm
  | succ n ih =>
    obtain ⟨hnext, hkey⟩ := hf.fence encoding length
    rw [Function.iterate_succ_apply, ih hnext, hkey]
    unfold Key.fenced
    rw [BitVec.add_assoc, Nat.add_comm n 1, BitVec.ofNat_add]

theorem Key.collides_fenced_iff (k : Key) (n : Nat) : k.Collides (k.fenced n) ↔ 2 ^ 24 ∣ n := by
  have hlow : k.generation.setWidth 24 = (k.generation + BitVec.ofNat 64 n).setWidth 24 ↔
      2 ^ 24 ∣ n := by
    rw [← BitVec.toNat_inj, BitVec.toNat_setWidth, BitVec.toNat_setWidth, BitVec.toNat_add,
      BitVec.toNat_ofNat, Nat.dvd_iff_mod_eq_zero]
    omega
  have hpage : k.vpn = (k.fenced n).vpn := rfl
  rw [Key.collides_samePage_iff hpage]
  exact ⟨fun h => hlow.mp h.2.2, fun h => ⟨rfl, rfl, hlow.mpr h⟩⟩

/-- **A hit is genuine exactly when no colliding key stands in its slot; and a translation that
a hart cached is used after `SFENCE.VMA` steps exactly when their number is a multiple of 2^24.** -/
theorem tlb_genuine_iff (ops : List TlbOp) {h : Hart} (hf : h.MayFence) (encoding length : U64)
    (kind : Access) (vpn : BitVec 52) (base : U64) (n : Nat) :
    (Genuine ops ↔ Apart ops) ∧
      (((Tlb.new.on (.insert (h.keyOf kind vpn) base)).find
          (((Hart.fence encoding length)^[n] h).keyOf kind vpn)).1 = some base ↔ 2 ^ 24 ∣ n) := by
  refine ⟨genuine_iff_apart ops, ?_⟩
  rw [hf.keyOf_fences]
  generalize h.keyOf kind vpn = k
  have hholds := Tlb.holds_new.on (.insert k base)
  have hlast : Inserts.note (fun _ => none) (.insert k base) (k.fenced n).slot = some (k, base) :=
    (Inserts.note_insert ..).trans (if_pos rfl)
  rw [hholds.find_iff, hlast, ← k.collides_fenced_iff n, ← k.tag_eq_iff]
  constructor
  · intro hk
    obtain ⟨k', hk', htag⟩ := hk
    cases hk'
    exact htag
  · intro htag
    exact ⟨k, rfl, htag⟩

/-- One fence of machine mode, and the translation is gone. -/
theorem tlb_genuine_fenced :
    ((Tlb.new.on (.insert ((Hart.reset .rv64 .gc 0 16 0 0).keyOf .load 0x10) 0x80000000)).find
      (((Hart.fence 0x12000073 4)^[1] (Hart.reset .rv64 .gc 0 16 0 0)).keyOf .load 0x10)).1 ≠
      some 0x80000000 := by
  have hf : (Hart.reset .rv64 .gc 0 16 0 0).MayFence := ⟨⟨by decide, rfl⟩, by decide⟩
  exact mt (tlb_genuine_iff [] hf 0x12000073 4 .load 0x10 0x80000000 1).2.mp (by decide)

def staleKey : Key := ⟨.load, 0x10, 1, .supervisor, 2⟩

/-- **After 2^24 fences a translation from before them hits.** -/
theorem stale_translation :
    ¬ Genuine [.insert staleKey 0x80000000, .lookup { staleKey with generation := 2 + 0x1000000 }] := by
  intro hgenuine
  have hlast : lastInserts [.insert staleKey 0x80000000]
      ({ staleKey with generation := 2 + 0x1000000 } : Key).slot = some (staleKey, 0x80000000) :=
    (Inserts.note_insert (fun _ => none) staleKey 0x80000000 _).trans (if_pos rfl)
  rcases (genuine_iff_apart _).mp hgenuine [_] _ [] rfl staleKey _ hlast with hsame | hno
  · have hgen := congrArg Key.generation hsame
    exact absurd hgen (by decide)
  · exact hno ((staleKey.collides_fenced_iff (2 ^ 24)).mpr (Nat.dvd_refl _))

end Rsemu.Riscv
