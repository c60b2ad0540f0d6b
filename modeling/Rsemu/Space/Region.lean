import Rsemu.Base.Word
import Mathlib.Data.List.MinMax

/-!
# The region tree

The data model of `core::space`'s `Region`: memory, windows onto memory, and containers with
children placed inside them, together with every constructor the source gives.

A region is immutable once it is shared, with one exception: the offset of an alias lives in a
cell of its own, so that sliding a window does not rebuild anything.

The fields of a `Region` are private in the source, so every region is what the constructors
build. `Built` is that closure, and `Shape` is what it gives at every node: lengths are 64-bit
values, a repeating window looks at a non-empty leaf, only a window that resolves to a leaf
may slide, and the stored depth counts the levels.
-/

namespace Rsemu.Space

open Word

/-- An access width. -/
inductive Width where
  | u8 | u16 | u32 | u64
  deriving DecidableEq

/-- A byte order. -/
inductive Endian where
  | little | big
  deriving DecidableEq

def Endian.debug : Endian → String
  | .little => "Little"
  | .big => "Big"

/-- What accesses a region takes. -/
structure AccessConstraints where
  min : Width
  max : Width
  naturalAlignment : Bool
  endian : Endian
  allowBulk : Bool
  secureOnly : Bool
  privilegedOnly : Bool
  drivesDataBus : Bool
  deriving DecidableEq

namespace AccessConstraints

def any : AccessConstraints := ⟨.u8, .u64, false, .little, true, false, false, true⟩

def withEndian (c : AccessConstraints) (endian : Endian) : AccessConstraints :=
  { c with endian := endian }

end AccessConstraints

/-- Access permissions. -/
structure Perms where
  bits : BitVec 8
  deriving DecidableEq

namespace Perms

def read : Perms := ⟨1⟩
def write : Perms := ⟨2⟩
def rwx : Perms := ⟨7⟩

def contains (p other : Perms) : Bool := p.bits &&& other.bits == other.bits

def intersect (p other : Perms) : Perms := ⟨p.bits &&& other.bits⟩

end Perms

/-- What a write to a ROM does. -/
inductive RomWrite where
  | ignore | fault
  deriving DecidableEq

/-- How a container resolves an address covered by more than one child. -/
inductive CombinePolicy where
  | priority | wiredOr | wiredAnd | conflict
  deriving DecidableEq

/-- A handle to a memory: where it is, and how long. Two handles to one memory are equal. -/
structure Store where
  addr : Nat
  len : Nat
  deriving DecidableEq

/-- A handle to a device: where it is, and the accesses it declares. -/
structure MemOps where
  addr : Nat
  constraints : AccessConstraints
  deriving DecidableEq

/-- An alias's number. -/
abbrev AliasId := Nat

/-- Each alias's offset. -/
abbrev Cells := AliasId → Nat

/-- Why a construction is refused. -/
structure ConfigError where
  place : String
  message : String
  deriving DecidableEq

/-- A region placed in another or in a space. -/
structure Mapping (R : Type) where
  region : R
  /-- Where its offset 0 lands in the parent's coordinates. -/
  base : Nat
  /-- Higher wins where children overlap. -/
  priority : Int
  /-- The terms on which the region answers here. -/
  perms : Perms

/-- A window onto another region. -/
structure Alias (R : Type) where
  target : R
  id : AliasId
  rebasable : Bool
  repeats : Bool

/-- What a region is. -/
inductive RegionKind (R : Type) where
  | ram (store : Store)
  | rom (store : Store) (onWrite : RomWrite)
  | io (ops : MemOps)
  | alias (a : Alias R)
  | container (children : List (Mapping R)) (combine : CombinePolicy)

/-- A node of the tree. -/
structure Region where
  name : String
  len : Nat
  constraints : AccessConstraints
  kind : RegionKind Region
  /-- How deep the tree under this node goes, counting this node as 1 and saturating. -/
  depth : Nat

def hex (n : Nat) : String := "0x" ++ String.ofList (Nat.toDigits 16 n)

def Mapping.stop (m : Mapping Region) : Nat := saturatingAdd 64 m.base m.region.len

namespace Region

def isLeaf (r : Region) : Bool :=
  match r.kind with
  | .ram _ => true
  | .rom _ _ => true
  | .io _ => true
  | .alias _ => false
  | .container _ _ => false

def resolvesToLeaf (r : Region) : Bool :=
  match r.kind with
  | .ram _ => true
  | .rom _ _ => true
  | .io _ => true
  | .alias a => a.rebasable && !a.repeats
  | .container _ _ => false

def ram (name : String) (store : Store) : Region :=
  ⟨name, store.len, .any, .ram store, 1⟩

def rom (name : String) (store : Store) (onWrite : RomWrite) : Region :=
  ⟨name, store.len, .any, .rom store onWrite, 1⟩

def io (name : String) (len : Nat) (ops : MemOps) : Region :=
  ⟨name, len, ops.constraints, .io ops, 1⟩

def splitSide (name : String) (side : Region) (which : String) : Except ConfigError MemOps :=
  match side.kind with
  | .io ops => .ok ops
  | _ => .error ⟨name, "the " ++ which ++ " side of a split must be a plain I/O region, and `"
      ++ side.name ++ "` is not"⟩

/-- One aperture, two devices. `addr` is where the device that joins the two is allocated. -/
def split (name : String) (reads writes : Region) (addr : Nat) : Except ConfigError Region := do
  let _ ← splitSide name reads "read"
  let _ ← splitSide name writes "write"
  if reads.len ≠ writes.len then
    .error ⟨name, "a split's two sides must be the same size: `" ++ reads.name ++ "` is "
      ++ hex reads.len ++ " bytes and `" ++ writes.name ++ "` is                      "
      ++ hex writes.len⟩
  let c := reads.constraints
  if c.min ≠ writes.constraints.min ∨ c.max ≠ writes.constraints.max then
    .error ⟨name, "a split's two sides must accept the same access widths: `" ++ reads.name
      ++ "` and `" ++ writes.name ++ "` do not"⟩
  if c.endian ≠ writes.constraints.endian then
    .error ⟨name, "a split's two sides must agree on byte order: `" ++ reads.name ++ "` is "
      ++ c.endian.debug ++ " and `" ++ writes.name ++ "` is "
      ++ writes.constraints.endian.debug
      ++ ". A split is one region with one declared order; model two orders as two regions"⟩
  .ok ⟨name, reads.len, c, .io ⟨addr, c⟩, 1⟩

end Region

/-- A window of `len` bytes onto `target`, starting at `offset` inside it. -/
def Region.alias (name : String) (target : Region) (offset len : Nat) (id : AliasId) :
    Except ConfigError Region :=
  match checkedAdd 64 offset len with
  | none => .error ⟨name, "alias window overflows"⟩
  | some stop =>
    if target.len < stop then
      .error ⟨name, "alias window " ++ hex offset ++ ".." ++ hex stop
        ++ " does not fit in target `" ++ target.name ++ "` of " ++ hex target.len ++ " bytes"⟩
    else
      .ok ⟨name, len, target.constraints, .alias ⟨target, id, target.resolvesToLeaf, false⟩,
        saturatingAdd 32 target.depth 1⟩

namespace Region

/-- A target repeated over a longer range. -/
def mirror (name : String) (target : Region) (len : Nat) (id : AliasId) :
    Except ConfigError Region :=
  if target.len = 0 then .error ⟨name, "cannot mirror a zero-sized region"⟩
  else if !target.isLeaf then
    .error ⟨name, "a repeating window's target must be RAM, ROM, or I/O"⟩
  else
    .ok ⟨name, len, target.constraints, .alias ⟨target, id, false, true⟩,
      saturatingAdd 32 target.depth 1⟩

def containerWith (name : String) (len : Nat) (children : List (Mapping Region))
    (combine : CombinePolicy) : Region :=
  ⟨name, len, .any, .container children combine,
    saturatingAdd 32 ((children.map (·.region.depth)).foldr max 0) 1⟩

def container (name : String) (len : Nat) (children : List (Mapping Region)) : Region :=
  containerWith name len children .priority

def withConstraints (r : Region) (c : AccessConstraints) : Region := { r with constraints := c }

def withEndian (r : Region) (endian : Endian) : Region :=
  { r with constraints := r.constraints.withEndian endian }

def withLen (r : Region) (len : Nat) : Region := { r with len := len }

end Region

/--
**Everything the constructors can build.** The numbers a caller passes are 64-bit
values; windows and containers are made from regions that are already built.
-/
inductive Built : Region → Prop where
  | ram (name : String) (store : Store) : store.len < 2 ^ 64 → Built (Region.ram name store)
  | rom (name : String) (store : Store) (onWrite : RomWrite) :
      store.len < 2 ^ 64 → Built (Region.rom name store onWrite)
  | io (name : String) (len : Nat) (ops : MemOps) :
      len < 2 ^ 64 → Built (Region.io name len ops)
  | split (name : String) (reads writes : Region) (addr : Nat) (r : Region) :
      Built reads → Built writes → Region.split name reads writes addr = .ok r → Built r
  | window (name : String) (target : Region) (offset len : Nat) (id : AliasId) (r : Region) :
      Built target → Region.alias name target offset len id = .ok r → Built r
  | mirror (name : String) (target : Region) (len : Nat) (id : AliasId) (r : Region) :
      Built target → len < 2 ^ 64 → Region.mirror name target len id = .ok r → Built r
  | container (name : String) (len : Nat) (children : List (Mapping Region))
      (combine : CombinePolicy) :
      len < 2 ^ 64 → (∀ m ∈ children, m.base < 2 ^ 64) → (∀ m ∈ children, Built m.region) →
      Built (Region.containerWith name len children combine)
  | withConstraints (r : Region) (c : AccessConstraints) : Built r → Built (r.withConstraints c)
  | withEndian (r : Region) (endian : Endian) : Built r → Built (r.withEndian endian)
  | withLen (r : Region) (len : Nat) : Built r → len < 2 ^ 64 → Built (r.withLen len)

/-- What is true of one window, given its target. -/
structure WindowOk (a : Alias Region) (depth : Nat) : Prop where
  /-- Only a window that resolves to a leaf, and ends with it, may slide. -/
  rebasable : a.rebasable = (!a.repeats && a.target.resolvesToLeaf)
  /-- A repeating window looks at a leaf. -/
  leaf : a.repeats = true → a.target.isLeaf = true
  /-- Which was not empty. -/
  nonempty : a.repeats = true → a.target.len ≠ 0
  /-- The window is one level above its target. -/
  depth : depth = saturatingAdd 32 a.target.depth 1

/-- **What every node of a built tree satisfies**, from the leaves up. -/
inductive Shape : Region → Prop where
  | leaf (r : Region) : r.isLeaf = true → r.len < 2 ^ 64 → 1 ≤ r.depth → Shape r
  | window (r : Region) (a : Alias Region) :
      r.kind = .alias a → r.len < 2 ^ 64 → WindowOk a r.depth → Shape a.target → Shape r
  | container (r : Region) (children : List (Mapping Region)) (combine : CombinePolicy) :
      r.kind = .container children combine → r.len < 2 ^ 64 → 1 ≤ r.depth →
      (∀ m ∈ children, m.base < 2 ^ 64) →
      (∀ m ∈ children, saturatingAdd 32 m.region.depth 1 ≤ r.depth) →
      (∀ m ∈ children, Shape m.region) → Shape r

variable {r : Region}

theorem Shape.depth_pos (h : Shape r) : 1 ≤ r.depth := by
  cases h with
  | leaf _ _ _ h1 => exact h1
  | window _ a _ _ hok _ =>
    have := hok.depth
    unfold saturatingAdd at this
    omega
  | container _ cs c _ _ h1 _ _ _ => exact h1

theorem Shape.len_lt (h : Shape r) : r.len < 2 ^ 64 := by
  cases h <;> assumption

theorem alias_eq_ok {name : String} {target : Region} {offset len : Nat} {id : AliasId}
    (h : Region.alias name target offset len id = .ok r) :
    offset + len ≤ target.len ∧
      r = ⟨name, len, target.constraints, .alias ⟨target, id, target.resolvesToLeaf, false⟩,
        saturatingAdd 32 target.depth 1⟩ := by
  unfold Region.alias at h
  split at h
  · exact absurd h (by simp)
  · rename_i stop hstop
    obtain ⟨_, rfl⟩ := checkedAdd_eq_some.mp hstop
    split at h
    · exact absurd h (by simp)
    · rename_i hle
      exact ⟨Nat.le_of_not_lt hle, (Except.ok.inj h).symm⟩

theorem mirror_eq_ok {name : String} {target : Region} {len : Nat} {id : AliasId}
    (h : Region.mirror name target len id = .ok r) :
    target.len ≠ 0 ∧ target.isLeaf = true ∧
      r = ⟨name, len, target.constraints, .alias ⟨target, id, false, true⟩,
        saturatingAdd 32 target.depth 1⟩ := by
  unfold Region.mirror at h
  split at h
  · exact absurd h (by simp)
  · rename_i hne
    split at h
    · exact absurd h (by simp)
    · rename_i hleaf
      exact ⟨hne, by simpa using hleaf, (Except.ok.inj h).symm⟩

theorem split_eq_ok {name : String} {reads writes : Region} {addr : Nat}
    (h : Region.split name reads writes addr = .ok r) :
    r = ⟨name, reads.len, reads.constraints, .io ⟨addr, reads.constraints⟩, 1⟩ := by
  unfold Region.split at h
  simp only [bind, Except.bind] at h
  split at h
  · cases h
  split at h
  · cases h
  split at h
  · cases h
  split at h
  · cases h
  split at h
  · cases h
  · exact (Except.ok.inj h).symm

theorem Shape.modified {r' : Region} (h : Shape r) (hk : r'.kind = r.kind) (hd : r'.depth = r.depth)
    (hl : r'.len < 2 ^ 64) : Shape r' := by
  cases h with
  | leaf _ hleaf _ h1 =>
    refine Shape.leaf r' ?_ hl (hd ▸ h1)
    simpa only [Region.isLeaf, hk] using hleaf
  | window _ a hka _ hw ht => exact Shape.window r' a (hk.trans hka) hl (hd ▸ hw) ht
  | container _ cs c hkc _ h1 hb hdep hs =>
    exact Shape.container r' cs c (hk.trans hkc) hl (hd ▸ h1) hb (fun m hm => hd ▸ hdep m hm) hs

theorem le_foldr_max {l : List Nat} {n : Nat} (h : n ∈ l) : n ≤ l.foldr max 0 := by
  induction l with
  | nil => cases h
  | cons a l ih =>
    rcases List.mem_cons.mp h with rfl | h
    · exact Nat.le_max_left _ _
    · exact Nat.le_trans (ih h) (Nat.le_max_right _ _)

theorem Built.shape (h : Built r) : Shape r := by
  induction h with
  | ram name store hlt => exact Shape.leaf _ rfl hlt (Nat.le_refl 1)
  | rom name store onWrite hlt => exact Shape.leaf _ rfl hlt (Nat.le_refl 1)
  | io name len ops hlt => exact Shape.leaf _ rfl hlt (Nat.le_refl 1)
  | split name reads writes addr r _ _ hr ihr _ =>
    rw [split_eq_ok hr]
    exact Shape.leaf _ rfl ihr.len_lt (Nat.le_refl 1)
  | window name target offset len id r _ hr ih =>
    obtain ⟨hfit, rfl⟩ := alias_eq_ok hr
    have := ih.len_lt
    exact Shape.window _ _ rfl (show len < 2 ^ 64 by omega)
      ⟨rfl, nofun, nofun, rfl⟩ ih
  | mirror name target len id r _ hlt hr ih =>
    obtain ⟨hne, hleaf, rfl⟩ := mirror_eq_ok hr
    exact Shape.window _ _ rfl hlt ⟨rfl, fun _ => hleaf, fun _ => hne, rfl⟩ ih
  | container name len children combine hlt hb _ ih =>
    refine Shape.container _ _ _ rfl hlt ?_ hb (fun m hm => ?_) ih
    · simp only [Region.containerWith, saturatingAdd]
      omega
    · have := le_foldr_max (List.mem_map_of_mem (f := (·.region.depth)) hm)
      simp only [Region.containerWith, saturatingAdd]
      omega
  | withConstraints r c _ ih => exact ih.modified rfl rfl ih.len_lt
  | withEndian r e _ ih => exact ih.modified rfl rfl ih.len_lt
  | withLen r len _ hlt ih => exact ih.modified rfl rfl hlt

end Rsemu.Space
