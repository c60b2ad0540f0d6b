import Rsemu.Space.Build

/-!
# Address spaces and the process that holds them

An `AddressSpace` keeps a list of root mappings and what was derived from it: the flat view
and the index a rebase looks leaves up in. Two kinds of change exist. A *retopology* goes
through a guard: any number of mappings are added, removed, moved or replaced, and the view is
rebuilt once, when the guard closes. A *rebase* slides one alias: it stores the new offset in
the alias's cell and refreshes the cached offset of the leaves this space's index names.

Regions are shared: a space, a window and another space can all hold one. The `World` is
everything the process holds: the regions shared so far, named by handle, the alias cells, the
counter alias identities come from, and the spaces. `step` runs one action on it, and an
action the source refuses leaves it as it was.

The dispatch table, the reservation table and the counters of a space are left out: they take
no part in what an address resolves to. The identity counter is counted without its 64-bit
wrap.
-/

namespace Rsemu.Space

open Word

/-- A root mapping's number. -/
abbrev MappingId := Nat

/-- A space, and what was derived from its mappings. -/
structure AddressSpace where
  name : String
  bits : Nat
  combine : CombinePolicy
  root : List (MappingId × Mapping Region)
  nextId : MappingId
  flat : FlatView
  index : RebaseIndex
  /-- Whether `root` has changed since `flat` was built. -/
  dirty : Bool

namespace AddressSpace

def new (name : String) (bits : Nat) (combine : CombinePolicy) : AddressSpace :=
  ⟨name, bits, combine, [], 1, ⟨[]⟩, fun _ => [], false⟩

def size (s : AddressSpace) : Nat := if 64 ≤ s.bits then 2 ^ 64 - 1 else 2 ^ s.bits

def mappings (s : AddressSpace) : List (Mapping Region) := s.root.map (·.2)

/-- A mapping ends inside the space. -/
def checkFits (s : AddressSpace) (m : Mapping Region) : Except ConfigError Unit :=
  if (checkedAdd 64 m.base m.region.len).any (· ≤ s.size) then .ok ()
  else .error ⟨s.name, "region `" ++ m.region.name ++ "` at " ++ hex m.base ++ " (+"
    ++ hex m.region.len ++ ") does not fit in a " ++ toString s.bits ++ "-bit space"⟩

def checkMapping (s : AddressSpace) (m : Mapping Region) : Except ConfigError Unit := do
  s.checkFits m
  if maxDepth < m.region.depth then
    .error ⟨s.name, "region `" ++ m.region.name ++ "` nests " ++ toString m.region.depth
      ++ " deep and the limit is " ++ toString maxDepth⟩
  else .ok ()

def noSuchMapping (s : AddressSpace) (id : MappingId) : ConfigError :=
  ⟨s.name, "no mapping MappingId(" ++ toString id ++ ") in this space"⟩

def change (s : AddressSpace) (id : MappingId) (f : Mapping Region → Mapping Region) :
    AddressSpace :=
  { s with root := s.root.modify (s.root.findIdx (·.1 = id)) fun p => (p.1, f p.2), dirty := true }

def find (s : AddressSpace) (id : MappingId) : Option (Mapping Region) :=
  (s.root.find? (·.1 = id)).map (·.2)

def mapWith (s : AddressSpace) (m : Mapping Region) : Except ConfigError AddressSpace := do
  s.checkMapping m
  .ok { s with root := s.root ++ [(s.nextId, m)], nextId := s.nextId + 1, dirty := true }

def unmap (s : AddressSpace) (id : MappingId) : Except ConfigError AddressSpace :=
  match s.find id with
  | none => .error (s.noSuchMapping id)
  | some _ => .ok { s with root := s.root.eraseIdx (s.root.findIdx (·.1 = id)), dirty := true }

def remap (s : AddressSpace) (id : MappingId) (base : Nat) : Except ConfigError AddressSpace :=
  match s.find id with
  | none => .error (s.noSuchMapping id)
  | some m => do
    s.checkMapping { m with base := base }
    .ok (s.change id fun m => { m with base := base })

def reprotect (s : AddressSpace) (id : MappingId) (perms : Perms) :
    Except ConfigError AddressSpace :=
  match s.find id with
  | none => .error (s.noSuchMapping id)
  | some _ => .ok (s.change id fun m => { m with perms := perms })

def replace (s : AddressSpace) (id : MappingId) (m : Mapping Region) :
    Except ConfigError AddressSpace :=
  match s.find id with
  | none => .error (s.noSuchMapping id)
  | some _ => do
    s.checkMapping m
    .ok (s.change id fun _ => m)

def sync (cells : Cells) (s : AddressSpace) : AddressSpace :=
  if !s.dirty then s
  else
    match FlatView.build cells s.mappings s.size s.combine with
    | .ok (flat, index) => { s with flat := flat, index := index, dirty := false }
    | .error _ => { s with flat := ⟨[]⟩, index := fun _ => [], dirty := false }

def rebuild (cells : Cells) (s : AddressSpace) : AddressSpace :=
  ({ s with dirty := true } : AddressSpace).sync cells

/-- Slide an alias's window: the cell, then every leaf of this space that it feeds. -/
def rebase (cells : Cells) (s : AddressSpace) (region : Region) (offset : Nat) :
    Except ConfigError (Cells × AddressSpace) :=
  match region.kind with
  | .alias a =>
    if !a.rebasable then
      .error ⟨region.name, "alias targets a container; sliding it is a retopology"⟩
    else if (checkedAdd 64 offset region.len).any (· ≤ a.target.len) then
      let cells := fun id => if id = a.id then offset else cells id
      .ok (cells, { s with flat := s.flat.rebase cells s.index a.id })
    else
      .error ⟨region.name, "offset " ++ hex offset ++ " (+" ++ hex region.len
        ++ ") runs off the end of `" ++ a.target.name ++ "`"⟩
  | _ => .error ⟨region.name, "not an alias"⟩

end AddressSpace

/-- Everything the process holds. -/
structure World where
  cells : Cells
  nextAlias : AliasId
  regions : List Region
  spaces : List AddressSpace

/-- The handle of a shared region. -/
abbrev RegionRef := Nat

/-- A constructor and its arguments. -/
inductive Recipe where
  | ram (name : String) (store : Store)
  | rom (name : String) (store : Store) (onWrite : RomWrite)
  | io (name : String) (len : Nat) (ops : MemOps)
  | split (name : String) (reads writes : RegionRef) (addr : Nat)
  | window (name : String) (target : RegionRef) (offset len : Nat)
  | mirror (name : String) (target : RegionRef) (len : Nat)
  | container (name : String) (len : Nat) (children : List (Mapping RegionRef))
      (combine : CombinePolicy)

/-- A change to a region not yet shared. -/
inductive Modifier where
  | constraints (c : AccessConstraints)
  | endian (e : Endian)
  | len (len : Nat)

/-- A change made under a guard. -/
inductive GuardOp where
  | mapWith (m : Mapping RegionRef)
  | unmap (id : MappingId)
  | remap (id : MappingId) (base : Nat)
  | reprotect (id : MappingId) (perms : Perms)
  | replace (id : MappingId) (m : Mapping RegionRef)
  | rebuild
  | flatView

/-- One step of the process. -/
inductive Action where
  /-- Make a region and share it. -/
  | share (recipe : Recipe) (mods : List Modifier)
  | space (name : String) (bits : Nat) (combine : CombinePolicy)
  /-- Open a guard on a space, make the calls, and close it. -/
  | guard (space : Nat) (ops : List GuardOp)
  | rebase (space : Nat) (region : RegionRef) (offset : Nat)

def Modifier.apply (r : Region) : Modifier → Region
  | .constraints c => r.withConstraints c
  | .endian e => r.withEndian e
  | .len n => r.withLen n

namespace World

def empty : World := ⟨fun _ => 0, 1, [], []⟩

def region (w : World) (h : RegionRef) : Option Region := w.regions[h]?

def mapping (w : World) (m : Mapping RegionRef) : Option (Mapping Region) :=
  (w.region m.region).map fun r => ⟨r, m.base, m.priority, m.perms⟩

def fresh (w : World) (offset : Nat) : World :=
  { w with
    cells := fun id => if id = w.nextAlias then offset else w.cells id
    nextAlias := w.nextAlias + 1 }

/-- Run a constructor. `none` is a handle that names nothing. -/
def make (w : World) : Recipe → Option (Except ConfigError (Region × World))
  | .ram name store => some (.ok (Region.ram name store, w))
  | .rom name store onWrite => some (.ok (Region.rom name store onWrite, w))
  | .io name len ops => some (.ok (Region.io name len ops, w))
  | .split name reads writes addr =>
    match w.region reads, w.region writes with
    | some r, some s => some ((Region.split name r s addr).map (·, w))
    | _, _ => none
  | .window name target offset len =>
    (w.region target).map fun t =>
      (Region.alias name t offset len w.nextAlias).map (·, w.fresh offset)
  | .mirror name target len =>
    (w.region target).map fun t =>
      (Region.mirror name t len w.nextAlias).map (·, w.fresh 0)
  | .container name len children combine =>
    (children.mapM w.mapping).map fun cs =>
      .ok (Region.containerWith name len cs combine, w)

/-- Make one call on an open guard. A call that is refused changes nothing. -/
def guardOp (w : World) (s : AddressSpace) : GuardOp → Except ConfigError AddressSpace
  | .mapWith m =>
    match w.mapping m with
    | some m => s.mapWith m
    | none => .ok s
  | .unmap id => s.unmap id
  | .remap id base => s.remap id base
  | .reprotect id perms => s.reprotect id perms
  | .replace id m =>
    match w.mapping m with
    | some m => s.replace id m
    | none => .ok s
  | .rebuild => .ok (s.rebuild w.cells)
  | .flatView => .ok (s.sync w.cells)

def guard (w : World) (s : AddressSpace) (ops : List GuardOp) : AddressSpace :=
  (ops.foldl (fun s op => (w.guardOp s op).toOption.getD s) s).sync w.cells

/-- What the process holds after an action. -/
def step (w : World) : Action → World
  | .share recipe mods =>
    match w.make recipe with
    | some (.ok (r, w')) => { w' with regions := w'.regions ++ [mods.foldl Modifier.apply r] }
    | _ => w
  | .space name bits combine =>
    { w with spaces := w.spaces ++ [AddressSpace.new name bits combine] }
  | .guard i ops => { w with spaces := w.spaces.modify i fun s => w.guard s ops }
  | .rebase i h offset =>
    match w.spaces[i]?, w.region h with
    | some s, some r =>
      match s.rebase w.cells r offset with
      | .ok (cells, s') => { w with cells := cells, spaces := w.spaces.set i s' }
      | .error _ => w
    | _, _ => w

end World

/-- Numbers a caller passes are 64-bit values. -/
def Recipe.Sized : Recipe → Prop
  | .ram _ store => store.len < 2 ^ 64
  | .rom _ store _ => store.len < 2 ^ 64
  | .io _ len _ => len < 2 ^ 64
  | .split _ _ _ _ => True
  | .window _ _ offset _ => offset < 2 ^ 64
  | .mirror _ _ len => len < 2 ^ 64
  | .container _ len children _ => len < 2 ^ 64 ∧ ∀ m ∈ children, m.base < 2 ^ 64

/-- The length is one a 64-bit value can hold. -/
def Modifier.Sized : Modifier → Prop
  | .len n => n < 2 ^ 64
  | _ => True

/-- The base is one a 64-bit value can hold. -/
def GuardOp.Sized : GuardOp → Prop
  | .mapWith m => m.base < 2 ^ 64
  | .replace _ m => m.base < 2 ^ 64
  | .remap _ base => base < 2 ^ 64
  | _ => True

/-- The numbers are ones the call's types can hold. -/
def Action.Sized : Action → Prop
  | .share recipe mods => recipe.Sized ∧ ∀ m ∈ mods, m.Sized
  | .space _ bits _ => 0 < bits ∧ bits ≤ 64
  | .guard _ ops => ∀ op ∈ ops, op.Sized
  | .rebase _ _ offset => offset < 2 ^ 64

/-- The states the process reaches by actions that meet `P`, on arguments of the right size. -/
inductive Reached (P : World → Action → Prop) : World → Prop where
  | empty : Reached P World.empty
  | step (w : World) (a : Action) : Reached P w → a.Sized → P w a → Reached P (w.step a)

end Rsemu.Space
