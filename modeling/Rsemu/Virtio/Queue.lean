import Mathlib.Algebra.BigOperators.Group.List.Basic
import Mathlib.Algebra.Order.Ring.Nat
import Mathlib.Data.List.Range

/-!
# Split virtqueues

Descriptor tables, available rings and used rings in guest memory, as a device that trusts
nothing the guest put there walks them. Guest memory is whatever it is: a read gives a
number or a bus error, and so does a write.

Addresses are 64 bits wide and are added without a check, so a sum that does not fit is a
`Fault` of its own (`add64`).
-/

namespace Rsemu.Virtio

/-- What ends an access: the bus refused it, or its address does not fit in 64 bits. -/
inductive Fault where
  | bus
  | overflow
  deriving DecidableEq

/-- A sum past 64 bits panics in a checked build and wraps in a release; here it is a fault of
its own. -/
def add64 (a b : Nat) : Except Fault Nat :=
  if a + b < 2 ^ 64 then .ok (a + b) else .error .overflow

theorem add64_of_lt {a b : Nat} (h : a + b < 2 ^ 64) : add64 a b = .ok (a + b) :=
  if_pos h

theorem add64_ok {a b c : Nat} (h : add64 a b = .ok c) : c = a + b := by
  unfold add64 at h
  split at h
  · exact (Except.ok.inj h).symm
  · cases h

/-- Little-endian reads of memory: address and length. -/
abbrev Reads := Nat → Nat → Option Nat

def Reads.load (mem : Reads) (addr bytes : Nat) : Except Fault Nat :=
  match mem addr bytes with
  | some value => .ok value
  | none => .error .bus

/-- An address space as a bus master sees it, over the state `σ` of everything in it. A write
that fails can have had part of its effect. -/
structure Guest (σ : Type) where
  read : σ → Reads
  readBytes : σ → Nat → Nat → Option (List UInt8)
  write : Nat → Nat → Nat → σ → Bool × σ
  writeBytes : Nat → List UInt8 → σ → Bool × σ

def Dma (σ α : Type) : Type := σ → Except Fault α × σ

namespace Dma

variable {σ α γ : Type}

instance : Monad (Dma σ) where
  pure a := fun s => (.ok a, s)
  bind m f := fun s =>
    match m s with
    | (.ok a, s) => f a s
    | (.error e, s) => (.error e, s)

def ofExcept (r : Except Fault α) : Dma σ α := fun s => (r, s)

def store (write : σ → Bool × σ) : Dma σ Unit := fun s =>
  let (ok, s) := write s
  (if ok then .ok () else .error .bus, s)

theorem ofExcept_bind_ok {r : Except Fault α} {a : α} (h : r = .ok a) (f : α → Dma σ γ)
    (s : σ) : (ofExcept r >>= f) s = f a s := by
  subst h
  rfl

theorem store_bind_ok {write : σ → Bool × σ} {s : σ} (h : (write s).1 = true)
    (f : Unit → Dma σ γ) : (store write >>= f) s = f () (write s).2 := by
  simp [bind, store, h]

theorem bind_ok {m : Dma σ α} {s s' : σ} {a : α} (h : m s = (.ok a, s')) (f : α → Dma σ γ) :
    (m >>= f) s = f a s' := by
  simp [bind, h]

end Dma

def descFNext : Nat := 1

def descFWrite : Nat := 2

def descFIndirect : Nat := 4

def descSize : Nat := 16

def queueSizeMax : Nat := 256

/-- Where a queue's parts are. -/
structure Layout where
  size : Nat
  desc : Nat
  avail : Nat
  used : Nat
  /-- Whether the driver has finished configuring it. -/
  ready : Bool
  deriving DecidableEq

def Layout.default : Layout := ⟨0, 0, 0, 0, false⟩

def Layout.isLive (l : Layout) : Bool :=
  l.ready && l.size > 0 && l.desc != 0 && l.avail != 0 && l.used != 0

def Layout.ringLen (l : Layout) : Nat := min (max l.size 1) 65535

theorem ringLen_pos (layout : Layout) : 0 < layout.ringLen := by
  unfold Layout.ringLen
  omega

/-- A descriptor. -/
structure Descriptor where
  addr : Nat
  len : Nat
  flags : Nat
  next : Nat
  deriving DecidableEq

def Descriptor.has (d : Descriptor) (flag : Nat) : Bool := d.flags &&& flag != 0

def Descriptor.isWrite (d : Descriptor) : Bool := d.has descFWrite

def readDescriptor (mem : Reads) (at_ : Nat) : Except Fault Descriptor := do
  let addr ← mem.load at_ 8
  let len ← mem.load (← add64 at_ 8) 4
  let flags ← mem.load (← add64 at_ 12) 2
  let next ← mem.load (← add64 at_ 14) 2
  return ⟨addr, len, flags, next⟩

def availIdx (mem : Reads) (layout : Layout) : Except Fault Nat := do
  mem.load (← add64 layout.avail 2) 2

def availHead (mem : Reads) (layout : Layout) (n : Nat) : Except Fault Nat := do
  let slot := n % layout.ringLen
  mem.load (← add64 (← add64 layout.avail 4) (slot * 2)) 2

def descriptor (mem : Reads) (layout : Layout) (index : Nat) :
    Except Fault (Option Descriptor) :=
  if layout.size ≤ index then .ok none
  else do
    let at_ ← add64 layout.desc (index * descSize)
    return some (← readDescriptor mem at_)

/-- Append `(head, written)` to the used ring and bump its index, the index last. -/
def publish {σ : Type} (g : Guest σ) (layout : Layout) (usedIdx head written : Nat) :
    Dma σ Nat := do
  let slot := usedIdx % layout.ringLen
  let at_ ← Dma.ofExcept (do add64 (← add64 layout.used 4) (slot * 8))
  Dma.store (g.write at_ 4 head)
  let at4 ← Dma.ofExcept (add64 at_ 4)
  Dma.store (g.write at4 4 written)
  let next := (usedIdx + 1) % 2 ^ 16
  let at2 ← Dma.ofExcept (add64 layout.used 2)
  Dma.store (g.write at2 2 next)
  return next

/-- A walk over a descriptor table: how many descriptors it read, what it put in the chain,
and the fault that ended it, if one did. -/
structure Walk where
  reads : Nat
  out : List Descriptor
  fault : Option Fault

def Walk.after (entry : Descriptor) (w : Walk) : Walk := ⟨w.reads + 1, entry :: w.out, w.fault⟩

def tableEntry (mem : Reads) (base index : Nat) : Except Fault Descriptor := do
  readDescriptor mem (← add64 base (index * descSize))

/-- An indirect table of `count` descriptors at `base`, from `index` on: `fuel` of them at
most. -/
def walkTable (mem : Reads) (base count : Nat) : Nat → Nat → Walk
  | 0, _ => ⟨0, [], none⟩
  | fuel + 1, index =>
    match tableEntry mem base index with
    | .error e => ⟨1, [], some e⟩
    | .ok entry =>
      if entry.has descFIndirect then ⟨1, [], none⟩
      else if ¬ entry.has descFNext then ⟨1, [entry], none⟩
      else if count ≤ entry.next then ⟨1, [entry], none⟩
      else (walkTable mem base count fuel entry.next).after entry

def walkIndirect (mem : Reads) (desc : Descriptor) : Walk :=
  let count := desc.len / descSize
  walkTable mem desc.addr count count 0

/-- A walk over a chain: how many descriptors it read from the queue's own table, how many
from each indirect table, what it put in the chain, and the fault that ended it, if one
did. -/
structure ChainWalk where
  reads : Nat
  tables : List Nat
  out : List Descriptor
  fault : Option Fault

/-- The walk before which one descriptor was read from the queue's own table, with what it
put in the chain. -/
def ChainWalk.after (tables : List Nat) (found : List Descriptor) (w : ChainWalk) : ChainWalk :=
  ⟨w.reads + 1, tables ++ w.tables, found ++ w.out, w.fault⟩

/-- What one descriptor of the queue's own table puts in the chain: itself, or the entries of
its indirect table. -/
def expand (mem : Reads) (desc : Descriptor) : List Nat × List Descriptor × Option Fault :=
  if desc.has descFIndirect then
    let walk := walkIndirect mem desc
    ([walk.reads], walk.out, walk.fault)
  else ([], [desc], none)

/-- A chain from `index` on, over `fuel` descriptors of the queue's own table at most. -/
def chainFrom (mem : Reads) (layout : Layout) : Nat → Nat → ChainWalk
  | 0, _ => ⟨0, [], [], none⟩
  | fuel + 1, index =>
    match descriptor mem layout index with
    | .error e => ⟨1, [], [], some e⟩
    | .ok none => ⟨0, [], [], none⟩
    | .ok (some desc) =>
      match expand mem desc with
      | (tables, found, some e) => ⟨1, tables, found, some e⟩
      | (tables, found, none) =>
        if ¬ desc.has descFNext then ⟨1, tables, found, none⟩
        else (chainFrom mem layout fuel desc.next).after tables found

def walkChain (mem : Reads) (layout : Layout) (head : Nat) : ChainWalk :=
  chainFrom mem layout layout.size head

def chain (mem : Reads) (layout : Layout) (head : Nat) : Except Fault (List Descriptor) :=
  match (walkChain mem layout head).fault with
  | some e => .error e
  | none => .ok (walkChain mem layout head).out

def writableLen (ds : List Descriptor) : Nat :=
  ((ds.filter (·.isWrite)).map (·.len)).sum

def readableLen (ds : List Descriptor) : Nat :=
  ((ds.filter fun d => ¬ d.isWrite).map (·.len)).sum

/-- Read `want` bytes from buffers, in order, from `skip` bytes in; what there is when they
hold less. -/
def readBuffers {σ : Type} (g : Guest σ) (s : σ) :
    List Descriptor → Nat → Nat → Except Fault (List UInt8)
  | [], _, _ => .ok []
  | d :: ds, skip, want =>
    if d.len ≤ skip then readBuffers g s ds (skip - d.len) want
    else
      let take := min (d.len - skip) want
      if take = 0 then .ok []
      else do
        let at_ ← add64 d.addr skip
        match g.readBytes s at_ take with
        | none => .error .bus
        | some part =>
          if take = want then return part
          else return part ++ (← readBuffers g s ds 0 (want - take))

def readChain {σ : Type} (g : Guest σ) (s : σ) (ds : List Descriptor) (skip want : Nat) :
    Except Fault (List UInt8) :=
  readBuffers g s (ds.filter fun d => ¬ d.isWrite) skip want

/-- Write `src` into buffers, in order, from `skip` bytes in, with how many bytes were
placed. -/
def writeBuffers {σ : Type} (g : Guest σ) :
    List Descriptor → Nat → List UInt8 → Dma σ Nat
  | [], _, _ => pure 0
  | d :: ds, skip, src =>
    if d.len ≤ skip then writeBuffers g ds (skip - d.len) src
    else
      let take := min (d.len - skip) src.length
      if take = 0 then pure 0
      else do
        let at_ ← Dma.ofExcept (add64 d.addr skip)
        Dma.store (g.writeBytes at_ (src.take take))
        if take = src.length then return take
        else return take + (← writeBuffers g ds 0 (src.drop take))

def writeChain {σ : Type} (g : Guest σ) (ds : List Descriptor) (skip : Nat) (src : List UInt8) :
    Dma σ Nat :=
  writeBuffers g (ds.filter (·.isWrite)) skip src

end Rsemu.Virtio
