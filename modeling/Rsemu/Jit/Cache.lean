import Rsemu.Base.SortedMap
import Rsemu.Base.Slab
import Mathlib.Data.UInt

/-!
# The translation block cache

Blocks are cached under a guest pc and a key, and a block's exits are patched to the blocks
they lead to. Every block has its back edges, the exits patched to it, so that a block
that goes can be unlinked from the blocks that stay. A guest write into a page throws away
the blocks lifted from it; when the cache is full the oldest block goes.

A slot is reused, its stamp is not: a `BlockId` carries the stamp its slot had, and names
nothing once the slot has another.
-/

namespace Rsemu.Jit

def pageSize : UInt64 := 4096

def pageMask : UInt64 := pageSize - 1

def pageOf (phys : UInt64) : UInt64 := phys &&& ~~~pageMask

def saturatingAdd (a b : UInt64) : UInt64 :=
  if a.toNat + b.toNat < UInt64.size then a + b else UInt64.ofNat (UInt64.size - 1)

def filterBit (page : UInt64) (words : Nat) : Nat :=
  let bits := words * 64
  let mixed := (page >>> 12) * 0x9e3779b97f4a7c15
  (mixed >>> 32).toNat % bits

/-- A block's identity within one cache: its slot, and the stamp the slot had. -/
structure BlockId where
  slot : Nat
  stamp : UInt64
  deriving DecidableEq

/-- Where a block's code is. -/
structure CodeRef where
  index : Nat
  /-- The code buffer generation it was emitted in. -/
  generation : UInt64
  /-- The offset of the block's chain entry. -/
  chain : UInt64
  /-- Where its deferred bookkeeping lives, and how many events that is. -/
  events : UInt64
  eventCount : Nat

/-- How many exits of a block can be patched. -/
abbrev exitCount : Nat := 2

def noSlot : Nat := 2 ^ 32 - 1

/-- A patched exit. -/
structure Link where
  /-- The guest pc this exit produces when it takes this successor. -/
  pc : UInt64
  target : Nat
  /-- The successor slot's stamp when the link was made. -/
  stamp : UInt64

def Link.empty : Link := ⟨0, noSlot, 0⟩

/-- A block and what is kept about it. -/
structure Slot (β : Type) where
  block : β
  pc : UInt64
  key : UInt64
  /-- The guest-physical page the bytes were read from. -/
  page : UInt64
  insns : Nat
  stamp : UInt64
  /-- The next slot in this slot's hash bucket. -/
  next : Nat
  /-- Where this block's exits are patched to. -/
  exits : Fin exitCount → Link
  /-- Who is patched to this block: a slot, and which of its exits. -/
  preds : List (Nat × Fin exitCount)
  code : Option CodeRef

/-- The counters. -/
structure CacheStats where
  hits : Nat
  misses : Nat
  chained : Nat
  links : Nat
  unlinks : Nat
  inserts : Nat
  smc : Nat
  evictions : Nat
  flushes : Nat
  filtered : Nat
  /-- Links found pointing at a reused slot. -/
  staleLinks : Nat

def CacheStats.default : CacheStats := ⟨0, 0, 0, 0, 0, 0, 0, 0, 0, 0, 0⟩

/-- The topology of the address space and the guest's translation, each by generation. -/
structure Epoch where
  topology : UInt64
  translation : UInt64

/-- The cache of translated blocks. -/
structure BlockCache (β : Type) where
  slots : List (Option (Slot β))
  /-- The stamp the next block inserted will carry. -/
  nextStamp : UInt64
  /-- The slots that can be reused, the last one freed first. -/
  free : List Nat
  /-- The head of each hash chain. -/
  buckets : List Nat
  bucketMask : UInt64
  /-- The blocks lifted from each page. -/
  pages : SortedMap Nat (List Nat)
  /-- A bit per hashed page: this page may hold a translation. -/
  filter : List UInt64
  /-- Insertion order, oldest first; an entry whose slot has been reused is skipped. -/
  order : List (Nat × UInt64)
  capacity : Nat
  epoch : Epoch
  stats : CacheStats

open Slab

namespace BlockCache

variable {β : Type}

/-- An empty cache. -/
def withCapacity (β : Type) (capacity : Nat) : BlockCache β :=
  let capacity := max capacity 1
  let buckets := capacity.nextPowerOfTwo
  let filterWords := min (max (capacity / 4) 8) 512
  { slots := []
    nextStamp := 1
    free := []
    buckets := List.replicate buckets noSlot
    bucketMask := UInt64.ofNat (buckets - 1)
    pages := SortedMap.empty
    filter := List.replicate filterWords 0
    order := []
    capacity := capacity
    epoch := ⟨0, 0⟩
    stats := CacheStats.default }

def len (c : BlockCache β) : Nat := c.slots.length - c.free.length

def bucket (c : BlockCache β) (pc key : UInt64) : Nat :=
  let h := pc ^^^ key * 0x9e3779b97f4a7c15
  let h := h ^^^ h >>> 29
  let h := h * 0xbf58476d1ce4e5b9
  let h := h ^^^ h >>> 32
  (h &&& c.bucketMask).toNat

def head (c : BlockCache β) (b : Nat) : Nat := c.buckets.getD b noSlot

def filterSet (c : BlockCache β) (page : UInt64) : Bool :=
  let bit := filterBit page c.filter.length
  c.filter.getD (bit / 64) 0 &&& 1 <<< UInt64.ofNat (bit % 64) != 0

def markFilter (filter : List UInt64) (page : UInt64) : List UInt64 :=
  let bit := filterBit page filter.length
  filter.modify (bit / 64) fun word => word ||| 1 <<< UInt64.ofNat (bit % 64)

/-- Walk a hash chain from slot `at_`; a chain is no longer than the slot table. -/
def walk (slots : List (Option (Slot β))) (pc key : UInt64) : Nat → Nat → Option BlockId
  | 0, _ => none
  | fuel + 1, at_ =>
    if at_ = noSlot then none
    else
      match peek slots at_ with
      | none => none
      | some slot =>
        if slot.pc = pc ∧ slot.key = key then some ⟨at_, slot.stamp⟩
        else walk slots pc key fuel slot.next

def find (c : BlockCache β) (pc key : UInt64) : Option BlockId :=
  walk c.slots pc key (c.slots.length + 1) (c.head (c.bucket pc key))

def lookup (c : BlockCache β) (pc key : UInt64) : Option BlockId × BlockCache β :=
  match c.find pc key with
  | some id => (some id, { c with stats := { c.stats with hits := c.stats.hits + 1 } })
  | none => (none, { c with stats := { c.stats with misses := c.stats.misses + 1 } })

def slot (c : BlockCache β) (id : BlockId) : Option (Slot β) :=
  (peek c.slots id.slot).filter fun s => s.stamp = id.stamp

def block (c : BlockCache β) (id : BlockId) : Option β := (c.slot id).map (·.block)

def dropBackEdge (slots : List (Option (Slot β))) (target : Nat) (stamp : UInt64) (pred : Nat)
    (i : Fin exitCount) : List (Option (Slot β)) :=
  edit slots target fun t =>
    if t.stamp = stamp then { t with preds := t.preds.filter (· ≠ (pred, i)) } else t

def dropExits (id : Nat) (slot : Slot β) (slots : List (Option (Slot β))) :
    List (Option (Slot β)) :=
  (List.finRange exitCount).foldl
    (fun slots i =>
      let link := slot.exits i
      if link.target ≠ noSlot then dropBackEdge slots link.target link.stamp id i else slots)
    slots

def patched (slots : List (Option (Slot β))) (id : Nat) (edge : Nat × Fin exitCount) : Bool :=
  (peek slots edge.1).any fun p => (p.exits edge.2).target = id

/-- Clear every exit pointing at `id`, with how many that is. -/
def unpatch (id : Nat) : List (Nat × Fin exitCount) → List (Option (Slot β)) →
    List (Option (Slot β)) × Nat
  | [], slots => (slots, 0)
  | edge :: preds, slots =>
    if patched slots id edge then
      let (slots, n) := unpatch id preds (edit slots edge.1 fun p =>
        { p with exits := Function.update p.exits edge.2 Link.empty })
      (slots, n + 1)
    else unpatch id preds slots

/-- Unlink `id` from the hash chain at `at_`, which is before it; `next` comes after it. -/
def unchain (id next : Nat) : Nat → Nat → List (Option (Slot β)) → List (Option (Slot β))
  | 0, _, slots => slots
  | fuel + 1, at_, slots =>
    if at_ = noSlot then slots
    else
      match peek slots at_ with
      | none => slots
      | some s =>
        if s.next = id then edit slots at_ fun s => { s with next := next }
        else unchain id next fuel s.next slots

/-- The half of removal that does not touch the page index. -/
def removeKeepingPage (c : BlockCache β) (id : Nat) : BlockCache β :=
  match peek c.slots id with
  | none => c
  | some slot =>
    let slots := dropExits id slot (c.slots.set id none)
    let (slots, unlinks) := unpatch id slot.preds slots
    let bucket := c.bucket slot.pc slot.key
    let stats := { c.stats with unlinks := c.stats.unlinks + unlinks }
    if c.head bucket = id then
      { c with slots, stats, buckets := c.buckets.set bucket slot.next, free := id :: c.free }
    else
      { c with
        slots := unchain id slot.next (c.slots.length + 1) (c.head bucket) slots
        stats
        free := id :: c.free }

def dropFromPage (pages : SortedMap Nat (List Nat)) (page : UInt64) (id : Nat) :
    SortedMap Nat (List Nat) :=
  match pages.get page.toNat with
  | none => pages
  | some list =>
    let list := list.filter (· ≠ id)
    if list.isEmpty then pages.erase page.toNat else pages.insert page.toNat list

def remove (c : BlockCache β) (id : Nat) : BlockCache β :=
  match peek c.slots id with
  | none => c.removeKeepingPage id
  | some slot => { c with pages := dropFromPage c.pages slot.page id }.removeKeepingPage id

def live (c : BlockCache β) (entry : Nat × UInt64) : Bool :=
  (peek c.slots entry.1).any fun s => s.stamp = entry.2

def evictFrom (c : BlockCache β) : List (Nat × UInt64) → Bool × BlockCache β
  | [] => (false, { c with order := [] })
  | entry :: order =>
    if c.live entry then
      let c := { c with order }.remove entry.1
      (true, { c with stats := { c.stats with evictions := c.stats.evictions + 1 } })
    else evictFrom c order

def evictOne (c : BlockCache β) : Bool × BlockCache β := c.evictFrom c.order

def makeRoom : Nat → BlockCache β → BlockCache β
  | 0, c => c
  | fuel + 1, c =>
    if c.capacity ≤ c.len then
      match c.evictOne with
      | (true, c) => makeRoom fuel c
      | (false, c) => c
    else c

def slotIndex (n : Nat) : Nat := if n < 2 ^ 32 then n else noSlot

def place (c : BlockCache β) (fresh : Slot β) : Nat × BlockCache β :=
  match c.free with
  | i :: free => (i, { c with slots := c.slots.set i (some fresh), free })
  | [] => (slotIndex c.slots.length, { c with slots := c.slots ++ [some fresh] })

/-- The second half of `insert`: put the block in, where no block has its pc and key and
there is room for it. -/
def install (c : BlockCache β) (pc key page : UInt64) (insns : Nat) (block : β) :
    BlockId × BlockCache β :=
  let page := pageOf page
  let stamp := c.nextStamp
  let c := { c with nextStamp := c.nextStamp + 1 }
  let fresh : Slot β :=
    { block, pc, key, page, insns, stamp, next := noSlot, exits := fun _ => Link.empty,
      preds := [], code := none }
  let (id, c) := c.place fresh
  let bucket := c.bucket pc key
  let head := c.head bucket
  (⟨id, stamp⟩,
    { c with
      slots := edit c.slots id fun slot => { slot with next := head }
      buckets := c.buckets.set bucket id
      pages := c.pages.insert page.toNat ((c.pages.get page.toNat).getD [] ++ [id])
      filter := markFilter c.filter page
      order := c.order ++ [(id, stamp)]
      stats := { c.stats with inserts := c.stats.inserts + 1 } })

def dropOld (c : BlockCache β) (pc key : UInt64) : BlockCache β :=
  match c.find pc key with
  | some old => c.remove old.slot
  | none => c

/-- Cache `block`, lifted from guest-physical page `page` and covering `insns` guest
instructions. A block already cached for the same `(pc, key)` is replaced. -/
def insert (c : BlockCache β) (pc key page : UInt64) (insns : Nat) (block : β) :
    BlockId × BlockCache β :=
  let c := c.dropOld pc key
  let c := makeRoom (c.len + 1) c
  c.install pc key page insns block

def setCode (c : BlockCache β) (id : BlockId) (code : CodeRef) : BlockCache β :=
  { c with
    slots := edit c.slots id.slot fun s =>
      if s.stamp = id.stamp then { s with code := some code } else s }

/-- Which exit a link would take. -/
inductive Choice where
  /-- An exit is patched to just this block already. -/
  | already
  | exit (i : Fin exitCount)
  /-- Every exit is patched to another pc. -/
  | full

/-- The exit for this pc if there is one, otherwise the first free one. -/
def chooseExit (links : Fin exitCount → Link) (pc : UInt64) (to_ : BlockId) :
    List (Fin exitCount) → Option (Fin exitCount) → Choice
  | [], none => .full
  | [], some i => .exit i
  | i :: rest, chosen =>
    if (links i).target ≠ noSlot ∧ (links i).pc = pc then
      if (links i).target = to_.slot ∧ (links i).stamp = to_.stamp then .already else .exit i
    else if (links i).target = noSlot ∧ chosen = none then chooseExit links pc to_ rest (some i)
    else chooseExit links pc to_ rest chosen

/-- The slots once exit `i` of slot `from_`, which was patched to `old`, is patched to the
block `to_`. -/
def patch (slots : List (Option (Slot β))) (from_ : Nat) (i : Fin exitCount) (old : Link)
    (pc : UInt64) (to_ : BlockId) : List (Option (Slot β)) :=
  let slots := edit slots from_ fun s =>
    { s with exits := Function.update s.exits i ⟨pc, to_.slot, to_.stamp⟩ }
  let slots :=
    if old.target ≠ noSlot then dropBackEdge slots old.target old.stamp from_ i else slots
  edit slots to_.slot fun t => { t with preds := t.preds ++ [(from_, i)] }

/-- Patch `from_`'s exit for guest pc `pc` to `to_`. -/
def link (c : BlockCache β) (from_ : BlockId) (pc : UInt64) (to_ : BlockId) : BlockCache β :=
  match c.slot to_, c.slot from_ with
  | some _, some slot =>
    match chooseExit slot.exits pc to_ (List.finRange exitCount) none with
    | .exit i =>
      { c with
        slots := patch c.slots from_.slot i (slot.exits i) pc to_
        stats := { c.stats with links := c.stats.links + 1 } }
    | _ => c
  | _, _ => c

def deadLink (c : BlockCache β) (target : Nat) : BlockCache β :=
  if (peek c.slots target).isSome then
    { c with stats := { c.stats with staleLinks := c.stats.staleLinks + 1 } }
  else c

def exitAt (s : Slot β) (pc : UInt64) : Option (Fin exitCount) :=
  (List.finRange exitCount).find? fun i => (s.exits i).target ≠ noSlot ∧ (s.exits i).pc = pc

/-- Follow `from_`'s patched exit for `(pc, key)`, if it has one. -/
def follow (c : BlockCache β) (from_ : BlockId) (pc key : UInt64) :
    Option BlockId × BlockCache β :=
  match c.slot from_ with
  | none => (none, c)
  | some s =>
    match exitAt s pc with
    | none => (none, c)
    | some i =>
      let id : BlockId := ⟨(s.exits i).target, (s.exits i).stamp⟩
      match c.slot id with
      | none => (none, c.deadLink (s.exits i).target)
      | some live =>
        if live.pc ≠ pc ∨ live.key ≠ key then (none, c)
        else (some id, { c with stats := { c.stats with chained := c.stats.chained + 1 } })

def invalidatePage (c : BlockCache β) (phys : UInt64) : Nat × BlockCache β :=
  let page := pageOf phys
  match c.pages.get page.toNat with
  | none => (0, c)
  | some ids =>
    (ids.length, ids.foldl removeKeepingPage { c with pages := c.pages.erase page.toNat })

def hitPage (c : BlockCache β) (page : UInt64) : Nat × BlockCache β :=
  if c.filterSet page then c.invalidatePage page
  else (0, { c with stats := { c.stats with filtered := c.stats.filtered + 1 } })

def hitPagesFrom (last : UInt64) : Nat → UInt64 → Nat → BlockCache β → Nat × BlockCache β
  | 0, _, hit, c => (hit, c)
  | fuel + 1, page, hit, c =>
    let (n, c) := c.hitPage page
    if last ≤ page then (hit + n, c)
    else hitPagesFrom last fuel (saturatingAdd page pageSize) (hit + n) c

def hitPages (c : BlockCache β) (first last : UInt64) : Nat × BlockCache β :=
  let (hit, c) := hitPagesFrom last ((last.toNat - first.toNat) / pageSize.toNat + 1) first 0 c
  (hit, { c with stats := { c.stats with smc := c.stats.smc + hit } })

/-- A guest store of `len` bytes at guest-physical `phys`, with how many translations it
invalidated. -/
def noteWrite (c : BlockCache β) (phys len : UInt64) : Nat × BlockCache β :=
  if len = 0 then (0, c)
  else
    let first := pageOf phys
    let last := pageOf (saturatingAdd phys (len - 1))
    if first = last then
      if c.filterSet first then c.hitPages first last
      else (0, { c with stats := { c.stats with filtered := c.stats.filtered + 1 } })
    else c.hitPages first last

def invalidate (c : BlockCache β) (id : BlockId) : Bool × BlockCache β :=
  if (c.slot id).isNone then (false, c) else (true, c.remove id.slot)

/-- Throw every block away. -/
def flush (c : BlockCache β) : BlockCache β :=
  { c with
    slots := []
    free := []
    buckets := List.replicate c.buckets.length noSlot
    pages := SortedMap.empty
    filter := List.replicate c.filter.length 0
    order := []
    stats := { c.stats with flushes := c.stats.flushes + 1 } }

def sync (c : BlockCache β) (epoch : Epoch) : Bool × BlockCache β :=
  let flush := epoch.topology != c.epoch.topology
  let c := { c with epoch }
  (flush, if flush then c.flush else c)

/-- One exit: its target is live, has the link's stamp and a back edge for it. -/
def checkExit (c : BlockCache β) (i : Nat) (slot : Slot β) (n : Fin exitCount) :
    Except String Unit :=
  let link := slot.exits n
  if link.target = noSlot then .ok ()
  else
    match peek c.slots link.target with
    | none => .error s!"block {i} exit {n} points at a freed slot"
    | some t =>
      if t.stamp ≠ link.stamp then .error s!"block {i} exit {n} points at a reused slot"
      else if (i, n) ∉ t.preds then .error s!"block {i} exit {n} has no matching back edge"
      else .ok ()

/-- A back edge has its link. -/
def checkBackEdge (c : BlockCache β) (i : Nat) (edge : Nat × Fin exitCount) : Except String Unit :=
  let (pred, n) := edge
  match peek c.slots pred with
  | none => .error s!"block {i} has a back edge from a freed slot"
  | some p =>
    if (p.exits n).target ≠ i then
      .error s!"block {i} has a back edge from {pred} exit {n}, which points elsewhere"
    else .ok ()

/-- A slot's links and back edges. -/
def checkSlot (c : BlockCache β) (i : Nat) (slot : Slot β) : Except String Unit := do
  (List.finRange exitCount).forM (c.checkExit i slot)
  slot.preds.forM (c.checkBackEdge i)
  if i ∈ (c.pages.get slot.page.toNat).getD [] then
    if c.filterSet slot.page then .ok ()
    else .error s!"block {i}'s page is not in the filter"
  else .error s!"block {i} is not in its page's index"

def checkPage (c : BlockCache β) (page : Nat) (id : Nat) : Except String Unit :=
  if (peek c.slots id).any fun s => s.page.toNat = page then .ok ()
  else
    let hex := String.ofList (Nat.toDigits 16 page)
    .error s!"page 0x{hex} indexes a block that is not there"

/-- The cache's own check of itself. -/
def check (c : BlockCache β) : Except String Unit := do
  (List.range c.slots.length).forM fun i => (peek c.slots i).elim (.ok ()) (c.checkSlot i)
  c.pages.entries.forM fun entry => entry.2.forM (c.checkPage entry.1)
  if c.stats.staleLinks ≠ 0 then
    let n := c.stats.staleLinks
    .error s!"{n} stale links were followed, so a back edge was not cleared"
  else .ok ()

end BlockCache

end Rsemu.Jit
