import Rsemu.Base.Sweep
import Rsemu.Space.Region

/-!
# Flattening

`FlatView::build` and everything under it: a region tree becomes a sorted list of
non-overlapping entries, each naming the memory or device that answers there and
the offset inside it.

A window is resolved in its own coordinates into *pieces*; a container places its
children's pieces as *candidates*, decides every interval between two candidate
boundaries, and merges the cuts that changed nothing. Reads and writes are decided
separately, so a piece may carry two leaves, the one that answers reads and the one
that answers writes: a *directed* piece.

`levels` counts the nesting that is left: the source counts up from 0 and refuses
beyond `maxDepth`. The number that identifies a device in a trace is left out of
`FlatTarget`; it takes no part in any decision.
-/

namespace Rsemu.Space

open Word

/-- What answers at a leaf. -/
inductive FlatTarget where
  | ram (store : Store)
  | rom (store : Store) (onWrite : RomWrite)
  | io (ops : MemOps)
  deriving DecidableEq

def maxDepth : Nat := 64

/-- A leaf, and how an offset into it is computed. -/
structure LeafSpec where
  target : FlatTarget
  fixed : Nat
  /-- The aliases whose cells are added to `fixed`. -/
  terms : List AliasId
  /-- The number of bytes the offset wraps at, or 0. -/
  period : Nat
  constraints : AccessConstraints
  perms : Perms
  deriving DecidableEq

namespace LeafSpec

def offset (cells : Cells) (l : LeafSpec) : Nat :=
  l.terms.foldl (fun v id => wrappingAdd 64 v (cells id)) l.fixed

def cut (n : Nat) (l : LeafSpec) : LeafSpec := { l with fixed := wrappingAdd 64 l.fixed n }

def continues (l next : LeafSpec) (len : Nat) : Bool :=
  if l.period ≠ 0 ∨ next.period ≠ 0 then false
  else
    l.target == next.target && l.constraints == next.constraints && l.perms == next.perms
      && l.terms == next.terms && wrappingAdd 64 l.fixed len == next.fixed

end LeafSpec

/-- What answers over a range: the leaves, and how they share it. -/
structure Answer where
  leaves : List LeafSpec
  combine : CombinePolicy
  /-- Whether `leaves` is the read winner and the write winner. -/
  directed : Bool
  deriving DecidableEq

def Answer.answers (a : Answer) (want : Perms) : Bool := a.leaves.any fun l => l.perms.contains want

/-- A resolved, non-overlapping range, relative to the window that was asked for. -/
structure Piece extends Answer where
  start : Nat
  len : Nat
  deriving DecidableEq

/-- A candidate placement inside a container, before overlaps are resolved. -/
structure Cand extends Answer where
  start : Nat
  len : Nat
  priority : Int
  seq : Nat

namespace Cand

def stop (c : Cand) : Nat := saturatingAdd 64 c.start c.len

def cut (a : Nat) (c : Cand) : Answer :=
  { c.toAnswer with leaves := c.leaves.map (·.cut (a - c.start)) }

end Cand

/--
`i` is consulted before `j`: higher priority first, then the later mapping, then
the later candidate. Candidates are paired with their position in the list.
-/
def Ahead (i j : Cand × Nat) : Prop :=
  j.1.priority < i.1.priority ∨ i.1.priority = j.1.priority ∧
    (j.1.seq < i.1.seq ∨ i.1.seq = j.1.seq ∧ j.2 ≤ i.2)

instance : DecidableRel Ahead := fun _ _ => inferInstanceAs (Decidable (_ ∨ _))

/-- What one interval resolves to, given what covers it, in rank order. -/
def choose (combine : CombinePolicy) (active : List Answer) : Answer :=
  if combine ≠ .priority then ⟨active.flatMap (·.leaves), combine, false⟩
  else
    match active.find? (·.answers .read), active.find? (·.answers .write) with
    | some r, some w =>
      -- a candidate is active once, so comparing positions compares candidates
      if active.findIdx (·.answers .read) ≠ active.findIdx (·.answers .write)
          ∧ r.leaves.length = 1 ∧ w.leaves.length = 1 then
        ⟨r.leaves ++ w.leaves, .priority, true⟩
      else r
    | some r, none => r
    | none, some w => w
    | none, none => active.headD ⟨[], .priority, false⟩

def Piece.extendedBy (prev piece : Piece) : Bool :=
  wrappingAdd 64 prev.start prev.len == piece.start && prev.combine == piece.combine
    && prev.directed == piece.directed && prev.leaves.length == piece.leaves.length
    && (prev.leaves.zip piece.leaves).all fun p => p.1.continues p.2 prev.len

def pushPiece (piece : Piece) : List Piece → List Piece
  | [] => [piece]
  | prev :: rest =>
    if prev.extendedBy piece then { prev with len := prev.len + piece.len } :: rest
    else piece :: prev :: rest

def emitPiece (combine : CombinePolicy) (a b : Nat) (active : List (Cand × Nat))
    (pieces : List Piece) : List Piece :=
  pushPiece { choose combine (active.map fun i => i.1.cut a) with start := a, len := b - a } pieces

def resolveOverlaps (cands : List Cand) (combine : CombinePolicy) : List Piece :=
  (Sweep.sweep (fun i : Cand × Nat => i.1.start) (fun i => i.1.stop) Ahead (emitPiece combine)
    cands.zipIdx []).reverse

def gather {ε α β : Type} (f : α → Except ε (List β)) : List α → Except ε (List β)
  | [] => .ok []
  | a :: as => do
    let x ← f a
    let xs ← gather f as
    .ok (x ++ xs)

/-- The candidates one child contributes to the window `[off, wantEnd)` of its container. -/
def childCands (resolve : Region → Nat → Nat → Perms → Except ConfigError (List Piece))
    (limit off wantEnd : Nat) (perms : Perms) (child : Mapping Region × Nat) :
    Except ConfigError (List Cand) :=
  let m := child.1
  let a := max m.base off
  let b := min (min m.stop limit) wantEnd
  if b ≤ a then .ok []
  else do
    let sub ← resolve m.region (a - m.base) (b - a) (perms.intersect m.perms)
    .ok (sub.map fun p =>
      { p.toAnswer with
        start := a - off + p.start, len := p.len, priority := m.priority, seq := child.2 })

/-- The pieces of every child, placed and cut to the window. -/
def resolveChildren (resolve : Region → Nat → Nat → Perms → Except ConfigError (List Piece))
    (children : List (Mapping Region)) (limit off len : Nat) (combine : CombinePolicy)
    (perms : Perms) : Except ConfigError (List Piece) := do
  let cands ← gather (childCands resolve limit off (saturatingAdd 64 off len) perms)
    children.zipIdx
  .ok (resolveOverlaps cands combine)

def leafTarget (r : Region) : Option FlatTarget :=
  match r.kind with
  | .ram store => some (.ram store)
  | .rom store onWrite => some (.rom store onWrite)
  | .io ops => some (.io ops)
  | .alias _ => none
  | .container _ _ => none

def leafPiece (len : Nat) (leaf : LeafSpec) : List Piece :=
  [{ start := 0, len := len, leaves := [leaf], combine := .priority, directed := false }]

/-- A leaf as it is seen through a window. -/
def windowLeaf (cells : Cells) (r : Region) (a : Alias Region) (l : LeafSpec) : LeafSpec :=
  let l := if r.constraints ≠ a.target.constraints then { l with constraints := r.constraints }
    else l
  if a.rebasable then
    -- the cell is inside every `fixed`; move it out into a term
    { l with fixed := wrappingSub 64 l.fixed (cells a.id), terms := l.terms ++ [a.id] }
  else l

/-- Resolve the window of `len` bytes at `off` of a region. -/
def resolveRegion (cells : Cells) : Nat → Region → Nat → Nat → Perms →
    Except ConfigError (List Piece)
  | 0, r, _, _, _ => .error ⟨r.name, "region tree nests too deeply"⟩
  | levels + 1, r, off, len, perms =>
    let len := min len (r.len - off)
    if len = 0 then .ok []
    else
      match r.kind with
      | .ram store => .ok (leafPiece len ⟨.ram store, off, [], 0, r.constraints, perms⟩)
      | .rom store onWrite =>
        .ok (leafPiece len ⟨.rom store onWrite, off, [], 0, r.constraints, perms⟩)
      | .io ops => .ok (leafPiece len ⟨.io ops, off, [], 0, r.constraints, perms⟩)
      | .alias a =>
        if a.repeats then
          -- `Alias::period` is the target's size: a mirrored region is not empty
          match leafTarget a.target with
          | none => .error ⟨r.name, "a repeating window's target must be a leaf"⟩
          | some target =>
            .ok (leafPiece len
              ⟨target, off % a.target.len, [], a.target.len, r.constraints, perms⟩)
        else do
          let sub ← resolveRegion cells levels a.target (wrappingAdd 64 (cells a.id) off) len
            (perms.intersect .rwx)
          .ok (sub.map fun p => { p with leaves := p.leaves.map (windowLeaf cells r a) })
      | .container children combine =>
        resolveChildren (resolveRegion cells levels) children r.len off len combine perms

/-- A leaf of the built view. -/
structure FlatLeaf where
  target : FlatTarget
  /-- `fixed` plus the cells of `terms`, as of the last time it was computed. -/
  offset : Nat
  fixed : Nat
  terms : List AliasId
  period : Nat
  constraints : AccessConstraints
  perms : Perms

namespace FlatLeaf

def offsetOf (l : FlatLeaf) (rel : Nat) : Nat :=
  let raw := wrappingAdd 64 l.offset rel
  if l.period = 0 then raw else raw % l.period

def recompute (cells : Cells) (l : FlatLeaf) : FlatLeaf :=
  { l with offset := l.terms.foldl (fun v id => wrappingAdd 64 v (cells id)) l.fixed }

end FlatLeaf

def LeafSpec.intoLeaf (cells : Cells) (l : LeafSpec) : FlatLeaf :=
  ⟨l.target, l.offset cells, l.fixed, l.terms, l.period, l.constraints, l.perms⟩

/-- Who answers in an entry. -/
inductive EntryKind where
  | single (leaf : FlatLeaf)
  | combine (policy : CombinePolicy) (members : List FlatLeaf)

/-- An entry of the flat view. -/
structure FlatEntry where
  start : Nat
  len : Nat
  kind : EntryKind
  /-- Where a write goes, when that is not `kind`. -/
  writeTo : Option FlatLeaf

def writeSide : Nat := 2 ^ 32 - 1

namespace FlatEntry

def stop (e : FlatEntry) : Nat := wrappingAdd 64 e.start e.len

/-- A piece as an entry of the view. -/
def fromPiece (cells : Cells) (p : Piece) : FlatEntry :=
  match p.directed, p.leaves with
  | true, [read, write] =>
    ⟨p.start, p.len, .single (read.intoLeaf cells), some (write.intoLeaf cells)⟩
  | _, [leaf] => ⟨p.start, p.len, .single (leaf.intoLeaf cells), none⟩
  | _, leaves => ⟨p.start, p.len, .combine p.combine (leaves.map (·.intoLeaf cells)), none⟩

def members (e : FlatEntry) : List FlatLeaf :=
  match e.kind with
  | .single l => [l]
  | .combine _ ms => ms

def indexedLeaves (e : FlatEntry) : List (Nat × FlatLeaf) :=
  (e.members.zipIdx.map fun p => (p.2, p.1)) ++ (e.writeTo.map fun l => (writeSide, l)).toList

def readers (e : FlatEntry) : List FlatLeaf := e.members.filter (·.perms.contains .read)

def writers (e : FlatEntry) : List FlatLeaf :=
  (match e.writeTo with
    | some l => [l]
    | none => e.members).filter (·.perms.contains .write)

/-- One leaf of an entry recomputed. -/
def refresh (cells : Cells) (index : Nat) (e : FlatEntry) : FlatEntry :=
  if index = writeSide then { e with writeTo := e.writeTo.map (·.recompute cells) }
  else
    match e.kind with
    | .single l => if index = 0 then { e with kind := .single (l.recompute cells) } else e
    | .combine policy ms => { e with kind := .combine policy (ms.modify index (·.recompute cells)) }

end FlatEntry

/-- The entries and leaves that an alias's offset is in. -/
abbrev RebaseIndex := AliasId → List (Nat × Nat)

/-- The flattened, sorted, non-overlapping view of an address space. -/
structure FlatView where
  entries : List FlatEntry

namespace FlatView

def positions (entries : List FlatEntry) : List (AliasId × Nat × Nat) :=
  entries.zipIdx.flatMap fun e => e.1.indexedLeaves.flatMap fun m =>
    m.2.terms.map fun id => (id, e.2 % 2 ^ 32, min m.1 (2 ^ 32 - 1))

def indexOf (entries : List FlatEntry) : RebaseIndex := fun id =>
  (positions entries).filterMap fun p => if p.1 = id then some p.2 else none

/-- The view of a list of mappings, and its index. -/
def build (cells : Cells) (children : List (Mapping Region)) (limit : Nat)
    (combine : CombinePolicy) : Except ConfigError (FlatView × RebaseIndex) := do
  let pieces ← resolveChildren (resolveRegion cells maxDepth) children limit 0 limit combine .rwx
  let entries := pieces.map (FlatEntry.fromPiece cells)
  .ok (⟨entries⟩, indexOf entries)

def find (v : FlatView) (addr : Nat) : Option Nat :=
  let i := (v.entries.takeWhile fun e => e.start ≤ addr).length
  if i = 0 then none
  else
    match v.entries[i - 1]? with
    | none => none
    | some e => if addr < e.stop then some (i - 1) else none

def rebase (cells : Cells) (index : RebaseIndex) (id : AliasId) (v : FlatView) : FlatView :=
  ⟨(index id).foldl (fun es p => es.modify p.1 (FlatEntry.refresh cells p.2)) v.entries⟩

end FlatView

end Rsemu.Space
