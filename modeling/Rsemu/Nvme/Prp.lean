import Mathlib.Logic.Relation
import Rsemu.Base.Memory

/-!
# Physical region pages

A command names the guest memory of a transfer with two entries. The first points anywhere in a
page; the second is the other page, or points at a list when there are more. A list is read slot
by slot to the end of its page, where the last slot points at the next list if more than one
page is left. `prpChunks` is the controller's walk; `Layout` is what the entries describe,
whatever page offset a list has.
-/

namespace Rsemu.Nvme

open Codec (fromLe)

def stSuccess : UInt16 := 0x0000
def stInvalidField : UInt16 := 0x0002
def stDataTransfer : UInt16 := 0x0004
def stPrpOffset : UInt16 := 0x0013
def stLbaRange : UInt16 := 0x0080
def stWriteFault : UInt16 := 0x0280
def stUnrecoveredRead : UInt16 := 0x0281

def maxPrpLists : Nat := 64

def maxTransfer : Nat := 4096 <<< 10

/-- An address and a length. -/
abbrev Chunk := Nat × Nat

/-- The PRP entries in memory, where they can be read. -/
abbrev Entries := Nat → Option Nat

def entries (mem : Memory) : Entries := fun slot => (mem.read slot 8).map fromLe

/-- How one list page ends. -/
inductive Turn where
  /-- Nothing is left. -/
  | done (out : List Chunk)
  /-- The last slot pointed at the next list. -/
  | chained (list remaining : Nat) (out : List Chunk)
  /-- There were no more slots. -/
  | stranded

/-- The slots of one list page, from the `i`-th on, of which there are so many. -/
def slots (es : Entries) (page list : Nat) : Nat → Nat → Nat → List Chunk → Except UInt16 Turn
  | 0, _, _, _ => .ok .stranded
  | more + 1, i, remaining, out =>
    match es (list + i * 8) with
    | none => .error stDataTransfer
    | some e =>
      if e % page ≠ 0 then .error stPrpOffset
      else if i + 1 = page / 8 ∧ page < remaining then .ok (.chained e remaining out)
      else if remaining - min remaining page = 0 then
        .ok (.done (out ++ [(e, min remaining page)]))
      else slots es page list more (i + 1) (remaining - min remaining page)
        (out ++ [(e, min remaining page)])

/-- The walk over so many lists. -/
def lists (es : Entries) (page : Nat) : Nat → Nat → Nat → List Chunk → Except UInt16 (List Chunk)
  | 0, _, _, _ => .error stDataTransfer
  | more + 1, list, remaining, out =>
    match slots es page list (page / 8) 0 remaining out with
    | .error status => .error status
    | .ok (.done out) => .ok out
    | .ok (.chained next left out) => lists es page more next left out
    | .ok .stranded => .error stDataTransfer

/-- **The guest ranges that a transfer of `len` bytes covers**, or why it has none. -/
def prpChunks (es : Entries) (prp1 prp2 len page : Nat) : Except UInt16 (List Chunk) :=
  if len = 0 then .ok []
  else
    let offset := prp1 % page
    if offset % 4 ≠ 0 then .error stPrpOffset
    else
      let first := min len (page - offset)
      let remaining := len - first
      if remaining = 0 then .ok [(prp1, first)]
      else if prp2 % page ≠ 0 then .error stPrpOffset
      else if remaining ≤ page then .ok [(prp1, first), (prp2, remaining)]
      else lists es page maxPrpLists prp2 remaining [(prp1, first)]

/-- A slot of a list, and how much is left to describe from it on. -/
structure Place where
  slot : Nat
  left : Nat

/-- The last entry of a list page that must point to the next. -/
def Place.Points (page : Nat) (p : Place) : Prop := page < p.left ∧ (p.slot + 8) % page = 0

/-- The chunks that a list describes from a slot on. -/
inductive Describes (es : Entries) (page : Nat) : Place → List Chunk → Prop where
  | last {slot left e : Nat} (he : es slot = some e) (halign : e % page = 0)
      (hleft : left ≤ page) : Describes es page ⟨slot, left⟩ [(e, left)]
  | data {slot left e : Nat} {cs : List Chunk} (he : es slot = some e)
      (halign : e % page = 0) (hleft : page < left) (hslot : (slot + 8) % page ≠ 0)
      (rest : Describes es page ⟨slot + 8, left - page⟩ cs) :
      Describes es page ⟨slot, left⟩ ((e, page) :: cs)
  | chain {slot left e : Nat} {cs : List Chunk} (he : es slot = some e)
      (halign : e % 8 = 0) (hleft : page < left) (hslot : (slot + 8) % page = 0)
      (rest : Describes es page ⟨e, left⟩ cs) : Describes es page ⟨slot, left⟩ cs

/-- From one slot to the next one that is looked at. -/
inductive Step (es : Entries) (page : Nat) : Place → Place → Prop where
  | data {slot left e : Nat} (he : es slot = some e) (halign : e % page = 0)
      (hleft : page < left) (hslot : (slot + 8) % page ≠ 0) :
      Step es page ⟨slot, left⟩ ⟨slot + 8, left - page⟩
  | chain {slot left e : Nat} (he : es slot = some e) (halign : e % 8 = 0)
      (hleft : page < left) (hslot : (slot + 8) % page = 0) : Step es page ⟨slot, left⟩ ⟨e, left⟩

/-- Some steps of the walk lead from one place to the other. -/
abbrev Visits (es : Entries) (page : Nat) : Place → Place → Prop :=
  Relation.ReflTransGen (Step es page)

def leftOver (prp1 len page : Nat) : Nat := len - min len (page - prp1 % page)

/-- **The chunks that a command's entries describe.** -/
inductive Layout (es : Entries) (prp1 prp2 len page : Nat) : List Chunk → Prop where
  | empty (hlen : len = 0) : Layout es prp1 prp2 len page []
  | one (hlen : 0 < len) (halign : prp1 % page % 4 = 0) (hleft : leftOver prp1 len page = 0) :
      Layout es prp1 prp2 len page [(prp1, len)]
  | two (halign : prp1 % page % 4 = 0) (hpos : 0 < leftOver prp1 len page)
      (hleft : leftOver prp1 len page ≤ page) (halign₂ : prp2 % page = 0) :
      Layout es prp1 prp2 len page
        [(prp1, page - prp1 % page), (prp2, leftOver prp1 len page)]
  | more {cs : List Chunk} (halign : prp1 % page % 4 = 0) (hleft : page < leftOver prp1 len page)
      (halign₂ : prp2 % 8 = 0) (rest : Describes es page ⟨prp2, leftOver prp1 len page⟩ cs) :
      Layout es prp1 prp2 len page ((prp1, page - prp1 % page) :: cs)

/-- An entry breaks the alignment rule of its role. -/
def Place.Misaligned (es : Entries) (page : Nat) (p : Place) : Prop :=
  ∃ e, es p.slot = some e ∧
    (p.Points page ∧ e % 8 ≠ 0 ∨ ¬ p.Points page ∧ e % page ≠ 0)

/-- A pointer to the next list page that is not page aligned. -/
def Place.PointsInside (es : Entries) (page : Nat) (p : Place) : Prop :=
  p.Points page ∧ ∃ e, es p.slot = some e ∧ e % 8 = 0 ∧ e % page ≠ 0

/-- **Some entry is misaligned.** -/
inductive Misaligned (es : Entries) (prp1 prp2 len page : Nat) : Prop where
  | first (hlen : 0 < len) (h : prp1 % page % 4 ≠ 0)
  | second (hpos : 0 < leftOver prp1 len page) (hleft : leftOver prp1 len page ≤ page)
      (h : prp2 % page ≠ 0)
  | list (hleft : page < leftOver prp1 len page) (h : prp2 % 8 ≠ 0)
  | inList (hleft : page < leftOver prp1 len page) (halign₂ : prp2 % 8 = 0) {p : Place}
      (hvisits : Visits es page ⟨prp2, leftOver prp1 len page⟩ p) (h : p.Misaligned es page)

/-- **Some list starts inside a page**, and is pointed at properly. -/
inductive StartsInside (es : Entries) (prp1 prp2 len page : Nat) : Prop where
  | first (halign : prp1 % page % 4 = 0) (hleft : page < leftOver prp1 len page)
      (halign₂ : prp2 % 8 = 0) (h : prp2 % page ≠ 0)
  | chained (halign : prp1 % page % 4 = 0) (hleft : page < leftOver prp1 len page)
      (halign₂ : prp2 % 8 = 0) {p : Place}
      (hvisits : Visits es page ⟨prp2, leftOver prp1 len page⟩ p) (h : p.PointsInside es page)

end Rsemu.Nvme
