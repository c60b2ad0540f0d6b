import Rsemu.Base.Blocks
import Mathlib.Data.List.Sort
import Mathlib.Data.Finset.Basic

/-!
# The event queue

Posted events wait in a timing wheel of four levels of 256 slots, and in a heap when
they are further away than the wheel reaches. An event whose granule has come is in the
due heap. A level holds events by their block at that level, in the slot that is the
block's last eight bits; when the queue moves on, level 0 is emptied up to the new
position into the due heap, the other levels are emptied up to theirs and their events
placed again, and what has come within reach is taken from the far heap.

A heap is modelled by the list of its events in the order it gives them out, and the
wheel by the function from bucket numbers to buckets. Times are the raw 128-bit numbers,
sequence numbers wrap at 64 bits.
-/

namespace Rsemu.Sched

open Blocks

/-- An event. -/
structure Event where
  time : Nat
  id : Nat
  target : Nat
  token : Nat
  deriving DecidableEq

/-- Earlier, or at the same time and scheduled first. -/
def Event.le (a b : Event) : Prop := a.time < b.time ∨ a.time = b.time ∧ a.id ≤ b.id

instance : DecidableRel Event.le := fun a b =>
  inferInstanceAs (Decidable (a.time < b.time ∨ a.time = b.time ∧ a.id ≤ b.id))

def wheelLevels : Nat := 4

def wheelSlotBits : Nat := 8

def wheelSlots : Nat := 2 ^ wheelSlotBits

/-- Where an event is kept. -/
inductive Placement where
  | due
  | near (level slot : Nat)
  | far
  deriving DecidableEq

/-- Why a snapshot is refused. -/
inductive SnapshotError where
  | notBelow
  | shared
  deriving DecidableEq

/-- The timer wheel. -/
structure EventQueue where
  now : Nat
  nowGranule : Nat
  granuleShift : Nat
  /-- The buckets, level by level. -/
  near : Nat → List Event
  /-- Entries per level. -/
  levelLen : Nat → Nat
  far : List Event
  due : List Event
  cancelled : Finset Nat
  nextSeq : Nat

namespace EventQueue

def new (granuleShift : Nat) : EventQueue :=
  ⟨0, 0, min granuleShift 96, fun _ => [], fun _ => 0, [], [], ∅, 0⟩

/-- The bucket of a granule: the finest level that reaches it. -/
def placementAt (nowGranule granule : Nat) : List Nat → Placement
  | [] => .far
  | level :: levels =>
    let delta := block wheelSlotBits level granule - block wheelSlotBits level nowGranule
    if delta = 0 then .due
    else if delta < wheelSlots then .near level (block wheelSlotBits level granule % wheelSlots)
    else placementAt nowGranule granule levels

def placement (q : EventQueue) (time : Nat) : Placement :=
  if time ≤ q.now then .due
  else placementAt q.nowGranule (time >>> q.granuleShift) (List.range wheelLevels)

def heapPush (heap : List Event) (e : Event) : List Event := heap.orderedInsert Event.le e

def pushDue (q : EventQueue) (e : Event) : EventQueue := { q with due := heapPush q.due e }

def pushNear (q : EventQueue) (level slot : Nat) (e : Event) : EventQueue :=
  let idx := level * wheelSlots + slot
  { q with
    near := Function.update q.near idx (q.near idx ++ [e])
    levelLen := Function.update q.levelLen level (q.levelLen level + 1) }

def pushEntry (q : EventQueue) (e : Event) : EventQueue :=
  match q.placement e.time with
  | .due => q.pushDue e
  | .near level slot => q.pushNear level slot e
  | .far => { q with far := heapPush q.far e }

def schedule (q : EventQueue) (time target token : Nat) : Nat × EventQueue :=
  (q.nextSeq, { q with nextSeq := (q.nextSeq + 1) % 2 ^ 64 }.pushEntry
    ⟨time, q.nextSeq, target, token⟩)

def cancel (q : EventQueue) (id : Nat) : EventQueue :=
  { q with cancelled := insert id q.cancelled }

def drainSlot (q : EventQueue) (level slot : Nat) : List Event × EventQueue :=
  let idx := level * wheelSlots + slot
  (q.near idx, { q with
    near := Function.update q.near idx []
    levelLen := Function.update q.levelLen level (q.levelLen level - (q.near idx).length) })

def sweep (put : EventQueue → Event → EventQueue) (level old : Nat) : Nat → EventQueue → EventQueue
  | 0, q => q
  | steps + 1, q =>
    let q := sweep put level old steps q
    let out := q.drainSlot level ((old + (steps + 1)) % wheelSlots)
    out.1.foldl put out.2

/-- A level emptied up to the new position. -/
def sweepLevel (put : EventQueue → Event → EventQueue) (oldGranule newGranule : Nat)
    (q : EventQueue) (level : Nat) : EventQueue :=
  let oldIndex := block wheelSlotBits level oldGranule
  let newIndex := block wheelSlotBits level newGranule
  if oldIndex = newIndex then q
  else sweep put level oldIndex (min (newIndex - oldIndex) wheelSlots) q

def pullFar (q : EventQueue) : List Event → EventQueue
  | [] => { q with far := [] }
  | e :: rest =>
    if q.placement e.time = .far then { q with far := e :: rest }
    else pullFar (q.pushEntry e) rest

/-- Move the position forward, cascading the wheel. -/
def advanceTo (q : EventQueue) (to_ : Nat) : EventQueue :=
  if to_ ≤ q.now then q
  else
    let oldGranule := q.nowGranule
    let newGranule := to_ >>> q.granuleShift
    let q := { q with now := to_ }
    if newGranule = oldGranule then q
    else
      let q := { q with nowGranule := newGranule }
      let q := q.sweepLevel pushDue oldGranule newGranule 0
      let q := (List.range' 1 (wheelLevels - 1)).foldl
        (fun q level => q.sweepLevel pushEntry oldGranule newGranule level) q
      q.pullFar q.far

/-- The first due event that was not cancelled. -/
def popLoop (q : EventQueue) (now : Nat) : List Event → Option Event × EventQueue
  | [] => (none, { q with due := [] })
  | e :: rest =>
    if e.time ≤ now then
      if e.id ∈ q.cancelled then popLoop { q with cancelled := q.cancelled.erase e.id } now rest
      else (some e, { q with due := rest })
    else (none, { q with due := e :: rest })

def popDue (q : EventQueue) (now : Nat) : Option Event × EventQueue :=
  let q := q.advanceTo now
  q.popLoop now q.due

def purgeCancelledDue (q : EventQueue) : List Event → EventQueue
  | [] => { q with due := [] }
  | e :: rest =>
    if e.id ∈ q.cancelled then
      purgeCancelledDue { q with cancelled := q.cancelled.erase e.id } rest
    else { q with due := e :: rest }

def earliest (q : EventQueue) (bucket : List Event) : Option Nat :=
  ((bucket.filter fun e => e.id ∉ q.cancelled).map Event.time).min?

def scanLevel (q : EventQueue) (level : Nat) : Option Nat :=
  if q.levelLen level = 0 then none
  else
    (List.range' 1 (wheelSlots - 1)).findSome? fun step =>
      q.earliest (q.near (level * wheelSlots +
        (block wheelSlotBits level q.nowGranule + step) % wheelSlots))

def nextDeadline (q : EventQueue) : Option Nat × EventQueue :=
  let q := q.purgeCancelledDue q.due
  match q.due.head? with
  | some e => (some e.time, q)
  | none =>
    match (List.range wheelLevels).findSome? q.scanLevel with
    | some time => (some time, q)
    | none => (q.far.head?.map Event.time, q)

def nearEvents (q : EventQueue) : List Event := pool q.near (wheelLevels * wheelSlots)

def contents (q : EventQueue) : List Event := q.due ++ (q.nearEvents ++ q.far)

def events (q : EventQueue) : List Event :=
  (q.contents.filter fun e => e.id ∉ q.cancelled).insertionSort Event.le

def checkIds (nextSeq : Nat) : List Event → Finset Nat → Except SnapshotError Unit
  | [], _ => .ok ()
  | e :: es, seen =>
    if nextSeq ≤ e.id then .error .notBelow
    else if e.id ∈ seen then .error .shared
    else checkIds nextSeq es (insert e.id seen)

/-- An empty queue at a position, with the granule it had. -/
def cleared (q : EventQueue) (now nextSeq : Nat) : EventQueue :=
  { q with
    near := fun _ => []
    levelLen := fun _ => 0
    far := []
    due := []
    cancelled := ∅
    now := now
    nowGranule := now >>> q.granuleShift
    nextSeq := nextSeq }

def restore (q : EventQueue) (now nextSeq : Nat) (events : List Event) :
    Except SnapshotError EventQueue :=
  match checkIds nextSeq events ∅ with
  | .error e => .error e
  | .ok () => .ok (events.foldl pushEntry (q.cleared now nextSeq))

end EventQueue

end Rsemu.Sched
