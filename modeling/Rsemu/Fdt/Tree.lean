import Rsemu.Base.Codec

/-!
# Device trees and their events

A device tree is a node with properties and children. Written down it is a sequence of events:
the node begins, its properties come in order, then its children, then it ends. `assemble` takes
such a sequence back to the tree with a stack of the nodes that are open, and refuses anything
else: a property outside any node or after a child, a second root, a root with a name.

`assemble_eq_some_iff` says that it accepts exactly the events of the trees whose root has no
name, and answers with that tree.
-/

namespace Rsemu.Fdt

open Codec (Bytes)

/-- A node with its properties and children. -/
inductive Node where
  | mk (name : Bytes) (props : List (Bytes × Bytes)) (children : List Node)

/-- A step of the walk over a tree. -/
inductive Event where
  | begin_ (name : Bytes)
  | prop (name value : Bytes)
  | end_

def Node.name : Node → Bytes
  | .mk name _ _ => name

def propEvents (props : List (Bytes × Bytes)) : List Event := props.map fun p => .prop p.1 p.2

mutual

/-- **The events of a tree.** -/
def Node.events : Node → List Event
  | .mk name props children =>
    .begin_ name :: (propEvents props ++ (allEvents children ++ [.end_]))

def allEvents : List Node → List Event
  | [] => []
  | n :: ns => n.events ++ allEvents ns

end

theorem allEvents_append (ns ms : List Node) :
    allEvents (ns ++ ms) = allEvents ns ++ allEvents ms := by
  induction ns with
  | nil => rfl
  | cons n ns ih => rw [List.cons_append, allEvents, allEvents, ih, List.append_assoc]

/-- A node that is still open. -/
structure Frame where
  name : Bytes
  props : List (Bytes × Bytes)
  children : List Node

def Frame.close (f : Frame) : Node := .mk f.name f.props f.children

/-- Put a tree together from its events: `open_` are the nodes that are open, the innermost
first. -/
def assemble : List Frame → List Event → Option Node
  | [], .begin_ name :: es => if name = [] then assemble [⟨name, [], []⟩] es else none
  | f :: open_, .begin_ name :: es => assemble (⟨name, [], []⟩ :: f :: open_) es
  | f :: open_, .prop name value :: es =>
    if f.children.isEmpty then assemble ({ f with props := f.props ++ [(name, value)] } :: open_) es
    else none
  | f :: g :: open_, .end_ :: es =>
    assemble ({ g with children := g.children ++ [f.close] } :: open_) es
  | [f], [.end_] => some f.close
  | _, _ => none

def opened : List Frame → List Event
  | [] => []
  | f :: open_ => opened open_ ++ (.begin_ f.name :: (propEvents f.props ++ allEvents f.children))

variable {open_ : List Frame}

theorem assemble_props {f : Frame} (hf : f.children = []) (props : List (Bytes × Bytes))
    (es : List Event) :
    assemble (f :: open_) (propEvents props ++ es) =
      assemble ({ f with props := f.props ++ props } :: open_) es := by
  induction props generalizing f with
  | nil =>
    rw [List.append_nil]
    rfl
  | cons p props ih =>
    have hstep : assemble (f :: open_) (propEvents (p :: props) ++ es) =
        assemble ({ f with props := f.props ++ [p] } :: open_) (propEvents props ++ es) := by
      change assemble (f :: open_) (.prop p.1 p.2 :: (propEvents props ++ es)) = _
      rw [assemble, hf]
      rfl
    rw [hstep, ih (f := { f with props := f.props ++ [p] }) hf, List.append_assoc]
    rfl

mutual

theorem assemble_node (n : Node) (f : Frame) (open_ : List Frame) (es : List Event) :
    assemble (f :: open_) (n.events ++ es) =
      assemble ({ f with children := f.children ++ [n] } :: open_) es := by
  cases n with
  | mk name props children =>
    rw [Node.events, List.cons_append, List.append_assoc, List.append_assoc, assemble,
      assemble_props rfl, assemble_all children]
    rfl

theorem assemble_all (ns : List Node) (f : Frame) (open_ : List Frame) (es : List Event) :
    assemble (f :: open_) (allEvents ns ++ es) =
      assemble ({ f with children := f.children ++ ns } :: open_) es := by
  cases ns with
  | nil =>
    rw [List.append_nil]
    rfl
  | cons n ns =>
    rw [allEvents, List.append_assoc, assemble_node n, assemble_all ns]
    simp

end

theorem opened_close (f : Frame) (es : List Event) :
    .begin_ f.name :: (propEvents f.props ++ allEvents f.children) ++ .end_ :: es =
      f.close.events ++ es := by
  rw [Frame.close, Node.events]
  simp

/-- The outermost open node is the unnamed root. -/
def Rooted (open_ : List Frame) : Prop := ∀ f ∈ open_.getLast?, f.name = []

theorem rooted_push {f g : Frame} : Rooted (f :: g :: open_) ↔ Rooted (g :: open_) := by
  unfold Rooted
  rw [List.getLast?_cons_cons]

theorem rooted_rename {f g : Frame} (hname : g.name = f.name) (h : Rooted (f :: open_)) :
    Rooted (g :: open_) := by
  cases open_ with
  | nil =>
    intro x hx
    cases hx
    exact hname.trans (h f rfl)
  | cons k open_ => exact rooted_push.mpr (rooted_push.mp h)

theorem events_of_assemble {es : List Event} {root : Node} (hrooted : Rooted open_)
    (h : assemble open_ es = some root) : root.name = [] ∧ root.events = opened open_ ++ es := by
  induction es generalizing open_ with
  | nil => rcases open_ with _ | ⟨f, _ | ⟨g, open_⟩⟩ <;> cases h
  | cons e es ih =>
    cases e with
    | begin_ name =>
      cases open_ with
      | nil =>
        rw [assemble] at h
        split at h
        · rename_i hname
          have hroot : Rooted [⟨name, [], []⟩] := fun f hf => by
            cases hf
            exact hname
          exact ih hroot h
        · cases h
      | cons f open_ =>
        obtain ⟨hroot, hevents⟩ := ih (rooted_push.mpr hrooted) h
        refine ⟨hroot, hevents.trans ?_⟩
        rw [opened, List.append_assoc]
        rfl
    | prop name value =>
      cases open_ with
      | nil => cases h
      | cons f open_ =>
        rw [assemble] at h
        split at h
        · rename_i hempty
          have hchildren := List.isEmpty_iff.mp hempty
          obtain ⟨hroot, hevents⟩ := ih (rooted_rename (by rfl) hrooted) h
          refine ⟨hroot, hevents.trans ?_⟩
          simp [opened, propEvents, hchildren, allEvents]
        · cases h
    | end_ =>
      rcases open_ with _ | ⟨f, _ | ⟨g, open_⟩⟩
      · cases h
      · -- the root ends, and nothing may follow it
        cases es with
        | cons e es => cases h
        | nil =>
          cases h
          refine ⟨hrooted f rfl, ?_⟩
          rw [← List.append_nil f.close.events, ← opened_close, opened, opened, List.nil_append]
      · obtain ⟨hroot, hevents⟩ := ih (rooted_rename (by rfl) (rooted_push.mp hrooted)) h
        refine ⟨hroot, hevents.trans ?_⟩
        rw [opened, opened, opened, List.append_assoc, List.append_assoc _ _ (.end_ :: es),
          opened_close, allEvents_append, allEvents, allEvents]
        simp

theorem assemble_eq_some_iff {es : List Event} {root : Node} :
    assemble [] es = some root ↔ root.name = [] ∧ root.events = es := by
  constructor
  · intro h
    exact events_of_assemble (fun f hf => by cases hf) h
  · rintro ⟨hname, rfl⟩
    cases root with
    | mk name props children =>
      obtain rfl : name = [] := hname
      rw [Node.events, assemble, if_pos rfl, assemble_props rfl, assemble_all children]
      rfl

end Rsemu.Fdt
