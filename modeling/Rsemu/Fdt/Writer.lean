import Rsemu.Fdt.Tree

/-!
# Writing a flattened device tree

A builder with a cursor: `beginNode` opens a node, `endNode` closes it, and properties attach to
whichever is open. The structure block and the strings block grow as the calls come; `finish`
puts the header and the reservation block before them. Of the shape of the tree the builder knows
only how many nodes are open.
-/

namespace Rsemu.Fdt

open Codec (Bytes leBytes)

def beBytes (n v : Nat) : Bytes := (leBytes n v).reverse

def be32 (v : UInt32) : Bytes := beBytes 4 v.toNat

def be64 (v : UInt64) : Bytes := beBytes 8 v.toNat

def fdtMagic : UInt32 := 0xd00dfeed
def fdtVersion : UInt32 := 17
def fdtLastCompVersion : UInt32 := 16

def tokBeginNode : UInt32 := 1
def tokEndNode : UInt32 := 2
def tokProp : UInt32 := 3
def tokEnd : UInt32 := 9

def headerLen : Nat := 40

/-- An error and where it arose. -/
structure FdtError where
  at_ : String
  message : String

def malformed {α : Type} (message : String) : Except FdtError α := .error ⟨"device tree", message⟩

def pad4 (bytes : Bytes) : Bytes := bytes ++ List.replicate ((4 - bytes.length % 4) % 4) 0

/-- The blocks written so far. -/
structure FdtWriter where
  structs : Bytes := []
  strings : Bytes := []
  /-- Name to offset in `strings`. -/
  interned : List (Bytes × UInt32) := []
  reservations : List (UInt64 × UInt64) := []
  depth : Nat := 0
  bootCpu : UInt32 := 0

namespace FdtWriter

variable (w : FdtWriter)

def setBootCpu (id : UInt32) : FdtWriter := { w with bootCpu := id }

def reserve (address size : UInt64) : FdtWriter :=
  { w with reservations := w.reservations ++ [(address, size)] }

def beginNode (name : Bytes) : FdtWriter :=
  { w with
    structs := pad4 (w.structs ++ be32 tokBeginNode ++ name ++ [0])
    depth := w.depth + 1 }

def endNode : Except FdtError FdtWriter :=
  if w.depth = 0 then malformed "`end_node` with no node open"
  else .ok { w with depth := w.depth - 1, structs := w.structs ++ be32 tokEndNode }

def intern (name : Bytes) : FdtWriter × UInt32 :=
  match w.interned.lookup name with
  | some off => (w, off)
  | none =>
    let off := UInt32.ofNat w.strings.length
    ({ w with strings := w.strings ++ name ++ [0], interned := (name, off) :: w.interned }, off)

def propBytes (name value : Bytes) : FdtWriter :=
  let (w, nameOff) := w.intern name
  { w with
    structs := pad4 (w.structs ++ be32 tokProp ++ be32 (UInt32.ofNat value.length) ++ be32 nameOff ++
      value) }

def propEmpty (name : Bytes) : FdtWriter := w.propBytes name []

def propStr (name value : Bytes) : FdtWriter := w.propBytes name (value ++ [0])

def propStrList (name : Bytes) (values : List Bytes) : FdtWriter :=
  w.propBytes name (values.flatMap fun value => value ++ [0])

def propU32 (name : Bytes) (value : UInt32) : FdtWriter := w.propBytes name (be32 value)

def propU64 (name : Bytes) (value : UInt64) : FdtWriter := w.propBytes name (be64 value)

def propCells (name : Bytes) (cells : List UInt32) : FdtWriter :=
  w.propBytes name (cells.flatMap be32)

def regName : Bytes := [0x72, 0x65, 0x67]

def propReg64 (pairs : List (UInt64 × UInt64)) : FdtWriter :=
  w.propCells regName (pairs.flatMap fun (addr, size) =>
    [(addr >>> 32).toUInt32, addr.toUInt32, (size >>> 32).toUInt32, size.toUInt32])

def fits (v : Nat) : Except FdtError UInt32 :=
  if v < 2 ^ 32 then .ok (UInt32.ofNat v) else malformed "tree does not fit in 4 GiB"

def rsv : Bytes :=
  (w.reservations.flatMap fun (address, size) => be64 address ++ be64 size) ++ be64 0 ++ be64 0

/-- Finish the tree and produce the DTB. -/
def finish : Except FdtError Bytes :=
  if w.depth ≠ 0 then
    let depth := w.depth
    malformed s!"{depth} node(s) left open at the end of the tree"
  else do
    let structs := w.structs ++ be32 tokEnd
    let offMemRsvmap := headerLen
    let offDtStruct := offMemRsvmap + w.rsv.length
    let offDtStrings := offDtStruct + structs.length
    let total := offDtStrings + w.strings.length
    let total ← fits total
    let offDtStruct ← fits offDtStruct
    let offDtStrings ← fits offDtStrings
    let offMemRsvmap ← fits offMemRsvmap
    let sizeDtStrings ← fits w.strings.length
    let sizeDtStruct ← fits structs.length
    let header := [fdtMagic, total, offDtStruct, offDtStrings, offMemRsvmap, fdtVersion,
      fdtLastCompVersion, w.bootCpu, sizeDtStrings, sizeDtStruct]
    return header.flatMap be32 ++ w.rsv ++ structs ++ w.strings

end FdtWriter

/-- The calls on a writer. -/
inductive Call where
  | beginNode (name : Bytes)
  | endNode
  | propBytes (name value : Bytes)
  | propEmpty (name : Bytes)
  | propStr (name value : Bytes)
  | propStrList (name : Bytes) (values : List Bytes)
  | propU32 (name : Bytes) (value : UInt32)
  | propU64 (name : Bytes) (value : UInt64)
  | propCells (name : Bytes) (cells : List UInt32)
  | propReg64 (pairs : List (UInt64 × UInt64))
  | reserve (address size : UInt64)
  | setBootCpu (id : UInt32)

/-- Make a call. -/
def FdtWriter.call (w : FdtWriter) : Call → Except FdtError FdtWriter
  | .beginNode name => .ok (w.beginNode name)
  | .endNode => w.endNode
  | .propBytes name value => .ok (w.propBytes name value)
  | .propEmpty name => .ok (w.propEmpty name)
  | .propStr name value => .ok (w.propStr name value)
  | .propStrList name values => .ok (w.propStrList name values)
  | .propU32 name value => .ok (w.propU32 name value)
  | .propU64 name value => .ok (w.propU64 name value)
  | .propCells name cells => .ok (w.propCells name cells)
  | .propReg64 pairs => .ok (w.propReg64 pairs)
  | .reserve address size => .ok (w.reserve address size)
  | .setBootCpu id => .ok (w.setBootCpu id)

def image (calls : List Call) : Except FdtError Bytes :=
  (calls.foldlM FdtWriter.call {}).bind FdtWriter.finish

/-- What a call says of the tree. -/
def Call.event : Call → Option Event
  | .beginNode name => some (.begin_ name)
  | .endNode => some .end_
  | .propBytes name value => some (.prop name value)
  | .propEmpty name => some (.prop name [])
  | .propStr name value => some (.prop name (value ++ [0]))
  | .propStrList name values => some (.prop name (values.flatMap fun value => value ++ [0]))
  | .propU32 name value => some (.prop name (be32 value))
  | .propU64 name value => some (.prop name (be64 value))
  | .propCells name cells => some (.prop name (cells.flatMap be32))
  | .propReg64 pairs =>
    some (.prop FdtWriter.regName (pairs.flatMap fun (addr, size) => be64 addr ++ be64 size))
  | .reserve _ _ => none
  | .setBootCpu _ => none

def events (calls : List Call) : List Event := calls.filterMap Call.event

def Call.reservation : Call → Option (UInt64 × UInt64)
  | .reserve address size => some (address, size)
  | _ => none

def reservations (calls : List Call) : List (UInt64 × UInt64) := calls.filterMap Call.reservation

def Call.cpu : Call → Option UInt32
  | .setBootCpu id => some id
  | _ => none

def bootCpu (calls : List Call) : UInt32 := (calls.filterMap Call.cpu).getLast?.getD 0

def Event.name : Event → Bytes
  | .begin_ name => name
  | .prop name _ => name
  | .end_ => []

/-- **The names of a call have no NUL.** -/
def Call.Plain (c : Call) : Prop := ∀ e ∈ c.event, (0 : UInt8) ∉ e.name

end Rsemu.Fdt
