import Rsemu.Fdt.Writer

/-!
# Reading a flattened device tree

A reader of the version 17 format: ten header words with the offsets and sizes of the blocks, a
reservation block of 8-byte pairs up to an all-zero one, and a structure block of aligned tokens
that ends with its last word. A property's name is a string of the strings block. The tokens are
then assembled into the tree.
-/

namespace Rsemu.Fdt

open Codec (Bytes Reader take fail fromLe)

/-- A reader of bytes that can fail. -/
abbrev Parser (α : Type) := Reader Unit α

def word : Parser UInt32 := do
  let bytes ← take (fun _ _ => ()) 4
  pure (UInt32.ofNat (fromLe bytes.reverse))

def dword : Parser UInt64 := do
  let bytes ← take (fun _ _ => ()) 8
  pure (UInt64.ofNat (fromLe bytes.reverse))

def words : Nat → Parser (List UInt32)
  | 0 => pure []
  | n + 1 => do
    let w ← word
    let ws ← words n
    pure (w :: ws)

def cstring : Parser Bytes := fun src =>
  if (0 : UInt8) ∈ src then .ok (src.takeWhile (· ≠ 0), (src.dropWhile (· ≠ 0)).tail)
  else .error ()

def padding (n : Nat) : Parser Unit := do
  let bytes ← take (fun _ _ => ()) ((4 - n % 4) % 4)
  if bytes.all (· = 0) then pure () else fail ()

def nameAt (strings : Bytes) (off : Nat) : Parser Bytes := fun src =>
  (cstring (strings.drop off)).map fun read => (read.1, src)

/-- A token of the structure block. -/
inductive Token where
  | event (e : Event)
  | nop
  | end_

/-- One token of the structure block. -/
def token (strings : Bytes) : Parser Token := do
  let tok ← word
  if tok = 1 then do
    let name ← cstring
    padding (name.length + 1)
    pure (.event (.begin_ name))
  else if tok = 2 then pure (.event .end_)
  else if tok = 3 then do
    let len ← word
    let off ← word
    let value ← take (fun _ _ => ()) len.toNat
    padding len.toNat
    let name ← nameAt strings off.toNat
    pure (.event (.prop name value))
  else if tok = 4 then pure .nop
  else if tok = 9 then pure .end_
  else fail ()

/-- The events up to the end token. -/
def tokens (strings : Bytes) : Nat → Bytes → Option (List Event)
  | 0, _ => none
  | fuel + 1, src =>
    match token strings src with
    | .error _ => none
    | .ok (.event e, rest) => (tokens strings fuel rest).map (e :: ·)
    | .ok (.nop, rest) => tokens strings fuel rest
    | .ok (.end_, rest) => if rest = [] then some [] else none

def entry : Parser (UInt64 × UInt64) := do
  let address ← dword
  let size ← dword
  pure (address, size)

def entries : Nat → Bytes → Option (List (UInt64 × UInt64))
  | 0, _ => none
  | fuel + 1, src =>
    match entry src with
    | .error _ => none
    | .ok (e, rest) => if e = (0, 0) then some [] else (entries fuel rest).map (e :: ·)

/-- What a blob says. -/
structure DeviceTree where
  root : Node
  reservations : List (UInt64 × UInt64)
  bootCpu : UInt32

/-- The blocks lie in the blob one after the other, aligned, behind the header. -/
def LaidOut (total offStruct offStrings offRsv sizeStrings sizeStruct : UInt32) : Prop :=
  40 ≤ offRsv.toNat ∧ offRsv.toNat % 8 = 0 ∧ offRsv.toNat ≤ offStruct.toNat ∧
    offStruct.toNat % 4 = 0 ∧ offStruct.toNat + sizeStruct.toNat ≤ offStrings.toNat ∧
    offStrings.toNat + sizeStrings.toNat ≤ total.toNat

instance (total offStruct offStrings offRsv sizeStrings sizeStruct : UInt32) :
    Decidable (LaidOut total offStruct offStrings offRsv sizeStrings sizeStruct) := by
  unfold LaidOut
  infer_instance

/-- **Parse a blob.** -/
def parse (dtb : Bytes) : Option DeviceTree :=
  match words 10 dtb with
  | .ok ([magic, total, offStruct, offStrings, offRsv, version, lastComp, bootCpu, sizeStrings,
      sizeStruct], _) =>
      if magic = 0xd00dfeed ∧ total.toNat = dtb.length ∧ 17 ≤ version ∧ lastComp ≤ 17 ∧
          LaidOut total offStruct offStrings offRsv sizeStrings sizeStruct then
        let block (off size : Nat) := (dtb.drop off).take size
        let strings := block offStrings.toNat sizeStrings.toNat
        (entries dtb.length (block offRsv.toNat (offStruct.toNat - offRsv.toNat))).bind fun rsv =>
          (tokens strings dtb.length (block offStruct.toNat sizeStruct.toNat)).bind fun es =>
            (assemble [] es).map fun root => ⟨root, rsv, bootCpu⟩
      else none
  | _ => none

end Rsemu.Fdt
