import Rsemu.Acpi.Aml

/-!
# A reader of the AML grammar

The terms and data objects a DSDT is written with, read the way the grammar gives them: a
`PkgLength` counts from its own first byte, so what it leads is cut out and has to be used up.
A strict reader also refuses what could have been written shorter, and a buffer whose declared
size is not the number of its bytes.
-/

namespace Rsemu.Acpi

open Codec (Bytes Reader take fail readLe remaining toEnd within)

-- a byte can also be any of 256, which is a longer way to decide about the bytes of a list
attribute [local instance (high)] List.decidableBAll

/-- A reader of bytes that can fail. -/
abbrev Parser (α : Type) := Reader Unit α

def byte : Parser UInt8
  | [] => .error ()
  | b :: rest => .ok (b, rest)

def readPkgLength : Parser (Nat × Nat) := do
  let lead ← byte
  let follow := lead.toNat / 64
  if follow = 0 then pure (lead.toNat, 1)
  else if lead.toNat / 16 % 4 ≠ 0 then fail ()
  else do
    let high ← readLe (fun _ _ => ()) follow
    pure (lead.toNat % 16 + 16 * high, follow + 1)

/-- No narrower length field could hold the total. -/
def Shortest (total width : Nat) : Prop :=
  ∀ w < width, w = 0 ∨ capacity w < total - width + w

instance (total width : Nat) : Decidable (Shortest total width) :=
  inferInstanceAs (Decidable (∀ w < width, w = 0 ∨ capacity w < total - width + w))

def readPackaged {α : Type} (strict : Bool) (p : Parser α) : Parser α := do
  let field ← readPkgLength
  if field.1 < field.2 ∨ strict = true ∧ ¬ Shortest field.1 field.2 then fail ()
  else within (fun _ _ => ()) () (field.1 - field.2) p

/-- An upper-case letter or an underscore. -/
def LeadNameChar (c : UInt8) : Prop := 0x41 ≤ c ∧ c ≤ 0x5a ∨ c = 0x5f

instance (c : UInt8) : Decidable (LeadNameChar c) :=
  inferInstanceAs (Decidable (0x41 ≤ c ∧ c ≤ 0x5a ∨ c = 0x5f))

/-- A lead character or a digit. -/
def NameChar (c : UInt8) : Prop := LeadNameChar c ∨ 0x30 ≤ c ∧ c ≤ 0x39

instance (c : UInt8) : Decidable (NameChar c) :=
  inferInstanceAs (Decidable (LeadNameChar c ∨ 0x30 ≤ c ∧ c ≤ 0x39))

/-- A name: from the root, or so many parents up, and its segments. -/
structure Name where
  rooted : Bool
  up : Nat
  segs : List Bytes

def readSegAfter (lead : UInt8) : Parser Bytes := do
  let more ← take (fun _ _ => ()) 3
  if LeadNameChar lead ∧ ∀ c ∈ more, NameChar c then pure (lead :: more) else fail ()

def readSegs : Nat → Parser (List Bytes)
  | 0 => pure []
  | n + 1 => do
    let lead ← byte
    let seg ← readSegAfter lead
    let segs ← readSegs n
    pure (seg :: segs)

def readNamePath : Parser (List Bytes) := do
  let op ← byte
  if op = 0x00 then pure []
  else if op = dualNamePrefix then readSegs 2
  else if op = multiNamePrefix then do
    let count ← byte
    if count = 0 then fail () else readSegs count.toNat
  else do
    let seg ← readSegAfter op
    pure [seg]

def readPrefix : Parser (Bool × Nat)
  | [] => .error ()
  | b :: rest =>
    if b = rootChar then .ok ((true, 0), rest)
    else .ok ((false, ((b :: rest).takeWhile (· = 0x5e)).length),
      (b :: rest).dropWhile (· = 0x5e))

def readName : Parser Name := do
  let lead ← readPrefix
  let segs ← readNamePath
  pure ⟨lead.1, lead.2, segs⟩

def readWide (strict : Bool) (n below : Nat) : Parser UInt64 := do
  let v ← readLe (fun _ _ => ()) n
  if strict = true ∧ v ≤ below then fail () else pure (UInt64.ofNat v)

def onesOp : UInt8 := 0xff

/-- The integer its opcode stands for. -/
def readInteger (strict : Bool) (op : UInt8) : Parser UInt64 :=
  if op = zeroOp then pure 0
  else if op = oneOp then pure 1
  else if op = onesOp then pure 0xffffffffffffffff
  else if op = bytePrefix then readWide strict 1 1
  else if op = wordPrefix then readWide strict 2 0xff
  else if op = dwordPrefix then readWide strict 4 0xffff
  else if op = qwordPrefix then readWide strict 8 0xffffffff
  else fail ()

def readString : Parser Bytes := fun src =>
  let text := src.takeWhile (· ≠ 0)
  if (0 : UInt8) ∈ src ∧ ∀ c ∈ text, c ≤ 0x7f then .ok (text, (src.dropWhile (· ≠ 0)).tail)
  else .error ()

def readBuffer (strict : Bool) : Parser Data := do
  let op ← byte
  let size ← readInteger strict op
  let left ← remaining
  let bytes ← take (fun _ _ => ()) left
  if strict = true ∧ size.toNat ≠ bytes.length then fail ()
  else pure (.buffer (bytes ++ List.replicate (size.toNat - bytes.length) 0))

def readPackage (p : Parser Data) : Parser Data := do
  let count ← byte
  let left ← remaining
  let elements ← toEnd p left
  if elements.length = count.toNat then pure (.package elements) else fail ()

/-- A data object, its elements nested at most so deep. -/
def readData (strict : Bool) : Nat → Parser Data
  | 0 => fail ()
  | fuel + 1 => do
    let op ← byte
    if op = stringPrefix then do
      let text ← readString
      pure (.string text)
    else if op = bufferOp then readPackaged strict (readBuffer strict)
    else if op = packageOp then readPackaged strict (readPackage (readData strict fuel))
    else do
      let value ← readInteger strict op
      pure (.integer value)

def readScope {α : Type} (p : Parser α) (make : Name → List α → α) : Parser α := do
  let path ← readName
  let left ← remaining
  let body ← toEnd p left
  pure (make path body)

/-- A term, nested at most so deep. -/
def readTerm (strict : Bool) : Nat → Parser (Term Name)
  | 0 => fail ()
  | fuel + 1 => do
    let op ← byte
    if op = nameOp then do
      let path ← readName
      let value ← readData strict fuel
      pure (.name path value)
    else if op = scopeOp then
      readPackaged strict (readScope (readTerm strict fuel) Term.scope)
    else if op = extOpPrefix then do
      let ext ← byte
      if ext = deviceOp then
        readPackaged strict (readScope (readTerm strict fuel) Term.device)
      else fail ()
    else fail ()

end Rsemu.Acpi
