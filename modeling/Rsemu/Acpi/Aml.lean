import Mathlib.Data.List.Basic
import Mathlib.Tactic.SplitIfs
import Rsemu.Base.Codec

/-!
# AML terms as bytes

A DSDT is a program in ACPI Machine Language, and the board writes one with a handful of
functions from already encoded bytes to bytes. A term tree says in which order they are
called: `Term.encode` is the only place where one function's bytes go into another's.
-/

namespace Rsemu.Acpi

open Codec (Bytes leBytes length_leBytes)

def nameOp : UInt8 := 0x08
def scopeOp : UInt8 := 0x10
/-- The escape into the two-byte opcodes. -/
def extOpPrefix : UInt8 := 0x5b
def deviceOp : UInt8 := 0x82
def packageOp : UInt8 := 0x12
def bytePrefix : UInt8 := 0x0a
def wordPrefix : UInt8 := 0x0b
def dwordPrefix : UInt8 := 0x0c
def stringPrefix : UInt8 := 0x0d
def qwordPrefix : UInt8 := 0x0e
def bufferOp : UInt8 := 0x11
def zeroOp : UInt8 := 0x00
def oneOp : UInt8 := 0x01
def rootChar : UInt8 := 0x5c
def dualNamePrefix : UInt8 := 0x2e
def multiNamePrefix : UInt8 := 0x2f
def endTag : UInt8 := 0x79

def needed (total : Nat) : Nat :=
  if total ≤ 0x3f then 1 else if total ≤ 0x0fff then 2 else if total ≤ 0x0fffff then 3 else 4

def settle (len : Nat) : Nat → Nat → Nat
  | 0, width => width
  | turns + 1, width =>
    if needed (len + width) = width then width else settle len turns (needed (len + width))

def pkgWidth (len : Nat) : Nat := settle len 4 1

def pkgLength (len : Nat) : Bytes :=
  let width := pkgWidth len
  let total := len + width
  if width = 1 then [UInt8.ofNat total]
  else
    let follow := width - 1
    UInt8.ofNat (follow <<< 6 ||| total &&& 0x0f) :: leBytes follow (total >>> 4)

def nameSeg (name : Bytes) : Bytes := (name ++ List.replicate 4 0x5f).take 4

def stripRoot : Bytes → Bool × Bytes
  | 0x5c :: rest => (true, rest)
  | path => (false, path)

def segments (path : Bytes) : List Bytes := (stripRoot path).2.splitOn 0x2e

def segCount : Nat → Bytes
  | 0 => [0x00]
  | 1 => []
  | 2 => [dualNamePrefix]
  | n => [multiNamePrefix, UInt8.ofNat n]

def nameString (path : Bytes) : Bytes :=
  let segs := (segments path).map nameSeg
  (if (stripRoot path).1 then [rootChar] else []) ++ (segCount segs.length ++ segs.flatten)

def integer (value : UInt64) : Bytes :=
  let v := value.toNat
  if v = 0 then [zeroOp]
  else if v = 1 then [oneOp]
  else if v ≤ 0xff then bytePrefix :: leBytes 1 v
  else if v ≤ 0xffff then wordPrefix :: leBytes 2 v
  else if v ≤ 0xffffffff then dwordPrefix :: leBytes 4 v
  else qwordPrefix :: leBytes 8 v

def string (text : Bytes) : Bytes := stringPrefix :: (text ++ [0x00])

def packaged (body : Bytes) : Bytes := pkgLength body.length ++ body

def package (count : UInt8) (elements : Bytes) : Bytes := packageOp :: packaged (count :: elements)

def buffer (bytes : Bytes) : Bytes :=
  bufferOp :: packaged (integer (UInt64.ofNat bytes.length) ++ bytes)

def name (path value : Bytes) : Bytes := nameOp :: (nameString path ++ value)

def device (path body : Bytes) : Bytes :=
  extOpPrefix :: deviceOp :: packaged (nameString path ++ body)

def scope (path body : Bytes) : Bytes := scopeOp :: packaged (nameString path ++ body)

/-- A data object. -/
inductive Data where
  | integer (value : UInt64)
  | string (text : Bytes)
  | buffer (bytes : Bytes)
  | package (elements : List Data)

def Data.template (descriptors : Bytes) : Data := .buffer (descriptors ++ [endTag, 0])

/-- A term of the term list. -/
inductive Term (π : Type) where
  | name (path : π) (value : Data)
  | device (path : π) (body : List (Term π))
  | scope (path : π) (body : List (Term π))

mutual

/-- **The bytes of a data object**, elements first. -/
def Data.encode : Data → Bytes
  | .integer value => Acpi.integer value
  | .string text => Acpi.string text
  | .buffer bytes => Acpi.buffer bytes
  | .package elements => Acpi.package (UInt8.ofNat elements.length) (encodeElements elements)

def encodeElements : List Data → Bytes
  | [] => []
  | d :: ds => d.encode ++ encodeElements ds

end

mutual

/-- **The bytes of a term**, what is in it first. -/
def Term.encode : Term Bytes → Bytes
  | .name path value => Acpi.name path value.encode
  | .device path body => Acpi.device path (encodeBody body)
  | .scope path body => Acpi.scope path (encodeBody body)

def encodeBody : List (Term Bytes) → Bytes
  | [] => []
  | t :: ts => t.encode ++ encodeBody ts

end

mutual

def Term.map {π ρ : Type} (f : π → ρ) : Term π → Term ρ
  | .name path value => .name (f path) value
  | .device path body => .device (f path) (mapBody f body)
  | .scope path body => .scope (f path) (mapBody f body)

def mapBody {π ρ : Type} (f : π → ρ) : List (Term π) → List (Term ρ)
  | [] => []
  | t :: ts => t.map f :: mapBody f ts

end

theorem encodeElements_eq (ds : List Data) : encodeElements ds = ds.flatMap Data.encode := by
  induction ds with
  | nil => rfl
  | cons d ds ih => rw [encodeElements, ih, List.flatMap_cons]

theorem encodeBody_eq (ts : List (Term Bytes)) : encodeBody ts = ts.flatMap Term.encode := by
  induction ts with
  | nil => rfl
  | cons t ts ih => rw [encodeBody, ih, List.flatMap_cons]

theorem mapBody_eq {π ρ : Type} (f : π → ρ) (ts : List (Term π)) :
    mapBody f ts = ts.map (Term.map f) := by
  induction ts with
  | nil => rfl
  | cons t ts ih => rw [mapBody, ih, List.map_cons]

def capacity (width : Nat) : Nat :=
  if width = 0 then 0 else if width = 1 then 0x3f else if width = 2 then 0x0fff
  else if width = 3 then 0x0fffff else 0x0fffffff

theorem capacity_one : capacity 1 = 0x3f := rfl

theorem capacity_succ {follow : Nat} (h : 1 ≤ follow ∧ follow ≤ 3) :
    capacity (follow + 1) + 1 = 16 * 256 ^ follow := by
  obtain rfl | rfl | rfl : follow = 1 ∨ follow = 2 ∨ follow = 3 := by omega
  · rfl
  · rfl
  · rfl

theorem settle_step (len turns width : Nat) :
    settle len (turns + 1) width = settle len turns (needed (len + width)) := by
  rw [settle]
  split
  · rename_i h
    rw [h]
    cases turns with
    | zero => rfl
    | succ turns => rw [settle, if_pos h]
  · rfl

theorem pkgWidth_eq (len : Nat) : pkgWidth len =
    if len + 1 ≤ 0x3f then 1 else if len + 2 ≤ 0x0fff then 2
    else if len + 3 ≤ 0x0fffff then 3 else 4 := by
  have hneeded : ∀ total, needed total =
      if total ≤ 0x3f then 1 else if total ≤ 0x0fff then 2
      else if total ≤ 0x0fffff then 3 else 4 := fun total => rfl
  rw [pkgWidth, settle_step, settle_step, settle_step, settle_step, settle]
  -- a width grows at most three times, and each turn is one comparison
  by_cases h₁ : len + 1 ≤ 0x3f
  · have hone : needed (len + 1) = 1 := by rw [hneeded, if_pos h₁]
    rw [if_pos h₁, hone, hone, hone, hone]
  rw [if_neg h₁]
  by_cases h₂ : len + 2 ≤ 0x0fff
  · have hone : needed (len + 1) = 2 := by rw [hneeded, if_neg h₁, if_pos (by omega)]
    have htwo : needed (len + 2) = 2 := by rw [hneeded, if_neg (by omega), if_pos h₂]
    rw [if_pos h₂, hone, htwo, htwo, htwo]
  rw [if_neg h₂]
  by_cases h₃ : len + 3 ≤ 0x0fffff
  · have hthree : needed (len + 3) = 3 := by
      rw [hneeded, if_neg (by omega), if_neg (by omega), if_pos h₃]
    have htwo : needed (len + 2) = 3 := by
      rw [hneeded, if_neg (by omega), if_neg h₂, if_pos (by omega)]
    rw [if_pos h₃]
    by_cases hedge : len + 1 ≤ 0x0fff
    · have hone : needed (len + 1) = 2 := by rw [hneeded, if_neg h₁, if_pos hedge]
      rw [hone, htwo, hthree, hthree]
    · have hone : needed (len + 1) = 3 := by
        rw [hneeded, if_neg h₁, if_neg hedge, if_pos (by omega)]
      rw [hone, hthree, hthree, hthree]
  rw [if_neg h₃]
  have hthree : needed (len + 3) = 4 := by
    rw [hneeded, if_neg (by omega), if_neg (by omega), if_neg h₃]
  have hfour : needed (len + 4) = 4 := by
    rw [hneeded, if_neg (by omega), if_neg (by omega), if_neg (by omega)]
  by_cases hedge : len + 1 ≤ 0x0fffff
  · have hone : needed (len + 1) = 3 := by
      rw [hneeded, if_neg h₁, if_neg (by omega), if_pos hedge]
    rw [hone, hthree, hfour, hfour]
  · have hone : needed (len + 1) = 4 := by
      rw [hneeded, if_neg h₁, if_neg (by omega), if_neg hedge]
    rw [hone, hfour, hfour, hfour]

theorem capacity_of_lt_pkgWidth {len width : Nat} (h : width < pkgWidth len) :
    capacity width < len + width ∨ width = 0 := by
  rw [pkgWidth_eq] at h
  unfold capacity
  split_ifs at h ⊢ <;> omega

theorem le_capacity_pkgWidth {len : Nat} (h : len + pkgWidth len ≤ 0x0fffffff) :
    len + pkgWidth len ≤ capacity (pkgWidth len) := by
  have hone := capacity_one
  have htwo : capacity 2 = 0x0fff := rfl
  have hthree : capacity 3 = 0x0fffff := rfl
  have hfour : capacity 4 = 0x0fffffff := rfl
  rw [pkgWidth_eq] at h ⊢
  split_ifs at h ⊢ <;> omega

theorem pkgWidth_pos (len : Nat) : 1 ≤ pkgWidth len ∧ pkgWidth len ≤ 4 := by
  rw [pkgWidth_eq]
  split_ifs <;> omega

theorem length_pkgLength (len : Nat) : (pkgLength len).length = pkgWidth len := by
  have hpos := pkgWidth_pos len
  unfold pkgLength
  dsimp only
  split
  · rename_i hone
    rw [hone]
    rfl
  · rw [List.length_cons, length_leBytes]
    omega

theorem length_packaged (body : Bytes) :
    (packaged body).length = body.length + pkgWidth body.length := by
  rw [packaged, List.length_append, length_pkgLength, Nat.add_comm]

end Rsemu.Acpi
