import Mathlib.Data.Prod.Lex
import Mathlib.Data.String.Basic
import Rsemu.Base.Codec
import Rsemu.Base.SortedMap

/-!
# The snapshot wire format

`Sink` and `Source`: little-endian fixed-width integers, length-prefixed byte strings and
UTF-8 strings, and element counts that are bounded by the bytes actually present.

A sink that is a `Vec<u8>` never refuses a byte, so writing is the list of bytes that is
appended. Reading is a `Reader` over the bytes that are left. Lengths travel as 64 bits and
are refused when the host's `usize`, `ptr` bits wide, cannot hold them.
-/

namespace Rsemu.State

open Codec

/-- A string, ordered by its bytes. -/
structure Str where
  text : String
  deriving DecidableEq

namespace Str

def bytes (s : Str) : Bytes := s.text.toByteArray.data.toList

def key (s : Str) : List Nat := s.bytes.map UInt8.toNat

theorem bytes_injective : Function.Injective bytes := by
  intro s t h
  have hdata : s.text.toByteArray.data = t.text.toByteArray.data := Array.toList_inj.mp h
  have htext : s.text = t.text := String.toByteArray_inj.mp (ByteArray.ext hdata)
  exact congrArg Str.mk htext

theorem key_injective : Function.Injective key :=
  fun _ _ h => bytes_injective (List.map_injective_iff.mpr (fun _ _ => UInt8.toNat_inj.mp) h)

instance : LinearOrder Str := LinearOrder.lift' key key_injective

instance : Inhabited Str := ⟨⟨""⟩⟩

def fromUtf8 (bs : Bytes) : Option Str := (String.fromUTF8? ⟨bs.toArray⟩).map Str.mk

theorem fromUtf8_bytes (s : Str) : fromUtf8 s.bytes = some s := by
  have hb : (⟨s.bytes.toArray⟩ : ByteArray) = s.text.toByteArray := by
    refine ByteArray.ext ?_
    exact Array.toArray_toList
  unfold fromUtf8 String.fromUTF8?
  rw [hb, dif_pos s.text.isValidUTF8]
  rfl

end Str

/-- Why a snapshot is refused. -/
inductive StateError where
  | truncated (need remain : Nat)
  | hostLength (len : Nat)
  | utf8 (bytes : Bytes)
  | countOverflow (count : Nat)
  | countTooLarge (count floor remain : Nat)
  | devicesOutOfOrder (path prev : Str)
  | regionsOutOfOrder (region prev : String)
  | entriesOutOfOrder (what : String) (item prev : Str)
  | duplicateDevice (path existing : Str)
  | notSnapshot (found : Bytes)
  | format (found : Nat)
  | codec (found : Nat)
  | integrity (found : Nat)
  | chunksOutOfOrder (path prev : Str)
  | unknownTag (tag : Nat)
  | trailing (left : Nat)
  | duplicateChunk (path existing : Str) (version : Nat)
  | emptyPath
  | noChunk (path : Str) (present : String)

def writeU8 (v : Nat) : Bytes := leBytes 1 v
def writeU16 (v : Nat) : Bytes := leBytes 2 v
def writeU32 (v : Nat) : Bytes := leBytes 4 v
def writeU64 (v : Nat) : Bytes := leBytes 8 v
def writeU128 (v : Nat) : Bytes := leBytes 16 v

def writeBytes (bs : Bytes) : Bytes := writeU64 bs.length ++ bs

def writeStr (s : Str) : Bytes := writeBytes s.bytes

def writeSeqLen (count : Nat) : Bytes := writeU64 count

/-- A reader of a snapshot. -/
abbrev Source (α : Type) := Reader StateError α

def take (n : Nat) : Source Bytes := Codec.take .truncated n
def readU8 : Source Nat := readLe .truncated 1
def readU16 : Source Nat := readLe .truncated 2
def readU32 : Source Nat := readLe .truncated 4
def readU64 : Source Nat := readLe .truncated 8
def readU128 : Source Nat := readLe .truncated 16

section

variable (ptr : Nat)

def wireLen (len : Nat) : Source Nat := if len < 2 ^ ptr then pure len else fail (.hostLength len)

def readBytes : Source Bytes := do
  let len ← readU64
  let len ← wireLen ptr len
  take len

def readStr : Source Str := do
  let bytes ← readBytes ptr
  match Str.fromUtf8 bytes with
  | some s => pure s
  | none => fail (.utf8 bytes)

end

def readSeqLen (minElementBytes : Nat) : Source Nat := do
  let count ← readU64
  let floor := count * max minElementBytes 1
  if 2 ^ 64 ≤ floor then fail (.countOverflow count)
  else do
    let remain ← remaining
    if remain < floor then fail (.countTooLarge count floor remain) else pure count

section

variable {ε : Type} {short : Nat → Nat → ε}

theorem reads_u8 {v : Nat} (h : v < 256) : Reads (readLe short 1) (writeU8 v) v :=
  reads_readLe _ (by simpa using h)

theorem reads_u16 {v : Nat} (h : v < 2 ^ 16) : Reads (readLe short 2) (writeU16 v) v :=
  reads_readLe _ (lt_of_lt_of_eq h (by decide))

theorem reads_u32 {v : Nat} (h : v < 2 ^ 32) : Reads (readLe short 4) (writeU32 v) v :=
  reads_readLe _ (lt_of_lt_of_eq h (by decide))

theorem reads_u64 {v : Nat} (h : v < 2 ^ 64) : Reads (readLe short 8) (writeU64 v) v :=
  reads_readLe _ (lt_of_lt_of_eq h (by decide))

theorem reads_u128 {v : Nat} (h : v < 2 ^ 128) : Reads (readLe short 16) (writeU128 v) v :=
  reads_readLe _ (lt_of_lt_of_eq h (by decide))

end

section

variable {ptr : Nat}

theorem reads_bytes (hptr : ptr ≤ 64) {bs : Bytes} (h : bs.length < 2 ^ ptr) :
    Reads (readBytes ptr) (writeBytes bs) bs := by
  have h64 : bs.length < 2 ^ 64 := lt_of_lt_of_le h (Nat.pow_le_pow_right (by decide) hptr)
  refine Reads.bind (reads_u64 h64) (Reads.skip (a := bs.length) ?_ (reads_take _ bs))
  unfold wireLen
  rw [if_pos h]
  exact Reads.pure _

theorem reads_str (hptr : ptr ≤ 64) {s : Str} (h : s.bytes.length < 2 ^ ptr) :
    Reads (readStr ptr) (writeStr s) s := by
  have hs := Reads.bind (reads_bytes hptr h) (f := fun bytes =>
    match Str.fromUtf8 bytes with
    | some s => pure s
    | none => fail (.utf8 bytes)) (b := s) (by rw [Str.fromUtf8_bytes]; exact Reads.pure s)
  rwa [List.append_nil] at hs

theorem reads_seqLen {α : Type} {f : Nat → Source α} {count minBytes : Nat} {body : Bytes} {a : α}
    (hroom : count * max minBytes 1 ≤ body.length) (h64 : body.length < 2 ^ 64)
    (hf : Reads (f count) body a) :
    Reads (readSeqLen minBytes >>= f) (writeSeqLen count ++ body) a := by
  have hcount : count < 2 ^ 64 := by
    have : count * 1 ≤ count * max minBytes 1 := Nat.mul_le_mul_left _ (Nat.le_max_right ..)
    omega
  intro rest
  have h1 : readU64 _ = _ := reads_u64 hcount (body ++ rest)
  rw [List.append_assoc]
  show StateT.bind (readSeqLen minBytes) f _ = _
  have h2 : readSeqLen minBytes (writeSeqLen count ++ (body ++ rest)) =
      .ok (count, body ++ rest) := by
    have hn : ¬ 2 ^ 64 ≤ count * max minBytes 1 := by omega
    have hr : ¬ (body ++ rest).length < count * max minBytes 1 := by
      rw [List.length_append]
      omega
    simp only [readSeqLen, bind, StateT.bind, writeSeqLen, h1, Except.bind, if_neg hn, remaining,
      if_neg hr]
    rfl
  simp only [StateT.bind, h2]
  exact hf rest

end

end Rsemu.State
