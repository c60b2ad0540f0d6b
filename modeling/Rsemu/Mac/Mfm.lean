import Rsemu.Base.Mfm

/-!
# IBM tracks

The track layout a high-density disk carries: gaps, an index mark, and for each sector an
ID field and a data field, each behind three `$A1` bytes with a clock left out. The writer
keeps the last data bit for the next clock; the reader looks for three marks in a row, one
byte apart, and for a field behind them.
-/

namespace Rsemu.Mac

open Mfm (shiftIn)

/-- A byte. -/
abbrev Byte := BitVec 8

def cellsPerRevolution : Nat := 200000

def dataBytes : Nat := 512

def iam : Byte := 0xfc
def idam : Byte := 0xfe
def dam : Byte := 0xfb
def ddam : Byte := 0xf8

def syncA1 : Byte := 0xa1
def syncC2 : Byte := 0xc2

def gapByte : Byte := 0x4e

def gap4a : Nat := 80
def gap1 : Nat := 50
def gap2 : Nat := 22
def gap3 : Nat := 84
def syncBytes : Nat := 12

def crc16 (seed : BitVec 16) (bytes : List Byte) : BitVec 16 :=
  bytes.foldl (fun (crc : BitVec 16) (byte : Byte) =>
    (List.range 8).foldl (fun (crc : BitVec 16) _ =>
      if crc &&& 0x8000 != 0 then (crc <<< 1) ^^^ 0x1021 else crc <<< 1)
      (crc ^^^ (byte.setWidth 16 : BitVec 16) <<< (8 : Nat))) seed

/-- The clock and the data cell of one bit. -/
def cellPair (byte : Byte) (suppress : Option Nat) (s : BitVec 16 × Bool) (i : Nat) :
    BitVec 16 × Bool :=
  let bit := byte &&& ((0x80 : Byte) >>> i) != 0
  let clock := if suppress = some i then false else !s.2 && !bit
  ((s.1 <<< 2) ||| ((BitVec.ofBool clock).setWidth 16 <<< 1) ||| (BitVec.ofBool bit).setWidth 16,
    bit)

/-- The sixteen cells of one byte, after a data bit `prev`; `suppress` is the data bit whose
clock pulse is left out. -/
def cells (byte : Byte) (prev : Bool) (suppress : Option Nat) : BitVec 16 :=
  ((List.range 8).foldl (cellPair byte suppress) (0, prev)).1

def suppressed (byte : Byte) : Option Nat :=
  if byte = syncA1 then some 5 else if byte = syncC2 then some 4 else none

def syncCells (byte : Byte) : BitVec 16 := cells byte false (suppressed byte)

/-- The cells of a track. -/
structure Track where
  bits : List Bool := []

namespace Track

def len (t : Track) : Nat := t.bits.length

def bit (t : Track) (n : Nat) : Bool :=
  if t.len = 0 then false else t.bits.getD (n % t.len) false

def pushBit (t : Track) (b : Bool) : Track := ⟨t.bits ++ [b]⟩

end Track

/-- A sector and its address. -/
structure Sector where
  cylinder : Byte
  head : Byte
  sector : Byte
  sizeCode : Byte
  data : List Byte
  deleted : Bool
deriving DecidableEq

def Sector.id (s : Sector) : List Byte := [s.cylinder, s.head, s.sector, s.sizeCode]

def Sector.ofId (id : List Byte) : Sector where
  cylinder := id.getD 0 0
  head := id.getD 1 0
  sector := id.getD 2 0
  sizeCode := id.getD 3 0
  data := []
  deleted := false

def idHead (id : List Byte) : List Byte := [syncA1, syncA1, syncA1, idam] ++ id

/-- Appends cells to a track, keeping the last data bit. `wrote` is no part of the code: it
notes the cell each `$A1` sync word was laid down at. -/
structure Writer where
  track : Track := {}
  prev : Bool := false
  wrote : List Nat := []

namespace Writer

def push (w : Writer) (cells : BitVec 16) : Writer :=
  { w with track := (List.range 16).foldl (fun t k => t.pushBit (cells.getLsbD (15 - k))) w.track }

def byte (w : Writer) (b : Byte) : Writer :=
  { w.push (cells b w.prev none) with prev := b.getLsbD 0 }

def fill (w : Writer) (b : Byte) (n : Nat) : Writer := (fun w => w.byte b)^[n] w

def sync (w : Writer) (b : Byte) : Writer :=
  { w.push (syncCells b) with
    prev := b.getLsbD 0
    wrote := if b = syncA1 then w.wrote ++ [w.track.len] else w.wrote }

def bytes (w : Writer) (bs : List Byte) : Writer := bs.foldl byte w

def crc (w : Writer) (x : BitVec 16) : Writer := (w.byte ((x >>> 8).setWidth 8)).byte (x.setWidth 8)

def preamble (w : Writer) (b : Byte) : Writer := (((w.fill 0x00 syncBytes).sync b).sync b).sync b

end Writer

def Sector.mark (s : Sector) : Byte := if s.deleted then ddam else dam

def dataCrc (mark : Byte) (data : List Byte) : BitVec 16 :=
  crc16 (crc16 0xffff [syncA1, syncA1, syncA1, mark]) data

def Writer.sector (w : Writer) (s : Sector) : Writer :=
  let w := (w.preamble syncA1).byte idam
  let w := (w.bytes s.id).crc (crc16 0xffff (idHead s.id))
  let w := w.fill gapByte gap2
  let w := (w.preamble syncA1).byte s.mark
  let w := (w.bytes s.data).crc (dataCrc s.mark s.data)
  w.fill gapByte gap3

@[simp] theorem Track.len_pushBit (t : Track) (b : Bool) : (t.pushBit b).len = t.len + 1 := by
  simp [Track.len, Track.pushBit]

theorem Writer.bits_push (w : Writer) (cells : BitVec 16) :
    (w.push cells).track.bits =
      w.track.bits ++ (List.range 16).map fun k => cells.getLsbD (15 - k) := by
  have hfold : ∀ (ks : List Nat) (t : Track),
      (ks.foldl (fun t k => t.pushBit (cells.getLsbD (15 - k))) t).bits =
        t.bits ++ ks.map fun k => cells.getLsbD (15 - k) := by
    intro ks
    induction ks with
    | nil => simp
    | cons k ks ih =>
      intro t
      rw [List.foldl_cons, ih, Track.pushBit, List.map_cons, List.append_assoc]
      rfl
  exact hfold _ _

theorem Writer.len_byte (w : Writer) (b : Byte) : (w.byte b).track.len = w.track.len + 16 := by
  unfold Track.len Writer.byte
  rw [Writer.bits_push, List.length_append, List.length_map, List.length_range]

def Writer.padGap (w : Writer) : Writer :=
  if w.track.len + 16 ≤ cellsPerRevolution then (w.byte gapByte).padGap else w
termination_by cellsPerRevolution - w.track.len
decreasing_by
  rw [Writer.len_byte]
  omega

def Track.padZero (t : Track) : Track :=
  if t.len < cellsPerRevolution then (t.pushBit false).padZero else t
termination_by cellsPerRevolution - t.len
decreasing_by
  rw [Track.len_pushBit]
  omega

def layTrack (sectors : List Sector) : Writer :=
  let w : Writer := {}
  let w := w.fill gapByte gap4a
  let w := (w.preamble syncC2).byte iam
  let w := w.fill gapByte gap1
  (sectors.foldl Writer.sector w).padGap

def encodeTrack (sectors : List Sector) : Track := (layTrack sectors).track.padZero

def readByte (t : Track) (at_ : Nat) : Option Byte :=
  if t.len = 0 then none
  else some ((List.range 8).foldl (fun byte n => shiftIn byte (t.bit (at_ + n * 2 + 1))) 0)

def readBytes (t : Track) : Nat → Nat → List Byte
  | _, 0 => []
  | at_, n + 1 => (readByte t at_).elim [] fun b => b :: readBytes t (at_ + 16) n

def readCrc (t : Track) (at_ : Nat) : Option (BitVec 16) := do
  let hi ← readByte t at_
  let lo ← readByte t (at_ + 16)
  return (hi.setWidth 16 <<< 8) ||| lo.setWidth 16

/-- A field whose checksum is wrong. -/
inductive Bad where
  | id (at_ : Nat) (stored : BitVec 16)
  | data (sector : Byte) (stored : BitVec 16)

/-- Where the reader has got to: the ID field that waits for its data, what it has found. -/
structure Scan where
  pending : Option Sector := none
  found : List Sector := []
  bad : List Bad := []

def markStep (t : Track) (s : BitVec 16 × List Nat) (at_ : Nat) : BitVec 16 × List Nat :=
  let window := shiftIn s.1 (t.bit at_)
  (window, if 16 ≤ at_ + 1 ∧ window = syncCells syncA1 then s.2 ++ [at_ + 1] else s.2)

def marks (t : Track) : List Nat := ((List.range (t.len + 16)).foldl (markStep t) (0, [])).2

/-- What the scan does at an ID field. -/
def Scan.id (s : Scan) (t : Track) (after : Nat) : Scan :=
  let got := readBytes t (after + 16) 4
  let id : List Byte := (List.range 4).map fun n => got.getD n 0
  match readCrc t (after + 16 * 5) with
  | none => s
  | some stored =>
    if crc16 0xffff (idHead id) ≠ stored then { s with bad := s.bad ++ [.id after stored] }
    else { s with pending := some (Sector.ofId id) }

/-- A data field, for the ID field that waits for one. -/
def Scan.data (s : Scan) (t : Track) (after : Nat) (mark : Byte) : Scan :=
  match s.pending with
  | none => s
  | some sector =>
    let s := { s with pending := none }
    let len := min dataBytes (128 <<< min sector.sizeCode.toNat 6)
    let data := readBytes t (after + 16) len
    if data.length ≠ len then s
    else
      match readCrc t (after + 16 * (len + 1)) with
      | none => s
      | some stored =>
        if dataCrc mark data ≠ stored then { s with bad := s.bad ++ [.data sector.sector stored] }
        else if s.found.any fun f => f.sector = sector.sector then s
        else
          { s with found := s.found ++ [{ sector with deleted := mark = ddam, data := data }] }

def Scan.field (s : Scan) (t : Track) (after : Nat) : Scan :=
  match readByte t after with
  | none => s
  | some mark =>
    if mark = idam then s.id t after
    else if mark = dam ∨ mark = ddam then s.data t after mark
    else s

def Scan.walk (t : Track) : List Nat → Scan → Scan
  | first :: second :: third :: rest, s =>
    if second = first + 16 ∧ third = first + 32 then Scan.walk t rest (s.field t third)
    else Scan.walk t (second :: third :: rest) s
  | _, s => s

def decodeTrack (t : Track) : List Sector × List Bad :=
  if t.len = 0 then ([], [])
  else
    let s := Scan.walk t (marks t) {}
    (s.found, s.bad)

end Rsemu.Mac
