import Rsemu.Base.Mfm

/-!
# Amiga tracks

Eleven sectors behind a gap. A block of bytes goes down as its odd bits and then its even
bits; a sector is a header and its data, each under a checksum taken over the cells, behind
two sync words. The scanner reads the track as a loop: it may come upon either sync word
first, skips every one that follows, and after a good header skips the sector whole.
-/

namespace Rsemu.Amiga

open Mfm (shiftIn)

/-- A byte. -/
abbrev Byte := BitVec 8

def sectorBytes : Nat := 512

def sectors : Nat := 11

def trackData : Nat := sectorBytes * sectors

def trackBytes : Nat := 12500

def trackCells : Nat := trackBytes * 8

def format : Byte := 0xff

def labelBytes : Nat := 16

def sectorMfmBytes : Nat := 2 * (4 + 4 + labelBytes + 4 + 4 + sectorBytes)

def gapBytes : Nat := trackBytes - sectors * sectorMfmBytes

def dataCells : BitVec 32 := 0x55555555

def fromBe (a b c d : Byte) : BitVec 32 := a ++ b ++ c ++ d

def toBe (x : BitVec 32) : List Byte :=
  [(x >>> 24).setWidth 8, (x >>> 16).setWidth 8, (x >>> 8).setWidth 8, x.setWidth 8]

def longs : List Byte → List (BitVec 32)
  | a :: b :: c :: d :: rest => fromBe a b c d :: longs rest
  | _ => []

/-- The checksum of a region of whole longwords: the odd bits as the odd half's data cells
hold them, and the even bits as the even half's do. -/
def checksum (region : List Byte) : BitVec 32 :=
  (longs region).foldl (fun (sum long : BitVec 32) => sum ^^^ ((long >>> 1) ^^^ long)) 0 &&& dataCells

/-- Cells, most significant first, with the previous data bit for the clock rule. -/
structure Encoder where
  out : List Byte := List.replicate trackBytes 0
  cells : Nat := 0
  last : Bool := false

namespace Encoder

def cell (e : Encoder) (on : Bool) : Encoder :=
  { e with
    out := if on then e.out.modify (e.cells / 8) (· ||| (0x80 : Byte) >>> (e.cells % 8)) else e.out
    cells := e.cells + 1 }

def bit (e : Encoder) (b : Bool) : Encoder :=
  { (e.cell (!e.last && !b)).cell b with last := b }

def raw (e : Encoder) (word : BitVec 16) : Encoder :=
  { (List.range 16).foldl (fun e i => e.cell (word.getLsbD (15 - i))) e with
    last := word.getLsbD 0 }

def bits (shift : Nat) (b : Byte) : List Bool :=
  (List.range 4).map fun k => b.getLsbD (shift - 2 * k)

def block (e : Encoder) (bytes : List Byte) : Encoder :=
  [7, 6].foldl (fun e shift => bytes.foldl (fun e b => (bits shift b).foldl bit e) e) e

end Encoder

def info (track : Byte) (sector : Nat) : List Byte :=
  [format, track, BitVec.ofNat 8 sector, BitVec.ofNat 8 (sectors - sector)]

def label : List Byte := List.replicate labelBytes 0

def Encoder.sector (e : Encoder) (track : Byte) (sector : Nat) (bytes : List Byte) : Encoder :=
  let e := ((e.block [0, 0]).raw Mfm.sync).raw Mfm.sync
  let e := (e.block (info track sector)).block label
  let e := e.block (toBe (checksum (info track sector ++ label)))
  (e.block (toBe (checksum bytes))).block bytes

def slice (data : List Byte) (sector : Nat) : List Byte :=
  (data.drop (sectorBytes * sector)).take sectorBytes

def encodeTrack (track : Byte) (data : List Byte) : List Byte :=
  let gap := (fun e : Encoder => e.bit false)^[gapBytes * 4] {}
  ((List.range (data.length / sectorBytes)).foldl
    (fun e sector => e.sector track sector (slice data sector)) gap).out

/-- One sector found on a track, whether or not it checked out. -/
structure Sector where
  format : Byte
  track : Byte
  sector : Byte
  untilGap : Byte
  label : List Byte
  headerOk : Bool
  dataOk : Bool
  data : List Byte
  /-- The cell the first sync word starts at. -/
  at_ : Nat

def Sector.goodFor (s : Sector) (track : Byte) : Bool :=
  s.headerOk && s.dataOk && s.format == Amiga.format && s.track == track &&
    decide (s.sector.toNat < sectors)

def cell (mfm : List Byte) (at_ : Nat) : Bool :=
  let at_ := at_ % (mfm.length * 8)
  (mfm.getD (at_ / 8) 0).getLsbD (7 - at_ % 8)

def gather (c : Nat → Bool) (at_ shift : Nat) (b : Byte) : Byte :=
  (List.range 4).foldl
    (fun b k => b ||| ((BitVec.ofBool (c (at_ + 2 * k + 1))).setWidth 8 : Byte) <<< (shift - 2 * k)) b

def block (c : Nat → Bool) (at_ n : Nat) : List Byte :=
  (List.range n).map fun i => gather c (at_ + 8 * n + 8 * i) 6 (gather c (at_ + 8 * i) 7 0)

def labelAt : Nat := 64
def sumsAt : Nat := 64 + 256
def dataAt : Nat := 64 + 256 + 128
def sectorEnd : Nat := dataAt + 16 * sectorBytes

def long (bytes : List Byte) : BitVec 32 :=
  fromBe (bytes.getD 0 0) (bytes.getD 1 0) (bytes.getD 2 0) (bytes.getD 3 0)

/-- The sector whose header starts at `body`. -/
def readSector (c : Nat → Bool) (at_ body : Nat) : Sector :=
  let info := block c body 4
  let label := block c (body + labelAt) labelBytes
  let headerSum := long (block c (body + sumsAt) 4)
  let dataSum := long (block c (body + sumsAt + 64) 4)
  let data := block c (body + dataAt) sectorBytes
  { format := info.getD 0 0, track := info.getD 1 0, sector := info.getD 2 0
    untilGap := info.getD 3 0, label := label
    headerOk := checksum (info ++ label) == headerSum
    dataOk := checksum data == dataSum, data := data, at_ := at_ }

def skipSyncs (c : Nat → Bool) : Nat → Nat → Option Nat
  | 0, _ => none
  | fuel + 1, body =>
    if Mfm.word c body = Mfm.sync then skipSyncs c fuel (body + 16) else some body

/-- The sectors from a cell on, within a number of steps: the loops of the scanner need not
end on a track of sync words only. -/
def scanFrom (mfm : List Byte) : Nat → Nat → Option (List Sector)
  | 0, _ => none
  | fuel + 1, at_ =>
    if at_ < mfm.length * 8 then
      if Mfm.word (cell mfm) at_ ≠ Mfm.sync then scanFrom mfm fuel (at_ + 1)
      else
        (skipSyncs (cell mfm) fuel (at_ + 16)).bind fun body =>
          let s := readSector (cell mfm) at_ body
          (scanFrom mfm fuel (if s.headerOk then body + sectorEnd else at_ + 1)).map (s :: ·)
    else some []

def scanTrack (fuel : Nat) (mfm : List Byte) : Option (List Sector) := scanFrom mfm fuel 0

def place (track : Byte) (out : List (Option (List Byte))) (s : Sector) :
    List (Option (List Byte)) :=
  if s.goodFor track && out.getD s.sector.toNat none == none then
    out.set s.sector.toNat (some s.data)
  else out

def decodeTrack (fuel : Nat) (mfm : List Byte) (track : Byte) :
    Option (List (Option (List Byte))) :=
  (scanTrack fuel mfm).map fun found => found.foldl (place track) (List.replicate sectors none)

end Rsemu.Amiga
