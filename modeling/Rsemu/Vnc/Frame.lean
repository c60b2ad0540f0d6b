import Rsemu.Base.Runs
import Rsemu.Vnc.Pixel

/-!
# Turning a surface into an update

The frame encoder of one connection. It remembers the last surface the client was sent,
and the geometry the client was told: a client that asked for it is told of a new one
with a DesktopSize rectangle and a whole frame, and any other keeps the one it was
promised. An incremental update of a surface in the shape of the last is a rectangle for
each run of rows that changed.
-/

namespace Rsemu.Vnc

/-- How a surface's bytes are laid out: the named layouts, and whatever a host invents. -/
structure SurfaceFormat where
  code : UInt16
  deriving DecidableEq

namespace SurfaceFormat

def RGBA8888 : SurfaceFormat := ⟨0⟩
def BGRA8888 : SurfaceFormat := ⟨1⟩
def RGB888 : SurfaceFormat := ⟨2⟩

def bytesPerPixel (f : SurfaceFormat) : Nat :=
  if f = RGB888 then 3 else 4

def channelOffsets (f : SurfaceFormat) : Nat × Nat × Nat :=
  if f = BGRA8888 then (2, 1, 0) else (0, 1, 2)

end SurfaceFormat

/-- The guest's screen. -/
structure Surface where
  format : SurfaceFormat
  width : Nat
  height : Nat
  pixels : List UInt8
  length_pixels : pixels.length = width * format.bytesPerPixel * height

namespace Surface

def stride (s : Surface) : Nat :=
  s.width * s.format.bytesPerPixel

def offsetOf (s : Surface) (x y : Nat) : Option Nat :=
  if x ≥ s.width ∨ y ≥ s.height then none
  else some (y * s.stride + x * s.format.bytesPerPixel)

def get (s : Surface) (x y : Nat) : Option Rgb :=
  (s.offsetOf x y).map fun offset =>
    { r := byte s.pixels (offset + s.format.channelOffsets.1)
      g := byte s.pixels (offset + s.format.channelOffsets.2.1)
      b := byte s.pixels (offset + s.format.channelOffsets.2.2) }

def row (s : Surface) (y : Nat) : Option (List UInt8) :=
  if y ≥ s.height then none else some (slice s.pixels (y * s.stride) (y * s.stride + s.stride))

def shape (s : Surface) : SurfaceFormat × Nat × Nat :=
  (s.format, s.width, s.height)

end Surface

namespace Encoding

def RAW : Int32 := 0
def DESKTOP_SIZE : Int32 := -223

end Encoding

/-- A rectangle of an update. -/
structure Rect where
  x : Nat
  y : Nat
  width : Nat
  height : Nat
  encoding : Int32
  data : List UInt8

/-- A FramebufferUpdate: how many rectangles its header says there are, and those that
follow. -/
structure Update where
  count : Nat
  rects : List Rect

def fits (value : Nat) : Nat :=
  if value > 65535 then 65535 else value

/-- What an encoder keeps of its client. -/
structure FrameEncoder where
  /-- The pixel format the client last asked for. -/
  format : PixelFormat
  /-- The geometry the client believes the framebuffer has. -/
  announced : Nat × Nat
  /-- Whether the client asked for the DesktopSize pseudo-encoding. -/
  resizable : Bool
  /-- The last surface the client was sent, in surface layout. -/
  last : List UInt8
  /-- The shape `last` is in. -/
  lastShape : SurfaceFormat × Nat × Nat

namespace FrameEncoder

def new (format : PixelFormat) (width height : UInt16) : FrameEncoder where
  format := format
  announced := (width.toNat, height.toNat)
  resizable := false
  last := []
  lastShape := (SurfaceFormat.RGBA8888, 0, 0)

def invalidate (e : FrameEncoder) : FrameEncoder :=
  { e with last := [], lastShape := (SurfaceFormat.RGBA8888, 0, 0) }

def setFormat (e : FrameEncoder) (format : PixelFormat) : FrameEncoder :=
  { e with format }.invalidate

def setEncodings (e : FrameEncoder) (list : List Int32) : FrameEncoder :=
  { e with resizable := list.contains Encoding.DESKTOP_SIZE }

def remember (e : FrameEncoder) (surface : Surface) : FrameEncoder :=
  { e with last := surface.pixels, lastShape := surface.shape }

def comparable (e : FrameEncoder) (surface : Surface) (incremental : Bool) : Bool :=
  incremental && !e.last.isEmpty && decide (e.lastShape = surface.shape)

def resized (e : FrameEncoder) (surface : Surface) : Bool :=
  e.resizable && decide ((fits surface.width, fits surface.height) ≠ e.announced)
    && decide (surface.width > 0) && decide (surface.height > 0)

def before (e : FrameEncoder) (surface : Surface) (y : Nat) : List UInt8 :=
  if y * surface.stride + surface.stride ≤ e.last.length then
    slice e.last (y * surface.stride) (y * surface.stride + surface.stride)
  else []

def changed (e : FrameEncoder) (surface : Surface) (y : Nat) : Bool :=
  decide ((surface.row y).getD [] ≠ e.before surface y)

def damagedBands (e : FrameEncoder) (surface : Surface) : List (Nat × Nat) :=
  Runs.runs (e.changed surface) surface.height

def direct (e : FrameEncoder) (surface : Surface) (x width : Nat) : Bool :=
  decide (surface.format = SurfaceFormat.BGRA8888) && decide (e.format = PixelFormat.DEFAULT)
    && decide (x = 0) && decide (width = surface.width)

def pixelData (e : FrameEncoder) (surface : Surface) (x y : Nat) : List UInt8 :=
  e.format.put (e.format.pack ((surface.get x y).getD Rgb.black))

def rowData (e : FrameEncoder) (surface : Surface) (x width sy : Nat) : List UInt8 :=
  match if e.direct surface x width then surface.row sy else none with
  | some bytes => bytes
  | none => (List.range width).flatMap fun column => e.pixelData surface (x + column) sy

def rawRect (e : FrameEncoder) (surface : Surface) (x y width height : Nat) : Rect where
  x := x
  y := y
  width := width
  height := height
  encoding := Encoding.RAW
  data := (List.range height).flatMap fun row => e.rowData surface x width (y + row)

def desktopSize (width height : Nat) : Rect where
  x := 0
  y := 0
  width := width
  height := height
  encoding := Encoding.DESKTOP_SIZE
  data := []

def updateOf (rects : List Rect) : Update where
  count := min rects.length 65535
  rects := rects

def announce (e : FrameEncoder) (surface : Surface) : FrameEncoder :=
  if e.resized surface then { e with announced := (fits surface.width, fits surface.height) } else e

def bandRect (e : FrameEncoder) (surface : Surface) (band : Nat × Nat) : Rect :=
  e.rawRect surface 0 (fits band.1) e.announced.1 (fits (band.2 - band.1))

def bandRects (e : FrameEncoder) (surface : Surface) : List Rect :=
  (e.damagedBands surface).map (e.bandRect surface)

def wholeRects (e : FrameEncoder) (surface : Surface) : List Rect :=
  let e' := e.announce surface
  (if e.resized surface then [desktopSize e'.announced.1 e'.announced.2] else [])
    ++ [e'.rawRect surface 0 0 e'.announced.1 e'.announced.2]

/-- An update for a surface, or nothing where an incremental request has nothing to
say. -/
def update (e : FrameEncoder) (surface : Surface) (incremental : Bool) :
    FrameEncoder × Option Update :=
  if e.comparable surface incremental && !e.resized surface then
    if e.bandRects surface = [] then
      (e, none)
    else
      (e.remember surface, some (updateOf (e.bandRects surface)))
  else
    ((e.announce surface).remember surface, some (updateOf (e.wholeRects surface)))

end FrameEncoder

end Rsemu.Vnc
