import Mathlib.Data.List.GetD
import Rsemu.Base.Pieces
import Rsemu.Vnc.Announced

/-!
# A client sees the machine's screen

A client keeps a framebuffer of the geometry it was told, and paints into it what it is
sent, each pixel taken apart by the pixel format in force. `Holds` is what the encoder
knows of it: where it remembers a surface, that surface is what the client shows. With
it an incremental update need send no more than the rows that changed, and after every
update, sent or not, the client shows the machine's screen (`screen_shown`).
-/

namespace Rsemu.Vnc

open PixelFormat Pieces

/-- The picture that a client has. -/
structure Client where
  width : Nat
  height : Nat
  pixel : Nat → Nat → Colour

def Rect.pixelAt (r : Rect) (f : PixelFormat) (column row : Nat) : List UInt8 :=
  (r.data.drop ((row * r.width + column) * f.bytesPerPixel)).take f.bytesPerPixel

namespace Client

def paint (c : Client) (f : PixelFormat) (r : Rect) : Client :=
  { c with
    pixel := fun x y =>
      if x < c.width ∧ y < c.height ∧ r.x ≤ x ∧ x < r.x + r.width ∧ r.y ≤ y
          ∧ y < r.y + r.height then
        f.decode (r.pixelAt f (x - r.x) (y - r.y))
      else c.pixel x y }

/-- One rectangle. What a framebuffer of a new geometry holds at first is the client's
own affair. -/
def receive (fresh : Client → Nat → Nat → Nat → Nat → Colour) (f : PixelFormat) (c : Client)
    (r : Rect) : Client :=
  if r.encoding = Encoding.DESKTOP_SIZE then
    { width := r.width, height := r.height, pixel := fresh c r.width r.height }
  else c.paint f r

def read (fresh : Client → Nat → Nat → Nat → Nat → Colour) (f : PixelFormat) (c : Client) :
    Option Update → Client
  | none => c
  | some update => (update.rects.take update.count).foldl (receive fresh f) c

/-- The framebuffer is the surface, cropped to its own geometry and black around it, in
the depths of the client's channels. -/
def Shows (c : Client) (f : PixelFormat) (s : Surface) : Prop :=
  ∀ x y, x < c.width → y < c.height →
    c.pixel x y = f.inDepths ((s.get x y).getD Rgb.black)

end Client

def watch (fresh : Client → Nat → Nat → Nat → Nat → Colour) (w : FrameEncoder × Client) (op : Op) :
    FrameEncoder × Client :=
  ((w.1.step op).1, w.2.read fresh w.1.format (w.1.step op).2)

theorem byte_drop (bytes : List UInt8) (n i : Nat) : byte (bytes.drop n) i = byte bytes (n + i) := by
  rw [byte, byte, List.getD_eq_getElem?_getD, List.getD_eq_getElem?_getD, List.getElem?_drop]

theorem byte_take {bytes : List UInt8} {n i : Nat} (h : i < n) :
    byte (bytes.take n) i = byte bytes i := by
  rw [byte, byte, List.getD_eq_getElem?_getD, List.getD_eq_getElem?_getD, List.getElem?_take,
    if_pos h]

theorem byte_slice {bytes : List UInt8} {lo hi i : Nat} (h : lo + i < hi) :
    byte (slice bytes lo hi) i = byte bytes (lo + i) := by
  rw [slice, byte_drop, byte_take h]

namespace Surface

variable {s : Surface}

theorem row_end_le {y : Nat} (hy : y < s.height) : y * s.stride + s.stride ≤ s.pixels.length := by
  rw [s.length_pixels, ← stride, Nat.mul_comm s.stride, ← Nat.succ_mul]
  exact Nat.mul_le_mul_right _ hy

theorem get_of_lt {x y : Nat} (hx : x < s.width) (hy : y < s.height) :
    s.get x y = some
      { r := byte s.pixels
          (y * s.stride + x * s.format.bytesPerPixel + s.format.channelOffsets.1)
        g := byte s.pixels
          (y * s.stride + x * s.format.bytesPerPixel + s.format.channelOffsets.2.1)
        b := byte s.pixels
          (y * s.stride + x * s.format.bytesPerPixel + s.format.channelOffsets.2.2) } := by
  rw [get, offsetOf, if_neg (by omega)]
  rfl

theorem get_of_not_lt {x y : Nat} (h : ¬ (x < s.width ∧ y < s.height)) : s.get x y = none := by
  rw [get, offsetOf, if_pos (by omega)]
  rfl

theorem channelOffsets_lt (f : SurfaceFormat) :
    f.channelOffsets.1 < f.bytesPerPixel ∧ f.channelOffsets.2.1 < f.bytesPerPixel
      ∧ f.channelOffsets.2.2 < f.bytesPerPixel := by
  unfold SurfaceFormat.channelOffsets SurfaceFormat.bytesPerPixel
  split <;> split <;> decide

theorem pixel_end_le {x : Nat} (hx : x < s.width) :
    x * s.format.bytesPerPixel + s.format.bytesPerPixel ≤ s.stride := by
  rw [← Nat.succ_mul]
  exact Nat.mul_le_mul_right _ hx

theorem get_eq_of_row {t : Surface} (hshape : s.shape = t.shape) {y : Nat}
    (hrow : slice s.pixels (y * s.stride) (y * s.stride + s.stride)
      = slice t.pixels (y * s.stride) (y * s.stride + s.stride)) (x : Nat) :
    s.get x y = t.get x y := by
  simp only [shape, Prod.mk.injEq] at hshape
  obtain ⟨hformat, hwidth, hheight⟩ := hshape
  have hstride : t.stride = s.stride := by rw [stride, stride, hformat, hwidth]
  by_cases hin : x < s.width ∧ y < s.height
  · have hbyte : ∀ o, o < s.format.bytesPerPixel →
        byte s.pixels (y * s.stride + x * s.format.bytesPerPixel + o)
          = byte t.pixels (y * s.stride + x * s.format.bytesPerPixel + o) := by
      intro o ho
      have hend := pixel_end_le hin.1
      have hlt : y * s.stride + (x * s.format.bytesPerPixel + o) < y * s.stride + s.stride := by
        omega
      rw [Nat.add_assoc, ← byte_slice hlt, hrow, byte_slice hlt]
    obtain ⟨hr, hg, hb⟩ := channelOffsets_lt s.format
    rw [get_of_lt hin.1 hin.2, get_of_lt (hwidth ▸ hin.1) (hheight ▸ hin.2), hstride, ← hformat,
      hbyte _ hr, hbyte _ hg, hbyte _ hb]
  · rw [get_of_not_lt hin, get_of_not_lt (by rw [← hwidth, ← hheight]; exact hin)]

end Surface

theorem decode_default (b g r a : UInt8) :
    DEFAULT.decode [b, g, r, a] = DEFAULT.inDepths ⟨r, g, b⟩ := by
  have hr := r.toNat_lt
  have hg := g.toNat_lt
  have hb := b.toNat_lt
  have hscale : ∀ v : UInt8, scale v 255 = v.toNat := by
    intro v
    change (v.toNat * 255 + 127) / 255 = v.toNat
    omega
  have hchannel : ∀ value (shift : UInt8), channel value 255 shift
      = value / 2 ^ shift.toNat % 256 := by
    intro value shift
    rw [channel, Nat.shiftRight_eq_div_pow]
    exact Nat.and_two_pow_sub_one_eq_mod _ 8
  change Colour.mk (channel _ 255 16) (channel _ 255 8) (channel _ 255 0)
    = ⟨scale r 255, scale g 255, scale b 255⟩
  rw [hscale, hscale, hscale, hchannel, hchannel, hchannel]
  refine Colour.mk.injEq .. ▸ ⟨?_, ?_, ?_⟩
  · change (b.toNat + 256 * (g.toNat + 256 * (r.toNat + 256 * a.toNat))) / 65536 % 256 = r.toNat
    omega
  · change (b.toNat + 256 * (g.toNat + 256 * (r.toNat + 256 * a.toNat))) / 256 % 256 = g.toNat
    omega
  · change (b.toNat + 256 * (g.toNat + 256 * (r.toNat + 256 * a.toNat))) / 1 % 256 = b.toNat
    omega

namespace FrameEncoder

variable {e : FrameEncoder} {s : Surface}

theorem direct_iff {x width : Nat} : e.direct s x width = true ↔
    s.format = SurfaceFormat.BGRA8888 ∧ e.format = DEFAULT ∧ x = 0 ∧ width = s.width := by
  simp only [direct, Bool.and_eq_true, decide_eq_true_eq, and_assoc]

theorem length_pixelData (hf : Proper e.format) (x y : Nat) :
    (e.pixelData s x y).length = e.format.bytesPerPixel :=
  length_put _ hf.sizes

theorem length_packed (hf : Proper e.format) (x width y : Nat) :
    ((List.range width).flatMap fun column => e.pixelData s (x + column) y).length
      = e.format.bytesPerPixel * width := by
  rw [length_flatMap_of (fun column _ => length_pixelData hf (x + column) y), List.length_range]

theorem rowData_cases (x width y : Nat) :
    (e.direct s x width = true ∧ y < s.height
        ∧ e.rowData s x width y = slice s.pixels (y * s.stride) (y * s.stride + s.stride))
      ∨ e.rowData s x width y
          = (List.range width).flatMap fun column => e.pixelData s (x + column) y := by
  unfold rowData Surface.row
  cases hd : e.direct s x width with
  | false => exact Or.inr rfl
  | true =>
    by_cases hy : y ≥ s.height
    · right
      rw [if_pos rfl, if_pos hy]
    · left
      refine ⟨rfl, by omega, ?_⟩
      rw [if_pos rfl, if_neg hy]

theorem length_rowData (hf : Proper e.format) (x width y : Nat) :
    (e.rowData s x width y).length = e.format.bytesPerPixel * width := by
  rcases rowData_cases (e := e) (s := s) x width y with ⟨hd, hy, hrow⟩ | hrow
  · obtain ⟨hformat, hdefault, -, hwidth⟩ := direct_iff.mp hd
    rw [hrow, length_slice (Surface.row_end_le hy), Nat.add_sub_cancel_left, Surface.stride, hformat,
      hdefault, hwidth, Nat.mul_comm]
    rfl
  · rw [hrow, length_packed hf]

theorem decode_rowData (hf : Proper e.format) {x width y column : Nat} (hc : column < width) :
    e.format.decode (((e.rowData s x width y).drop (e.format.bytesPerPixel * column)).take
        e.format.bytesPerPixel)
      = e.format.inDepths ((s.get (x + column) y).getD Rgb.black) := by
  rcases rowData_cases (e := e) (s := s) x width y with ⟨hd, hy, hrow⟩ | hrow
  · -- a row that is copied holds its pixels in the format's own order
    obtain ⟨hformat, hdefault, hx, hwidth⟩ := direct_iff.mp hd
    have hbpp : s.format.bytesPerPixel = 4 := by rw [hformat]; rfl
    have hcol : column < s.width := by omega
    have hend := Surface.pixel_end_le hcol
    rw [hbpp] at hend
    have hlen : (slice s.pixels (y * s.stride) (y * s.stride + s.stride)).length = s.stride := by
      rw [length_slice (Surface.row_end_le hy), Nat.add_sub_cancel_left]
    have hbytes : ((slice s.pixels (y * s.stride) (y * s.stride + s.stride)).drop
          (4 * column)).take 4
        = [byte s.pixels (y * s.stride + column * 4), byte s.pixels (y * s.stride + column * 4 + 1),
            byte s.pixels (y * s.stride + column * 4 + 2),
            byte s.pixels (y * s.stride + column * 4 + 3)] := by
      rw [take_eq_bytes (by rw [List.length_drop, hlen]; omega)]
      have hat : ∀ i, i < 4 →
          byte ((slice s.pixels (y * s.stride) (y * s.stride + s.stride)).drop (4 * column)) i
            = byte s.pixels (y * s.stride + column * 4 + i) := by
        intro i hi
        rw [byte_drop, byte_slice (by omega), Nat.mul_comm 4, Nat.add_assoc]
      rw [show List.range 4 = [0, 1, 2, 3] from rfl]
      simp only [List.map_cons, List.map_nil, hat 0 (by decide), hat 1 (by decide),
        hat 2 (by decide), hat 3 (by decide), Nat.add_zero]
    rw [hrow, hx, Nat.zero_add, Surface.get_of_lt hcol hy, hdefault,
      show DEFAULT.bytesPerPixel = 4 from rfl, hbytes, decode_default, hbpp, hformat]
    rfl
  · have hget : (List.range width)[column]? = some column := List.getElem?_range hc
    have hpixel := take_drop_flatMap
      (fun column _ => length_pixelData (s := s) hf (x + column) y) hget
    rw [hrow, hpixel]
    exact decode_put_pack hf _

theorem decode_rawRect (hf : Proper e.format) {x y width height column row : Nat}
    (hc : column < width) (hr : row < height) :
    e.format.decode ((e.rawRect s x y width height).pixelAt e.format column row)
      = e.format.inDepths ((s.get (x + column) (y + row)).getD Rgb.black) := by
  have hlen := length_rowData (s := s) hf x width (y + row)
  have hget : (List.range height)[row]? = some row := List.getElem?_range hr
  have hrows := drop_flatMap (fun row _ => length_rowData (s := s) hf x width (y + row)) hget
  have hwithin : e.format.bytesPerPixel * column + e.format.bytesPerPixel
      ≤ e.format.bytesPerPixel * width := by
    rw [← Nat.mul_succ]
    exact Nat.mul_le_mul_left _ hc
  have hoffset : (row * width + column) * e.format.bytesPerPixel
      = e.format.bytesPerPixel * width * row + e.format.bytesPerPixel * column := by
    rw [Nat.add_mul, Nat.mul_comm column, Nat.mul_comm row, Nat.mul_comm (width * row),
      ← Nat.mul_assoc]
  rw [← decode_rowData hf hc, Rect.pixelAt]
  change e.format.decode ((((List.range height).flatMap fun row =>
    e.rowData s x width (y + row)).drop ((row * width + column) * _)).take _) = _
  rw [hoffset, ← List.drop_drop, hrows, List.drop_append_of_le_length (by omega),
    List.take_append_of_le_length (by rw [List.length_drop]; omega)]

end FrameEncoder

namespace Client

variable {c : Client} {e : FrameEncoder} {s : Surface}
  {fresh : Client → Nat → Nat → Nat → Nat → Colour}

theorem receive_raw (f : PixelFormat) (x y width height : Nat) :
    receive fresh f c (e.rawRect s x y width height) = c.paint f (e.rawRect s x y width height) :=
  if_neg (show Encoding.RAW ≠ Encoding.DESKTOP_SIZE by decide)

theorem paint_rawRect (hf : Proper e.format) {y height px py : Nat} (hx : px < c.width)
    (hy : py < c.height) :
    (c.paint e.format (e.rawRect s 0 y c.width height)).pixel px py
      = if y ≤ py ∧ py < y + height then e.format.inDepths ((s.get px py).getD Rgb.black)
        else c.pixel px py := by
  by_cases hrow : y ≤ py ∧ py < y + height
  · have hdecode := FrameEncoder.decode_rawRect (s := s) hf (x := 0) (y := y) hx
      (show py - y < height by omega)
    rw [Nat.zero_add, Nat.add_sub_cancel' hrow.1] at hdecode
    rw [if_pos hrow, ← hdecode]
    refine if_pos ⟨hx, hy, Nat.zero_le _, ?_, hrow⟩
    rw [show (e.rawRect s 0 y c.width height).x = 0 from rfl, Nat.zero_add]
    exact hx
  · rw [if_neg hrow]
    exact if_neg fun h => hrow h.2.2.2.2

/-- What painting bands leaves: their rows show the surface, and the others are as they
were. -/
structure Painted (e : FrameEncoder) (s : Surface) (bands : List (Nat × Nat)) (c c' : Client) :
    Prop where
  width : c'.width = c.width
  height : c'.height = c.height
  shown : ∀ x y, x < c.width → y < c.height → (∃ band ∈ bands, band.1 ≤ y ∧ y < band.2) →
    c'.pixel x y = e.format.inDepths ((s.get x y).getD Rgb.black)
  kept : ∀ x y, x < c.width → y < c.height → (¬ ∃ band ∈ bands, band.1 ≤ y ∧ y < band.2) →
    c'.pixel x y = c.pixel x y

theorem paint_bands (hf : Proper e.format) (hheight : s.height ≤ 65535) {bands : List (Nat × Nat)}
    (hbands : ∀ band ∈ bands, band.1 < band.2 ∧ band.2 ≤ s.height)
    (hwidth : c.width = e.announced.1) :
    Painted e s bands c ((bands.map (e.bandRect s)).foldl (receive fresh e.format) c) := by
  induction bands generalizing c with
  | nil =>
    refine ⟨rfl, rfl, fun x y _ _ hin => ?_, fun _ _ _ _ _ => rfl⟩
    obtain ⟨band, hmem, -⟩ := hin
    cases hmem
  | cons band bands ih =>
    obtain ⟨⟨hlt, hle⟩, hrest⟩ := List.forall_mem_cons.mp hbands
    have hrect : e.bandRect s band = e.rawRect s 0 band.1 c.width (band.2 - band.1) := by
      rw [FrameEncoder.bandRect, FrameEncoder.fits_of_le (by omega),
        FrameEncoder.fits_of_le (by omega), hwidth]
    have hpixel : ∀ x y, x < c.width → y < c.height →
        (c.paint e.format (e.bandRect s band)).pixel x y
          = if band.1 ≤ y ∧ y < band.2 then e.format.inDepths ((s.get x y).getD Rgb.black)
            else c.pixel x y := by
      intro x y hx hy
      rw [hrect, paint_rawRect hf hx hy, Nat.add_sub_cancel' (Nat.le_of_lt hlt)]
    have hpainted := @ih (c.paint e.format (e.bandRect s band)) hrest hwidth
    rw [List.map_cons, List.foldl_cons, hrect, receive_raw, ← hrect]
    refine ⟨hpainted.width, hpainted.height, fun x y hx hy hin => ?_, fun x y hx hy hout => ?_⟩
    · by_cases hlater : ∃ b ∈ bands, b.1 ≤ y ∧ y < b.2
      · exact hpainted.shown x y hx hy hlater
      · obtain ⟨b, hmem, hb⟩ := hin
        rcases List.mem_cons.mp hmem with rfl | hmem
        · rw [hpainted.kept x y hx hy hlater, hpixel x y hx hy, if_pos hb]
        · exact absurd ⟨b, hmem, hb⟩ hlater
    · have hlater : ¬ ∃ b ∈ bands, b.1 ≤ y ∧ y < b.2 := fun hin => by
        obtain ⟨b, hmem, hb⟩ := hin
        exact hout ⟨b, List.mem_cons_of_mem _ hmem, hb⟩
      have hhere : ¬ (band.1 ≤ y ∧ y < band.2) := fun hb =>
        hout ⟨band, List.mem_cons_self, hb⟩
      rw [hpainted.kept x y hx hy hlater, hpixel x y hx hy, if_neg hhere]

theorem paint_whole (hf : Proper e.format) :
    (c.paint e.format (e.rawRect s 0 0 c.width c.height)).Shows e.format s := by
  intro x y hx hy
  have hx' : x < c.width := hx
  have hy' : y < c.height := hy
  rw [paint_rawRect hf hx' hy', Nat.zero_add, if_pos ⟨Nat.zero_le _, hy'⟩]

end Client

/-- **The client has the geometry that was announced**, and where the encoder remembers a
surface, shows that surface. -/
structure Holds (e : FrameEncoder) (c : Client) : Prop where
  size : (c.width, c.height) = e.announced
  shown : e.last ≠ [] → ∃ s : Surface, s.pixels = e.last ∧ s.shape = e.lastShape ∧ c.Shows e.format s

namespace FrameEncoder

variable {e : FrameEncoder} {surface : Surface} {incremental : Bool} {c : Client}
  {fresh : Client → Nat → Nat → Nat → Nat → Colour}

theorem shown_of_same {s : Surface} (hshape : s.shape = surface.shape) (hlast : s.pixels = e.last)
    {y : Nat} (hsame : y < surface.height → e.changed surface y = false) (x : Nat) :
    s.get x y = surface.get x y := by
  by_cases hy : y < surface.height
  · have hstride : s.stride = surface.stride := by
      simp only [Surface.shape, Prod.mk.injEq] at hshape
      rw [Surface.stride, Surface.stride, hshape.1, hshape.2.1]
    have hheight : s.height = surface.height := by
      simp only [Surface.shape, Prod.mk.injEq] at hshape
      exact hshape.2.2
    have hend := Surface.row_end_le (s := s) (hheight ▸ hy)
    have hrows := hsame hy
    unfold changed Surface.row before at hrows
    rw [if_neg (by omega), Option.getD_some, ← hlast, ← hstride, if_pos hend] at hrows
    refine Surface.get_eq_of_row hshape ?_ x
    exact (not_not.mp (of_decide_eq_false hrows)).symm
  · have hout : ¬ (x < surface.width ∧ y < surface.height) := fun h => hy h.2
    have hout' : ¬ (x < s.width ∧ y < s.height) := by
      simp only [Surface.shape, Prod.mk.injEq] at hshape
      rw [hshape.2.1, hshape.2.2]
      exact hout
    rw [Surface.get_of_not_lt hout, Surface.get_of_not_lt hout']

theorem shape_of_comparable (h : e.comparable surface incremental = true) :
    e.last ≠ [] ∧ e.lastShape = surface.shape := by
  simp only [comparable, Bool.and_eq_true, decide_eq_true_eq] at h
  refine ⟨fun hc => ?_, h.2⟩
  rw [hc] at h
  cases h.1.2

theorem announce_format : (e.announce surface).format = e.format := by
  unfold announce
  split <;> rfl

theorem update_format : (e.update surface incremental).1.format = e.format := by
  have hu := e.updates surface incremental
  obtain ⟨r, hr⟩ : ∃ r, e.update surface incremental = r := ⟨_, rfl⟩
  rw [hr] at hu ⊢
  cases hu with
  | nothing hc hn hb => rfl
  | bands hc hn hb => rfl
  | whole hw => exact announce_format

theorem holds_remember {e' : FrameEncoder} (hsize : (c.width, c.height) = e'.announced)
    (hshows : c.Shows e'.format surface) : Holds (e'.remember surface) c where
  size := hsize
  shown := fun _ => ⟨surface, rfl, rfl, hshows⟩

theorem read_bands (hheight : surface.height ≤ 65535) :
    c.read fresh e.format (some (updateOf (e.bandRects surface)))
      = ((e.damagedBands surface).map (e.bandRect surface)).foldl
          (Client.receive fresh e.format) c := by
  have hlen : (e.bandRects surface).length ≤ 65535 := by
    rw [bandRects, List.length_map]
    exact Nat.le_trans (Runs.length_runs_le _ _) hheight
  change ((e.bandRects surface).take (min (e.bandRects surface).length 65535)).foldl _ c = _
  rw [Nat.min_eq_left hlen, List.take_length, bandRects]

theorem bands_show (hf : Proper e.format) (hheight : surface.height ≤ 65535) (h : Holds e c)
    (hc : e.comparable surface incremental = true) :
    ((c.read fresh e.format (some (updateOf (e.bandRects surface)))).width,
        (c.read fresh e.format (some (updateOf (e.bandRects surface)))).height) = e.announced
      ∧ (c.read fresh e.format (some (updateOf (e.bandRects surface)))).Shows e.format surface := by
  obtain ⟨hne, hshape⟩ := shape_of_comparable hc
  obtain ⟨s, hlast, hs, hshows⟩ := h.shown hne
  have hbands : ∀ band ∈ e.damagedBands surface, band.1 < band.2 ∧ band.2 ≤ surface.height :=
    fun band hband => ⟨(Runs.isRun_of_mem hband).lt, (Runs.isRun_of_mem hband).le⟩
  have hwidth : c.width = e.announced.1 := congrArg Prod.fst h.size
  have hpainted := @Client.paint_bands c e surface fresh hf hheight _ hbands hwidth
  rw [read_bands hheight]
  refine ⟨by rw [hpainted.width, hpainted.height]; exact h.size, fun x y hx hy => ?_⟩
  rw [hpainted.width] at hx
  rw [hpainted.height] at hy
  by_cases hin : ∃ band ∈ e.damagedBands surface, band.1 ≤ y ∧ y < band.2
  · exact hpainted.shown x y hx hy hin
  · have hsame : y < surface.height → e.changed surface y = false := by
      intro hlt
      by_contra hchanged
      exact hin (Runs.mem_runs_iff.mpr ⟨hlt, Bool.not_eq_false _ ▸ hchanged⟩)
    rw [hpainted.kept x y hx hy hin, hshows x y hx hy,
      shown_of_same (hs.trans hshape) hlast hsame x]

theorem whole_shows (hf : Proper e.format) (h : Holds e c) :
    ((c.read fresh e.format (some (updateOf (e.wholeRects surface)))).width,
        (c.read fresh e.format (some (updateOf (e.wholeRects surface)))).height)
        = (e.announce surface).announced
      ∧ (c.read fresh e.format (some (updateOf (e.wholeRects surface)))).Shows e.format surface := by
  have hwidth : c.width = e.announced.1 := congrArg Prod.fst h.size
  have hheight : c.height = e.announced.2 := congrArg Prod.snd h.size
  cases hres : e.resized surface with
  | false =>
    have hread : c.read fresh e.format (some (updateOf (e.wholeRects surface)))
        = c.paint e.format (e.rawRect surface 0 0 c.width c.height) := by
      rw [wholeRects_kept hres, hwidth, hheight]
      exact @Client.receive_raw c e surface fresh e.format 0 0 e.announced.1 e.announced.2
    rw [hread, announce_kept hres]
    exact ⟨h.size, Client.paint_whole hf⟩
  | true =>
    obtain ⟨c', hc'⟩ : ∃ c' : Client, c' =
        { width := fits surface.width
          height := fits surface.height
          pixel := fresh c (fits surface.width) (fits surface.height) } := ⟨_, rfl⟩
    have hwidth' : c'.width = fits surface.width := by rw [hc']
    have hheight' : c'.height = fits surface.height := by rw [hc']
    have hread : c.read fresh e.format (some (updateOf (e.wholeRects surface)))
        = c'.paint e.format
            ((e.announce surface).rawRect surface 0 0 c'.width c'.height) := by
      rw [wholeRects_resized hres, hc']
      exact @Client.receive_raw _ (e.announce surface) surface fresh e.format 0 0 _ _
    rw [hread, announce_resized hres]
    have hshows := @Client.paint_whole c' (e.announce surface) surface
      (by rw [announce_format]; exact hf)
    rw [announce_format] at hshows
    exact ⟨by rw [← hwidth', ← hheight']; rfl, hshows⟩

theorem update_shows (hf : Proper e.format) (hheight : surface.height ≤ 65535)
    (h : Holds e c) :
    Holds (e.update surface incremental).1 (c.read fresh e.format (e.update surface incremental).2)
      ∧ (c.read fresh e.format (e.update surface incremental).2).Shows e.format surface := by
  have hu := e.updates surface incremental
  obtain ⟨r, hr⟩ : ∃ r, e.update surface incremental = r := ⟨_, rfl⟩
  rw [hr] at hu ⊢
  cases hu with
  | nothing hc hn hb =>
    obtain ⟨hne, hshape⟩ := shape_of_comparable hc
    obtain ⟨s, hlast, hs, hshows⟩ := h.shown hne
    have hnil : e.damagedBands surface = [] := List.map_eq_nil_iff.mp hb
    have hsame := Runs.runs_eq_nil_iff.mp hnil
    refine ⟨h, fun x y hx hy => ?_⟩
    rw [show c.read fresh e.format none = c from rfl, hshows x y hx hy,
      shown_of_same (hs.trans hshape) hlast (hsame y) x]
  | bands hc hn hb =>
    obtain ⟨hsize, hshows⟩ := @bands_show e surface incremental c fresh hf hheight h hc
    exact ⟨holds_remember hsize hshows, hshows⟩
  | whole hw =>
    obtain ⟨hsize, hshows⟩ := @whole_shows e surface c fresh hf h
    refine ⟨holds_remember hsize ?_, hshows⟩
    rw [announce_format]
    exact hshows

end FrameEncoder

/-- An operation within the protocol: a surface no higher than it can tell, and a format
whose colours can be read back. -/
def Op.Proper : Op → Prop
  | .update surface _ => surface.height ≤ 65535
  | .setFormat format => format.Proper
  | .setEncodings _ => True
  | .invalidate => True

variable {fresh : Client → Nat → Nat → Nat → Nat → Colour}

theorem watch_holds {w : FrameEncoder × Client} {op : Op} (hop : op.Proper)
    (hf : w.1.format.Proper) (h : Holds w.1 w.2) :
    (watch fresh w op).1.format.Proper ∧ Holds (watch fresh w op).1 (watch fresh w op).2 := by
  cases op with
  | update surface incremental =>
    refine ⟨?_, (FrameEncoder.update_shows hf hop h).1⟩
    change (w.1.update surface incremental).1.format.Proper
    rw [FrameEncoder.update_format]
    exact hf
  | setFormat format => exact ⟨hop, h.size, fun hne => absurd rfl hne⟩
  | setEncodings list => exact ⟨hf, h.size, h.shown⟩
  | invalidate => exact ⟨hf, h.size, fun hne => absurd rfl hne⟩

theorem run_holds {ops : List Op} (hops : ∀ op ∈ ops, op.Proper) {w : FrameEncoder × Client}
    (hf : w.1.format.Proper) (h : Holds w.1 w.2) :
    (ops.foldl (watch fresh) w).1.format.Proper
      ∧ Holds (ops.foldl (watch fresh) w).1 (ops.foldl (watch fresh) w).2 := by
  induction ops generalizing w with
  | nil => exact ⟨hf, h⟩
  | cons op ops ih =>
    obtain ⟨hop, hrest⟩ := List.forall_mem_cons.mp hops
    obtain ⟨hf', h'⟩ := @watch_holds fresh w op hop hf h
    exact ih hrest hf' h'

def watched (fresh : Client → Nat → Nat → Nat → Nat → Colour) (format : PixelFormat)
    (width height : UInt16) (pixel : Nat → Nat → Colour) (ops : List Op) :
    FrameEncoder × Client :=
  ops.foldl (watch fresh)
    (FrameEncoder.new format width height, ⟨width.toNat, height.toNat, pixel⟩)

/-- The client shows the surface, at the size it was told. -/
def Sees (w : FrameEncoder × Client) (s : Surface) : Prop :=
  w.2.Shows w.1.format s ∧ (w.2.width, w.2.height) = w.1.announced

/-- **After every update, sent or not, the client shows the machine's screen**, cropped to
the geometry it was told and black around it. -/
theorem screen_shown (fresh : Client → Nat → Nat → Nat → Nat → Colour) {format : PixelFormat}
    (hformat : format.Proper) (width height : UInt16) (pixel : Nat → Nat → Colour)
    {front : List Op} (hfront : ∀ op ∈ front, op.Proper) {surface : Surface}
    (hheight : surface.height ≤ 65535) (incremental : Bool) :
    Sees (watched fresh format width height pixel (front ++ [.update surface incremental]))
      surface := by
  have hnew : Holds (FrameEncoder.new format width height) ⟨width.toNat, height.toNat, pixel⟩ :=
    ⟨rfl, fun hne => absurd rfl hne⟩
  obtain ⟨hf, h⟩ := @run_holds fresh front hfront
    (FrameEncoder.new format width height, ⟨width.toNat, height.toNat, pixel⟩) hformat hnew
  rw [watched, List.foldl_append, List.foldl_cons, List.foldl_nil]
  obtain ⟨w, hw⟩ : ∃ w, front.foldl (watch fresh)
      (FrameEncoder.new format width height, ⟨width.toNat, height.toNat, pixel⟩) = w := ⟨_, rfl⟩
  rw [hw] at hf h ⊢
  obtain ⟨hholds, hshows⟩ :=
    @FrameEncoder.update_shows w.1 surface incremental w.2 fresh hf hheight h
  refine ⟨?_, hholds.size⟩
  change Client.Shows _ (w.1.update surface incremental).1.format surface
  rw [FrameEncoder.update_format]
  exact hshows

/-- A colour of 16 bits, its green in the middle. -/
def rgb565 : PixelFormat where
  bitsPerPixel := 16
  depth := 16
  bigEndian := false
  trueColour := true
  redMax := 31
  greenMax := 63
  blueMax := 31
  redShift := 11
  greenShift := 5
  blueShift := 0

/-- What a client told of four by two pixels does, which changes its format and asks to be told
of the geometry, before the last row of what it shows changes. -/
def flagOps : List Op :=
  [.update (flag 3 0) false, .setFormat rgb565, .setEncodings [Encoding.DESKTOP_SIZE],
    .update (flag 1 1) true]

/-- The last update sends the band that holds the row. -/
theorem flag_shown :
    ((watched (fun _ _ _ _ _ => ⟨0, 0, 0⟩) DEFAULT 4 2 (fun _ _ => ⟨1, 2, 3⟩) flagOps).1.update
        (flag 1 2) true).2.map (fun u => u.rects.map fun r => (r.y, r.height)) = some [(1, 1)] ∧
    Sees (watched (fun _ _ _ _ _ => ⟨0, 0, 0⟩) DEFAULT 4 2 (fun _ _ => ⟨1, 2, 3⟩)
      (flagOps ++ [.update (flag 1 2) true])) (flag 1 2) := by
  refine ⟨by decide, screen_shown _ proper_default 4 2 _ ?_ (by decide) true⟩
  intro op hop
  simp only [flagOps, List.mem_cons, List.not_mem_nil, or_false] at hop
  rcases hop with rfl | rfl | rfl | rfl
  · exact (by decide : (flag 3 0).height ≤ 65535)
  · exact ⟨by decide, by decide, by decide, by decide, by decide⟩
  · trivial
  · exact (by decide : (flag 1 1).height ≤ 65535)

def overlapping : PixelFormat :=
  { DEFAULT with redShift := 0, greenShift := 0, blueShift := 0 }

def red : Surface where
  format := SurfaceFormat.RGB888
  width := 1
  height := 1
  pixels := [255, 0, 0]
  length_pixels := rfl

/-- **Channels that lie over one another cannot be read back**: a client that asks for a
format the protocol permits and the server produces is sent a red pixel, and shows a
white one. -/
theorem overlapping_white :
    overlapping.isSupported = true ∧ overlapping.isWellFormed = true ∧
      ¬ Sees (watched (fun _ _ _ _ _ => ⟨0, 0, 0⟩) DEFAULT 1 1 (fun _ _ => ⟨0, 0, 0⟩)
        [.setFormat overlapping, .update red false]) red := by
  refine ⟨by decide, by decide, fun h => ?_⟩
  have hgreen := congrArg Colour.g (h.1 0 0 (by decide) (by decide))
  revert hgreen
  decide

end Rsemu.Vnc
