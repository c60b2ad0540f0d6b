import Mathlib.Data.Nat.Bitwise
import Mathlib.Data.Nat.Size
import Rsemu.Base.Codec
import Rsemu.Vnc.Proto

/-!
# Packing a pixel, and reading it back

`PixelFormat::pack` and `put` on the server's side, and on the other a viewer that takes
the bytes of a pixel apart by the same format. What it gets is the colour scaled to the
depths of the channels (`decode_put_pack`), where the channels lie apart: the protocol
does not require that they do, and where two overlap neither can be read.
-/

namespace Rsemu.Vnc

open Codec

/-- A colour of eight bits a channel. -/
structure Rgb where
  r : UInt8
  g : UInt8
  b : UInt8

def Rgb.black : Rgb := ⟨0, 0, 0⟩

/-- A colour as a client holds it, each channel in the client's own depth. -/
structure Colour where
  r : Nat
  g : Nat
  b : Nat

namespace PixelFormat

def bytesPerPixel (f : PixelFormat) : Nat :=
  (f.bitsPerPixel.toNat + 7) / 8

def scale (v : UInt8) (max : UInt16) : Nat :=
  (v.toNat * max.toNat + 127) / 255

def place (v : Nat) (shift : UInt8) : Nat :=
  if shift.toNat < 32 then (v <<< shift.toNat) % 2 ^ 32 else 0

def pack (f : PixelFormat) (rgb : Rgb) : Nat :=
  place (scale rgb.r f.redMax) f.redShift
    ||| place (scale rgb.g f.greenMax) f.greenShift
    ||| place (scale rgb.b f.blueMax) f.blueShift

/-- A pixel's bytes. -/
def put (f : PixelFormat) (value : Nat) : List UInt8 :=
  let bytes := if f.bigEndian then (leBytes 4 value).reverse else leBytes 4 value
  if f.bitsPerPixel = 8 then
    [if f.bigEndian then byte bytes 3 else byte bytes 0]
  else if f.bitsPerPixel = 16 then
    if f.bigEndian then slice bytes 2 4 else slice bytes 0 2
  else
    bytes

def word (f : PixelFormat) (bytes : List UInt8) : Nat :=
  fromLe (if f.bigEndian then bytes.reverse else bytes)

def channel (value : Nat) (max : UInt16) (shift : UInt8) : Nat :=
  (value >>> shift.toNat) &&& max.toNat

def decode (f : PixelFormat) (bytes : List UInt8) : Colour where
  r := channel (f.word bytes) f.redMax f.redShift
  g := channel (f.word bytes) f.greenMax f.greenShift
  b := channel (f.word bytes) f.blueMax f.blueShift

def inDepths (f : PixelFormat) (rgb : Rgb) : Colour where
  r := scale rgb.r f.redMax
  g := scale rgb.g f.greenMax
  b := scale rgb.b f.blueMax

def mask (max : UInt16) (shift : UInt8) : Nat :=
  max.toNat <<< shift.toNat

/-- **A format whose colours can be read back**: one this server produces, that the
protocol permits, and whose channels lie apart. -/
structure Proper (f : PixelFormat) : Prop where
  supported : f.isSupported = true
  wellFormed : f.isWellFormed = true
  redGreen : mask f.redMax f.redShift &&& mask f.greenMax f.greenShift = 0
  redBlue : mask f.redMax f.redShift &&& mask f.blueMax f.blueShift = 0
  greenBlue : mask f.greenMax f.greenShift &&& mask f.blueMax f.blueShift = 0

theorem proper_default : Proper DEFAULT := by
  constructor <;> decide

theorem exists_pow_of_and_succ {m : Nat} (h : m &&& (m + 1) = 0) : ∃ n, m + 1 = 2 ^ n := by
  induction m using Nat.strong_induction_on with
  | _ m ih =>
    have hdiv := congrArg (· / 2) h
    simp only [Nat.and_div_two] at hdiv
    rcases Nat.even_or_odd' m with ⟨k, hk | hk⟩
    · -- an even number keeps its upper bits when one is added
      rw [show (m + 1) / 2 = k by omega, show m / 2 = k by omega, Nat.and_self] at hdiv
      exact ⟨0, by omega⟩
    · rw [show (m + 1) / 2 = k + 1 by omega, show m / 2 = k by omega] at hdiv
      obtain ⟨n, hn⟩ := ih k (by omega) hdiv
      refine ⟨n + 1, ?_⟩
      omega

theorem size_two_pow_sub_one (n : Nat) : (2 ^ n - 1).size = n := by
  have hpos := Nat.two_pow_pos n
  refine Nat.le_antisymm (Nat.size_le.mpr (by omega)) ?_
  by_contra hlt
  have hsize := Nat.lt_size_self (2 ^ n - 1)
  have hle : 2 ^ (2 ^ n - 1).size ≤ 2 ^ (n - 1) := Nat.pow_le_pow_right (by decide) (by omega)
  obtain ⟨k, rfl⟩ : ∃ k, n = k + 1 := ⟨n - 1, by omega⟩
  rw [Nat.add_sub_cancel] at hle
  omega

theorem channel_of_fits {max : UInt16} {shift bits : UInt8}
    (h : channelFits max shift bits = true) :
    ∃ n, max.toNat = 2 ^ n - 1 ∧ shift.toNat + n ≤ bits.toNat := by
  unfold channelFits at h
  by_cases hmask : max &&& (max + 1) ≠ 0
  · rw [if_pos hmask] at h
    cases h
  · rw [if_neg hmask] at h
    have hfits := of_decide_eq_true h
    obtain ⟨n, hn⟩ : ∃ n, max.toNat + 1 = 2 ^ n := by
      by_cases hall : max.toNat = 65535
      · exact ⟨16, by rw [hall]; decide⟩
      · have hlt := max.toNat_lt
        have hzero := congrArg UInt16.toNat (not_not.mp hmask)
        rw [UInt16.toNat_and, UInt16.toNat_add] at hzero
        refine exists_pow_of_and_succ ?_
        rwa [show (max.toNat + (1 : UInt16).toNat) % 2 ^ 16 = max.toNat + 1 from
          Nat.mod_eq_of_lt (by change max.toNat + 1 < 65536; omega)] at hzero
    have hmax : max.toNat = 2 ^ n - 1 := by omega
    refine ⟨n, hmax, ?_⟩
    rwa [hmax, size_two_pow_sub_one] at hfits

theorem scale_le (v : UInt8) (max : UInt16) : scale v max ≤ max.toNat := by
  have hv : v.toNat ≤ 255 := Nat.le_of_lt_succ v.toNat_lt
  have hmul : v.toNat * max.toNat ≤ 255 * max.toNat := Nat.mul_le_mul_right _ hv
  unfold scale
  omega

/-- Where a channel of a format lies: so many low bits of it, shifted so far. -/
structure Lies (max : UInt16) (shift : UInt8) (bits n : Nat) : Prop where
  max : max.toNat = 2 ^ n - 1
  pos : 0 < n
  fits : shift.toNat + n ≤ bits

variable {max max' : UInt16} {shift shift' : UInt8} {bits n n' : Nat}

section

variable (h : Lies max shift bits n)
include h

theorem Lies.lt {v : Nat} (hv : v ≤ max.toNat) : v < 2 ^ n := by
  have hpos := Nat.two_pow_pos n
  rw [h.max] at hv
  omega

theorem Lies.testBit_mask (i : Nat) :
    (mask max shift).testBit i = (decide (shift.toNat ≤ i) && decide (i - shift.toNat < n)) := by
  rw [mask, Nat.testBit_shiftLeft, h.max, Nat.testBit_two_pow_sub_one]

theorem Lies.testBit_place (h32 : bits ≤ 32) {v : Nat}
    (hv : v ≤ max.toNat) (i : Nat) :
    (place v shift).testBit i = (decide (shift.toNat ≤ i) && v.testBit (i - shift.toNat)) := by
  have hfits := h.fits
  have hpos := h.pos
  have hlt : v <<< shift.toNat < 2 ^ 32 := by
    rw [Nat.shiftLeft_eq]
    calc v * 2 ^ shift.toNat < 2 ^ n * 2 ^ shift.toNat :=
          Nat.mul_lt_mul_of_pos_right (h.lt hv) (Nat.two_pow_pos _)
      _ = 2 ^ (shift.toNat + n) := by rw [← Nat.pow_add, Nat.add_comm]
      _ ≤ 2 ^ 32 := Nat.pow_le_pow_right (by decide) (by omega)
  rw [place, if_pos (by omega), Nat.mod_eq_of_lt hlt, Nat.testBit_shiftLeft]

theorem Lies.testBit_apart (h' : Lies max' shift' bits n')
    (h32 : bits ≤ 32) (hapart : mask max shift &&& mask max' shift' = 0) {v : Nat}
    (hv : v ≤ max'.toNat) {i : Nat} (hi : i < n) :
    (place v shift').testBit (shift.toNat + i) = false := by
  have hbit := congrArg (Nat.testBit · (shift.toNat + i)) hapart
  simp only [Nat.testBit_and, h.testBit_mask, h'.testBit_mask, Nat.zero_testBit] at hbit
  rw [h'.testBit_place h32 hv]
  by_cases hle : shift'.toNat ≤ shift.toNat + i
  · have hout : n' ≤ shift.toNat + i - shift'.toNat := by
      simp [hi, hle] at hbit
      exact hbit
    have hbelow : v < 2 ^ (shift.toNat + i - shift'.toNat) :=
      Nat.lt_of_lt_of_le (h'.lt hv) (Nat.pow_le_pow_right (by decide) hout)
    rw [Nat.testBit_lt_two_pow hbelow, Bool.and_false]
  · rw [decide_eq_false hle, Bool.false_and]

theorem Lies.channel {value v : Nat} (hv : v ≤ max.toNat)
    (hbits : ∀ i, i < n → value.testBit (shift.toNat + i) = v.testBit i) :
    channel (value % 2 ^ bits) max shift = v := by
  have hfits := h.fits
  refine Nat.eq_of_testBit_eq fun i => ?_
  rw [PixelFormat.channel, Nat.testBit_and, Nat.testBit_shiftRight, Nat.testBit_mod_two_pow, h.max,
    Nat.testBit_two_pow_sub_one]
  by_cases hi : i < n
  · rw [decide_eq_true hi, decide_eq_true (show shift.toNat + i < bits by omega), hbits i hi,
      Bool.true_and, Bool.and_true]
  · have hbelow : v < 2 ^ i :=
      Nat.lt_of_lt_of_le (h.lt hv) (Nat.pow_le_pow_right (by decide) (by omega))
    rw [decide_eq_false hi, Bool.and_false, Nat.testBit_lt_two_pow hbelow]

theorem Lies.testBit_own (h32 : bits ≤ 32) {v : Nat}
    (hv : v ≤ max.toNat) (i : Nat) : (place v shift).testBit (shift.toNat + i) = v.testBit i := by
  rw [h.testBit_place h32 hv, decide_eq_true (Nat.le_add_right _ _), Bool.true_and,
    Nat.add_sub_cancel_left]

end

variable {f : PixelFormat}

theorem Proper.sizes (h : Proper f) :
    f.bitsPerPixel = 8 ∨ f.bitsPerPixel = 16 ∨ f.bitsPerPixel = 32 := by
  have hs := h.supported
  simp only [isSupported, Bool.and_eq_true, decide_eq_true_eq] at hs
  exact hs.1.1.1.2

theorem length_put (value : Nat)
    (h : f.bitsPerPixel = 8 ∨ f.bitsPerPixel = 16 ∨ f.bitsPerPixel = 32) :
    (f.put value).length = f.bytesPerPixel := by
  rcases h with h | h | h <;> cases hb : f.bigEndian <;>
    simp [put, bytesPerPixel, h, hb, slice, length_leBytes]

theorem word_put {value : Nat} (hv : value < 2 ^ 32)
    (h : f.bitsPerPixel = 8 ∨ f.bitsPerPixel = 16 ∨ f.bitsPerPixel = 32) :
    f.word (f.put value) = value % 2 ^ f.bitsPerPixel.toNat := by
  rcases h with h | h | h <;> cases hb : f.bigEndian <;>
    simp [put, word, h, hb, slice, byte, leBytes, fromLe] <;> omega

theorem lies_of_fits (hpos : max > 0) (h : channelFits max shift f.bitsPerPixel = true) :
    ∃ n, Lies max shift f.bitsPerPixel.toNat n := by
  obtain ⟨n, hmax, hfits⟩ := channel_of_fits h
  refine ⟨n, hmax, ?_, hfits⟩
  by_contra hn
  rw [show n = 0 by omega] at hmax
  have hlt : 0 < max.toNat := hpos
  omega

theorem Proper.lies (h : Proper f) :
    (∃ n, Lies f.redMax f.redShift f.bitsPerPixel.toNat n) ∧
      (∃ n, Lies f.greenMax f.greenShift f.bitsPerPixel.toNat n) ∧
      (∃ n, Lies f.blueMax f.blueShift f.bitsPerPixel.toNat n) := by
  have hs := h.supported
  have hw := h.wellFormed
  simp only [isSupported, Bool.and_eq_true, decide_eq_true_eq] at hs
  obtain ⟨⟨⟨⟨htrue, hbits⟩, hr⟩, hg⟩, hb⟩ := hs
  unfold isWellFormed at hw
  rw [if_neg (not_not.mpr hbits)] at hw
  by_cases hdepth : f.depth > f.bitsPerPixel
  · rw [if_pos hdepth] at hw
    cases hw
  · rw [if_neg hdepth, htrue] at hw
    simp only [Bool.not_true, Bool.false_eq_true, if_false, Bool.and_eq_true] at hw
    exact ⟨lies_of_fits hr hw.1.1, lies_of_fits hg hw.1.2, lies_of_fits hb hw.2⟩

theorem bits_le (h : f.bitsPerPixel = 8 ∨ f.bitsPerPixel = 16 ∨ f.bitsPerPixel = 32) :
    f.bitsPerPixel.toNat ≤ 32 := by
  rcases h with h | h | h <;> rw [h] <;> decide

theorem place_lt (v : Nat) (shift : UInt8) : place v shift < 2 ^ 32 := by
  unfold place
  split
  · exact Nat.mod_lt _ (by decide)
  · decide

theorem pack_lt (f : PixelFormat) (rgb : Rgb) : f.pack rgb < 2 ^ 32 :=
  Nat.or_lt_two_pow (Nat.or_lt_two_pow (place_lt _ _) (place_lt _ _)) (place_lt _ _)

theorem decode_put_pack (h : Proper f) (rgb : Rgb) :
    f.decode (f.put (f.pack rgb)) = f.inDepths rgb := by
  obtain ⟨⟨nr, hr⟩, ⟨ng, hg⟩, ⟨nb, hb⟩⟩ := h.lies
  have h32 := bits_le h.sizes
  have hsr := scale_le rgb.r f.redMax
  have hsg := scale_le rgb.g f.greenMax
  have hsb := scale_le rgb.b f.blueMax
  have hgr := h.redGreen
  have hbr := h.redBlue
  have hbg := h.greenBlue
  rw [Nat.and_comm] at hgr hbr hbg
  have hred := hr.channel hsr fun i hi => show (f.pack rgb).testBit _ = _ by
    rw [pack, Nat.testBit_or, Nat.testBit_or, hr.testBit_own h32 hsr,
      hr.testBit_apart hg h32 h.redGreen hsg hi, hr.testBit_apart hb h32 h.redBlue hsb hi,
      Bool.or_false, Bool.or_false]
  have hgreen := hg.channel hsg fun i hi => show (f.pack rgb).testBit _ = _ by
    rw [pack, Nat.testBit_or, Nat.testBit_or, hg.testBit_own h32 hsg,
      hg.testBit_apart hr h32 hgr hsr hi, hg.testBit_apart hb h32 h.greenBlue hsb hi,
      Bool.or_false, Bool.false_or]
  have hblue := hb.channel hsb fun i hi => show (f.pack rgb).testBit _ = _ by
    rw [pack, Nat.testBit_or, Nat.testBit_or, hb.testBit_own h32 hsb,
      hb.testBit_apart hr h32 hbr hsr hi, hb.testBit_apart hg h32 hbg hsg hi,
      Bool.or_false, Bool.false_or]
  rw [decode, word_put (pack_lt f rgb) h.sizes, hred, hgreen, hblue, inDepths]

end PixelFormat

end Rsemu.Vnc
