import Mathlib.Data.List.GetD
import Mathlib.Data.Nat.Size
import Rsemu.Base.Incremental

/-!
# The messages a viewer sends

`Version::parse`, `PixelFormat` and `parse_client` of the remote framebuffer protocol.
A client message has no length prefix of its own: its first byte says how it is laid
out, and two of the six layouts carry a count. `Whole` states the layouts byte by byte,
apart from the code; `parseClient_whole` and `whole_of_parseClient` say that the code
reads exactly them.
-/

namespace Rsemu.Vnc

open Incremental

def byte (bytes : List UInt8) (i : Nat) : UInt8 :=
  bytes.getD i 0

def slice (bytes : List UInt8) (lo hi : Nat) : List UInt8 :=
  (bytes.take hi).drop lo

def be16 (hi lo : UInt8) : UInt16 :=
  hi.toUInt16 <<< 8 ||| lo.toUInt16

def be32 (a b c d : UInt8) : UInt32 :=
  a.toUInt32 <<< 24 ||| b.toUInt32 <<< 16 ||| c.toUInt32 <<< 8 ||| d.toUInt32

def at16 (bytes : List UInt8) (i : Nat) : UInt16 :=
  be16 (byte bytes i) (byte bytes (i + 1))

def at32 (bytes : List UInt8) (i : Nat) : UInt32 :=
  be32 (byte bytes i) (byte bytes (i + 1)) (byte bytes (i + 2)) (byte bytes (i + 3))

theorem byte_append {bytes : List UInt8} {i : Nat} (more : List UInt8) (h : i < bytes.length) :
    byte (bytes ++ more) i = byte bytes i :=
  List.getD_append _ _ _ _ h

theorem at16_append {bytes : List UInt8} {i : Nat} (more : List UInt8)
    (h : i + 1 < bytes.length) : at16 (bytes ++ more) i = at16 bytes i := by
  rw [at16, at16, byte_append more (by omega), byte_append more h]

theorem at32_append {bytes : List UInt8} {i : Nat} (more : List UInt8)
    (h : i + 3 < bytes.length) : at32 (bytes ++ more) i = at32 bytes i := by
  rw [at32, at32, byte_append more (by omega), byte_append more (by omega),
    byte_append more (by omega), byte_append more h]

theorem slice_append {bytes : List UInt8} {lo hi : Nat} (more : List UInt8)
    (h : hi ≤ bytes.length) : slice (bytes ++ more) lo hi = slice bytes lo hi := by
  rw [slice, slice, List.take_append_of_le_length h]

/-- A protocol version. -/
structure Version where
  major : Nat
  minor : Nat
  deriving DecidableEq

namespace Version

def V3_3 : Version := ⟨3, 3⟩
def V3_7 : Version := ⟨3, 7⟩
def V3_8 : Version := ⟨3, 8⟩

def le (v w : Version) : Bool :=
  decide (v.major < w.major) || (decide (v.major = w.major) && decide (v.minor ≤ w.minor))

def LEN : Nat := 12

def digits : List UInt8 → Option Nat :=
  List.foldlM (fun n b => if 48 ≤ b ∧ b ≤ 57 then some (n * 10 + (b.toNat - 48)) else none) 0

/-- `Version::parse`: the twelve bytes `RFB xxx.yyy\n`, clamped down to a version the
server knows. -/
def parse (bytes : List UInt8) : Option Version :=
  if bytes.length < LEN ∨ bytes.take 4 ≠ [0x52, 0x46, 0x42, 0x20] ∨ byte bytes 7 ≠ 0x2e then
    none
  else do
    let major ← digits (slice bytes 4 7)
    let minor ← digits (slice bytes 8 11)
    if major > 3 ∨ (major = 3 ∧ minor ≥ 8) then
      pure V3_8
    else if major = 3 ∧ minor ≥ 7 then
      pure V3_7
    else
      pure V3_3

end Version

def PIXEL_FORMAT_LEN : Nat := 16

def channelFits (max : UInt16) (shift bitsPerPixel : UInt8) : Bool :=
  if max &&& (max + 1) ≠ 0 then
    false
  else
    -- the width of the mask, `u16::BITS - max.leading_zeros()`
    decide (shift.toNat + max.toNat.size ≤ bitsPerPixel.toNat)

/-- How the client wants its pixels. -/
structure PixelFormat where
  bitsPerPixel : UInt8
  depth : UInt8
  bigEndian : Bool
  trueColour : Bool
  redMax : UInt16
  greenMax : UInt16
  blueMax : UInt16
  redShift : UInt8
  greenShift : UInt8
  blueShift : UInt8
  deriving DecidableEq

namespace PixelFormat

/-- What the server offers in ServerInit. -/
def DEFAULT : PixelFormat where
  bitsPerPixel := 32
  depth := 24
  bigEndian := false
  trueColour := true
  redMax := 255
  greenMax := 255
  blueMax := 255
  redShift := 16
  greenShift := 8
  blueShift := 0

/-- Whether the protocol permits the format at all. The channels of a colour-map format
are not read. -/
def isWellFormed (f : PixelFormat) : Bool :=
  if ¬ (f.bitsPerPixel = 8 ∨ f.bitsPerPixel = 16 ∨ f.bitsPerPixel = 32) then
    false
  else if f.depth > f.bitsPerPixel then
    false
  else if !f.trueColour then
    true
  else
    channelFits f.redMax f.redShift f.bitsPerPixel
      && channelFits f.greenMax f.greenShift f.bitsPerPixel
      && channelFits f.blueMax f.blueShift f.bitsPerPixel

/-- `PixelFormat::parse`: the sixteen bytes, the last three of them padding. -/
def parse (bytes : List UInt8) : Option PixelFormat :=
  if bytes.length < PIXEL_FORMAT_LEN then
    none
  else
    let format : PixelFormat :=
      { bitsPerPixel := byte bytes 0
        depth := byte bytes 1
        bigEndian := byte bytes 2 != 0
        trueColour := byte bytes 3 != 0
        redMax := at16 bytes 4
        greenMax := at16 bytes 6
        blueMax := at16 bytes 8
        redShift := byte bytes 10
        greenShift := byte bytes 11
        blueShift := byte bytes 12 }
    if format.isWellFormed then some format else none

def isSupported (f : PixelFormat) : Bool :=
  f.trueColour
    && (f.bitsPerPixel = 8 ∨ f.bitsPerPixel = 16 ∨ f.bitsPerPixel = 32)
    && f.redMax > 0 && f.greenMax > 0 && f.blueMax > 0

end PixelFormat

namespace ClientMsg

def SET_PIXEL_FORMAT : UInt8 := 0
def SET_ENCODINGS : UInt8 := 2
def FRAMEBUFFER_UPDATE_REQUEST : UInt8 := 3
def KEY_EVENT : UInt8 := 4
def POINTER_EVENT : UInt8 := 5
def CLIENT_CUT_TEXT : UInt8 := 6

end ClientMsg

/-- What a client can say. -/
inductive ClientMessage where
  | setPixelFormat (format : PixelFormat)
  | setEncodings (list : List Int32)
  | updateRequest (incremental : Bool) (x y width height : UInt16)
  | key (key : UInt32) (down : Bool)
  | pointer (x y : UInt16) (buttons : UInt8)
  | cutText (text : String)
  deriving DecidableEq

/-- The verdict on the front of the input. -/
inductive Parsed where
  | message (m : ClientMessage) (used : Nat)
  | incomplete
  | unknown (kind : UInt8)
  | malformed
  deriving DecidableEq

def encodingList (bytes : List UInt8) (count : Nat) : List Int32 :=
  (List.range count).map fun i => (at32 bytes (4 + i * 4)).toInt32

def latin1 (bytes : List UInt8) : String :=
  String.ofList (bytes.map fun b => Char.ofNat b.toNat)

def need (bytes : List UInt8) (n : Nat) (body : Parsed) : Parsed :=
  if bytes.length < n then .incomplete else body

/-- `parse_client` once the first byte has said what kind of message it is. The host is a
64-bit one, where the length of a text and its header cannot overflow. -/
def parseKind (kind : UInt8) (bytes : List UInt8) : Parsed :=
  if kind = ClientMsg.SET_PIXEL_FORMAT then
    need bytes 20 <|
      match PixelFormat.parse (slice bytes 4 20) with
      | some format => .message (.setPixelFormat format) 20
      | none => .malformed
  else if kind = ClientMsg.SET_ENCODINGS then
    need bytes 4 <|
      let count := (at16 bytes 2).toNat
      let total := 4 + count * 4
      need bytes total <| .message (.setEncodings (encodingList bytes count)) total
  else if kind = ClientMsg.FRAMEBUFFER_UPDATE_REQUEST then
    need bytes 10 <|
      .message
        (.updateRequest (byte bytes 1 != 0) (at16 bytes 2) (at16 bytes 4) (at16 bytes 6)
          (at16 bytes 8)) 10
  else if kind = ClientMsg.KEY_EVENT then
    need bytes 8 <| .message (.key (at32 bytes 4) (byte bytes 1 != 0)) 8
  else if kind = ClientMsg.POINTER_EVENT then
    need bytes 6 <| .message (.pointer (at16 bytes 2) (at16 bytes 4) (byte bytes 1)) 6
  else if kind = ClientMsg.CLIENT_CUT_TEXT then
    need bytes 8 <|
      let total := 8 + (at32 bytes 4).toNat
      need bytes total <| .message (.cutText (latin1 (slice bytes 8 total))) total
  else
    .unknown kind

def parseClient (bytes : List UInt8) : Parsed :=
  match bytes with
  | [] => .incomplete
  | kind :: rest => parseKind kind (kind :: rest)

/-- Four bytes. -/
structure Word where
  a : UInt8
  b : UInt8
  c : UInt8
  d : UInt8

namespace Word

def bytes (w : Word) : List UInt8 :=
  [w.a, w.b, w.c, w.d]

def value (w : Word) : UInt32 :=
  be32 w.a w.b w.c w.d

end Word

/-- **The bytes of one whole client message**, layout by layout. -/
inductive Whole : List UInt8 → ClientMessage → Prop where
  | setPixelFormat (p q r : UInt8) {body : List UInt8} {format : PixelFormat}
      (hlen : body.length = PIXEL_FORMAT_LEN) (hf : PixelFormat.parse body = some format) :
      Whole (ClientMsg.SET_PIXEL_FORMAT :: p :: q :: r :: body) (.setPixelFormat format)
  | setEncodings (p hi lo : UInt8) {words : List Word}
      (hlen : words.length = (be16 hi lo).toNat) :
      Whole (ClientMsg.SET_ENCODINGS :: p :: hi :: lo :: words.flatMap Word.bytes)
        (.setEncodings (words.map fun w => w.value.toInt32))
  | updateRequest (incremental xh xl yh yl wh wl hh hl : UInt8) :
      Whole [ClientMsg.FRAMEBUFFER_UPDATE_REQUEST, incremental, xh, xl, yh, yl, wh, wl, hh, hl]
        (.updateRequest (incremental != 0) (be16 xh xl) (be16 yh yl) (be16 wh wl) (be16 hh hl))
  | key (down p q : UInt8) (w : Word) :
      Whole (ClientMsg.KEY_EVENT :: down :: p :: q :: w.bytes) (.key w.value (down != 0))
  | pointer (buttons xh xl yh yl : UInt8) :
      Whole [ClientMsg.POINTER_EVENT, buttons, xh, xl, yh, yl]
        (.pointer (be16 xh xl) (be16 yh yl) buttons)
  | cutText (p q r : UInt8) (len : Word) {text : List UInt8}
      (hlen : text.length = len.value.toNat) :
      Whole (ClientMsg.CLIENT_CUT_TEXT :: p :: q :: r :: (len.bytes ++ text))
        (.cutText (latin1 text))

theorem need_of_le {bytes : List UInt8} {n : Nat} (body : Parsed) (h : n ≤ bytes.length) :
    need bytes n body = body :=
  if_neg (by omega)

theorem need_of_lt {bytes : List UInt8} {n : Nat} (body : Parsed) (h : bytes.length < n) :
    need bytes n body = .incomplete :=
  if_pos h

theorem need_append {bytes : List UInt8} {n : Nat} {body body' : Parsed} (more : List UInt8)
    (h : need bytes n body ≠ .incomplete)
    (hb : n ≤ bytes.length → body ≠ .incomplete → body' = body) :
    need (bytes ++ more) n body' = need bytes n body := by
  by_cases hn : n ≤ bytes.length
  · rw [need_of_le body hn] at h ⊢
    rw [need_of_le body' (by rw [List.length_append]; omega)]
    exact hb hn h
  · exact absurd (need_of_lt body (by omega)) h

theorem encodingList_append {bytes : List UInt8} {count : Nat} (more : List UInt8)
    (h : 4 + count * 4 ≤ bytes.length) :
    encodingList (bytes ++ more) count = encodingList bytes count := by
  refine List.map_congr_left fun i hi => ?_
  have := List.mem_range.mp hi
  rw [at32_append more (by omega)]

theorem parseKind_append {kind : UInt8} {bytes : List UInt8} (more : List UInt8)
    (h : parseKind kind bytes ≠ .incomplete) :
    parseKind kind (bytes ++ more) = parseKind kind bytes := by
  unfold parseKind at h ⊢
  by_cases h0 : kind = ClientMsg.SET_PIXEL_FORMAT
  · rw [if_pos h0] at h
    rw [if_pos h0, if_pos h0]
    refine need_append more h fun hn _ => ?_
    rw [slice_append more hn]
  rw [if_neg h0] at h
  rw [if_neg h0, if_neg h0]
  by_cases h2 : kind = ClientMsg.SET_ENCODINGS
  · rw [if_pos h2] at h
    rw [if_pos h2, if_pos h2]
    refine need_append more h fun hn hb => ?_
    rw [at16_append more (by omega)]
    refine need_append more hb fun hn _ => ?_
    rw [encodingList_append more hn]
  rw [if_neg h2] at h
  rw [if_neg h2, if_neg h2]
  by_cases h3 : kind = ClientMsg.FRAMEBUFFER_UPDATE_REQUEST
  · rw [if_pos h3] at h
    rw [if_pos h3, if_pos h3]
    refine need_append more h fun hn _ => ?_
    rw [byte_append more (by omega), at16_append more (by omega), at16_append more (by omega),
      at16_append more (by omega), at16_append more (by omega)]
  rw [if_neg h3] at h
  rw [if_neg h3, if_neg h3]
  by_cases h4 : kind = ClientMsg.KEY_EVENT
  · rw [if_pos h4] at h
    rw [if_pos h4, if_pos h4]
    refine need_append more h fun hn _ => ?_
    rw [at32_append more (by omega), byte_append more (by omega)]
  rw [if_neg h4] at h
  rw [if_neg h4, if_neg h4]
  by_cases h5 : kind = ClientMsg.POINTER_EVENT
  · rw [if_pos h5] at h
    rw [if_pos h5, if_pos h5]
    refine need_append more h fun hn _ => ?_
    rw [at16_append more (by omega), at16_append more (by omega), byte_append more (by omega)]
  rw [if_neg h5] at h
  rw [if_neg h5, if_neg h5]
  by_cases h6 : kind = ClientMsg.CLIENT_CUT_TEXT
  · rw [if_pos h6] at h
    rw [if_pos h6, if_pos h6]
    refine need_append more h fun hn hb => ?_
    rw [at32_append more (by omega)]
    refine need_append more hb fun hn _ => ?_
    rw [slice_append more hn]
  · rw [if_neg h6, if_neg h6]

theorem parseClient_append {bytes : List UInt8} (more : List UInt8)
    (h : parseClient bytes ≠ .incomplete) : parseClient (bytes ++ more) = parseClient bytes := by
  cases bytes with
  | nil => exact absurd rfl h
  | cons kind rest => exact parseKind_append more h

theorem at32_skip (w : Word) (bytes : List UInt8) (i : Nat) :
    at32 (w.bytes ++ bytes) (i + 4) = at32 bytes i := rfl

theorem at32_words {words : List Word} {i : Nat} {w : Word} (h : words[i]? = some w) :
    at32 (words.flatMap Word.bytes) (i * 4) = w.value := by
  induction words generalizing i with
  | nil => cases h
  | cons v words ih =>
    cases i with
    | zero =>
      cases h
      rfl
    | succ i =>
      rw [Nat.succ_mul, List.flatMap_cons, at32_skip]
      exact ih h

theorem exists_words {bytes : List UInt8} {count : Nat} (h : bytes.length = count * 4) :
    ∃ words : List Word, words.length = count ∧ bytes = words.flatMap Word.bytes := by
  induction count generalizing bytes with
  | zero => exact ⟨[], rfl, List.length_eq_zero_iff.mp (by omega)⟩
  | succ count ih =>
    have hdrop : (bytes.drop 4).length = count * 4 := by
      rw [List.length_drop]
      omega
    obtain ⟨words, hlen, hwords⟩ := ih hdrop
    obtain ⟨a, b, c, d, rest, hb⟩ : ∃ a b c d rest, bytes = a :: b :: c :: d :: rest := by
      rcases bytes with _ | ⟨a, _ | ⟨b, _ | ⟨c, _ | ⟨d, rest⟩⟩⟩⟩
      all_goals simp at h
      all_goals first
        | omega
        | exact ⟨a, b, c, d, rest, rfl⟩
    refine ⟨⟨a, b, c, d⟩ :: words, by rw [List.length_cons, hlen], ?_⟩
    rw [hb] at hwords ⊢
    rw [List.flatMap_cons, ← hwords]
    rfl

theorem encodingList_words (a b c d : UInt8) (words : List Word) :
    encodingList (a :: b :: c :: d :: words.flatMap Word.bytes) words.length
      = words.map fun w => w.value.toInt32 := by
  refine List.ext_getElem (by simp [encodingList]) fun i hi _ => ?_
  have hlt : i < words.length := by simpa [encodingList] using hi
  have hword := at32_words (List.getElem?_eq_getElem hlt)
  have hat : at32 (a :: b :: c :: d :: words.flatMap Word.bytes) (4 + i * 4)
      = at32 (words.flatMap Word.bytes) (i * 4) := by
    rw [Nat.add_comm 4]
    exact at32_skip ⟨a, b, c, d⟩ _ _
  simp only [encodingList, List.getElem_map, List.getElem_range]
  rw [hat, hword]

theorem length_words (words : List Word) :
    (words.flatMap Word.bytes).length = words.length * 4 := by
  induction words with
  | nil => rfl
  | cons w words ih =>
    rw [List.flatMap_cons, List.length_append, ih, List.length_cons]
    simp only [Word.bytes, List.length_cons, List.length_nil]
    omega

theorem parseClient_whole {bytes : List UInt8} {m : ClientMessage} (h : Whole bytes m) :
    parseClient bytes = .message m bytes.length := by
  cases h with
  | @setPixelFormat p q r body format hlen hf =>
    have hlen' : body.length = 16 := hlen
    have hs : slice (ClientMsg.SET_PIXEL_FORMAT :: p :: q :: r :: body) 4 20 = body := by
      simp only [slice, List.take_succ_cons, List.drop_succ_cons, List.drop_zero]
      exact List.take_of_length_le (by omega)
    rw [parseClient, parseKind, if_pos rfl, need_of_le _ (by simp [hlen']), hs, hf]
    simp [hlen']
  | @setEncodings p hi lo words hlen =>
    have hlist := encodingList_words ClientMsg.SET_ENCODINGS p hi lo words
    have hat : at16 (ClientMsg.SET_ENCODINGS :: p :: hi :: lo :: words.flatMap Word.bytes) 2
        = be16 hi lo := rfl
    have hall : (ClientMsg.SET_ENCODINGS :: p :: hi :: lo :: words.flatMap Word.bytes).length
        = 4 + words.length * 4 := by
      simp only [List.length_cons, length_words]
      omega
    rw [parseClient, parseKind, if_neg (by decide), if_pos rfl, need_of_le _ (by omega), hat,
      ← hlen, need_of_le _ (by omega), hlist, hall]
  | updateRequest => rfl
  | key => rfl
  | pointer => rfl
  | @cutText p q r len text hlen =>
    have hat : at32 (ClientMsg.CLIENT_CUT_TEXT :: p :: q :: r :: (len.bytes ++ text)) 4
        = len.value := rfl
    have hall : (ClientMsg.CLIENT_CUT_TEXT :: p :: q :: r :: (len.bytes ++ text)).length
        = 8 + text.length := by
      simp only [Word.bytes, List.cons_append, List.nil_append, List.length_cons]
      omega
    have hs : slice (ClientMsg.CLIENT_CUT_TEXT :: p :: q :: r :: (len.bytes ++ text)) 8
        (8 + text.length) = text := by
      rw [slice, ← hall, List.take_length]
      rfl
    rw [parseClient, parseKind, if_neg (by decide), if_neg (by decide), if_neg (by decide),
      if_neg (by decide), if_neg (by decide), if_pos rfl, need_of_le _ (by omega), hat, ← hlen,
      need_of_le _ (by omega), hs, hall]

theorem need_eq_message {bytes : List UInt8} {k n : Nat} {body : Parsed} {m : ClientMessage}
    (h : need bytes k body = .message m n) : k ≤ bytes.length ∧ body = .message m n := by
  by_cases hk : k ≤ bytes.length
  · exact ⟨hk, by rwa [need_of_le body hk] at h⟩
  · rw [need_of_lt body (by omega)] at h
    cases h

theorem take_eq_bytes {bytes : List UInt8} {n : Nat} (h : n ≤ bytes.length) :
    bytes.take n = (List.range n).map (byte bytes) := by
  refine List.ext_getElem (by simpa using h) fun i hi _ => ?_
  have hlt : i < bytes.length := by
    rw [List.length_take] at hi
    omega
  simp [byte, List.getD_eq_getElem?_getD, hlt]

theorem take_eq_slice (bytes : List UInt8) {lo hi : Nat} (h : lo ≤ hi) :
    bytes.take hi = bytes.take lo ++ slice bytes lo hi := by
  have hsplit := List.take_append_drop lo (bytes.take hi)
  rwa [List.take_take, Nat.min_eq_left h, eq_comm] at hsplit

theorem length_slice {bytes : List UInt8} {lo hi : Nat} (h : hi ≤ bytes.length) :
    (slice bytes lo hi).length = hi - lo := by
  rw [slice, List.length_drop, List.length_take, Nat.min_eq_left h]

theorem exists_whole {kind : UInt8} {bytes : List UInt8} {m : ClientMessage} {n : Nat}
    (hkind : byte bytes 0 = kind) (h : parseKind kind bytes = .message m n) :
    n ≤ bytes.length ∧ ∃ m', Whole (bytes.take n) m' := by
  unfold parseKind at h
  by_cases h0 : kind = ClientMsg.SET_PIXEL_FORMAT
  · rw [if_pos h0] at h
    obtain ⟨hlen, h⟩ := need_eq_message h
    cases hf : PixelFormat.parse (slice bytes 4 20) with
    | none =>
      rw [hf] at h
      cases h
    | some format =>
      rw [hf] at h
      cases h
      rw [take_eq_slice bytes (show 4 ≤ 20 by decide),
        take_eq_bytes (show 4 ≤ bytes.length by omega)]
      have hbody : (slice bytes 4 20).length = PIXEL_FORMAT_LEN := length_slice hlen
      have hw := Whole.setPixelFormat (byte bytes 1) (byte bytes 2) (byte bytes 3) hbody hf
      rw [← h0, ← hkind] at hw
      exact ⟨hlen, _, hw⟩
  rw [if_neg h0] at h
  by_cases h2 : kind = ClientMsg.SET_ENCODINGS
  · rw [if_pos h2] at h
    obtain ⟨-, h⟩ := need_eq_message h
    obtain ⟨hlen, h⟩ := need_eq_message h
    cases h
    have hbody : (slice bytes 4 (4 + (at16 bytes 2).toNat * 4)).length
        = (at16 bytes 2).toNat * 4 := by
      rw [length_slice hlen, Nat.add_sub_cancel_left]
    obtain ⟨words, hcount, hwords⟩ := exists_words hbody
    rw [take_eq_slice bytes (show 4 ≤ 4 + (at16 bytes 2).toNat * 4 by omega),
      take_eq_bytes (show 4 ≤ bytes.length by omega), hwords]
    have hw := Whole.setEncodings (byte bytes 1) (byte bytes 2) (byte bytes 3) hcount
    rw [← h2, ← hkind] at hw
    exact ⟨hlen, _, hw⟩
  rw [if_neg h2] at h
  by_cases h3 : kind = ClientMsg.FRAMEBUFFER_UPDATE_REQUEST
  · rw [if_pos h3] at h
    obtain ⟨hlen, h⟩ := need_eq_message h
    cases h
    rw [take_eq_bytes hlen]
    have hw := Whole.updateRequest (byte bytes 1) (byte bytes 2) (byte bytes 3) (byte bytes 4)
      (byte bytes 5) (byte bytes 6) (byte bytes 7) (byte bytes 8) (byte bytes 9)
    rw [← h3, ← hkind] at hw
    exact ⟨hlen, _, hw⟩
  rw [if_neg h3] at h
  by_cases h4 : kind = ClientMsg.KEY_EVENT
  · rw [if_pos h4] at h
    obtain ⟨hlen, h⟩ := need_eq_message h
    cases h
    rw [take_eq_bytes hlen]
    have hw := Whole.key (byte bytes 1) (byte bytes 2) (byte bytes 3)
      ⟨byte bytes 4, byte bytes 5, byte bytes 6, byte bytes 7⟩
    rw [← h4, ← hkind] at hw
    exact ⟨hlen, _, hw⟩
  rw [if_neg h4] at h
  by_cases h5 : kind = ClientMsg.POINTER_EVENT
  · rw [if_pos h5] at h
    obtain ⟨hlen, h⟩ := need_eq_message h
    cases h
    rw [take_eq_bytes hlen]
    have hw := Whole.pointer (byte bytes 1) (byte bytes 2) (byte bytes 3) (byte bytes 4)
      (byte bytes 5)
    rw [← h5, ← hkind] at hw
    exact ⟨hlen, _, hw⟩
  rw [if_neg h5] at h
  by_cases h6 : kind = ClientMsg.CLIENT_CUT_TEXT
  · rw [if_pos h6] at h
    obtain ⟨-, h⟩ := need_eq_message h
    obtain ⟨hlen, h⟩ := need_eq_message h
    cases h
    rw [take_eq_slice bytes (show 8 ≤ 8 + (at32 bytes 4).toNat by omega),
      take_eq_bytes (show 8 ≤ bytes.length by omega)]
    have hbody : (slice bytes 8 (8 + (at32 bytes 4).toNat)).length
        = (Word.value ⟨byte bytes 4, byte bytes 5, byte bytes 6, byte bytes 7⟩).toNat := by
      rw [length_slice hlen, Nat.add_sub_cancel_left]
      rfl
    have hw := Whole.cutText (byte bytes 1) (byte bytes 2) (byte bytes 3) _ hbody
    rw [← h6, ← hkind] at hw
    exact ⟨hlen, _, hw⟩
  · rw [if_neg h6] at h
    cases h

theorem parseClient_front {bytes : List UInt8} {m : ClientMessage} {n : Nat}
    (hlen : n ≤ bytes.length) (hw : Whole (bytes.take n) m) : parseClient bytes = .message m n := by
  have hfront := parseClient_whole hw
  have hall := parseClient_append (bytes.drop n) (by rw [hfront]; intro hc; cases hc)
  rw [List.take_append_drop, hfront, List.length_take, Nat.min_eq_left hlen] at hall
  exact hall

theorem whole_of_parseClient {bytes : List UInt8} {m : ClientMessage} {n : Nat}
    (h : parseClient bytes = .message m n) : n ≤ bytes.length ∧ Whole (bytes.take n) m := by
  obtain ⟨hlen, m', hw⟩ : n ≤ bytes.length ∧ ∃ m', Whole (bytes.take n) m' := by
    cases bytes with
    | nil => cases h
    | cons kind rest => exact exists_whole rfl h
  -- the layout is read as its own message, and what follows does not change that
  have hall := parseClient_front hlen hw
  rw [h] at hall
  cases hall
  exact ⟨hlen, hw⟩

theorem Whole.length_pos {bytes : List UInt8} {m : ClientMessage} (h : Whole bytes m) :
    0 < bytes.length := by
  cases h <;> exact Nat.succ_pos _

theorem parseClient_short {bytes : List UInt8} {m : ClientMessage} {k : Nat}
    (h : Whole bytes m) (hk : k < bytes.length) : parseClient (bytes.take k) = .incomplete := by
  -- a front that said anything would say it of the whole, which says its whole length
  by_contra hne
  have hall := parseClient_append (bytes.drop k) hne
  rw [List.take_append_drop, parseClient_whole h] at hall
  have hlen := (whole_of_parseClient hall.symm).1
  rw [List.length_take] at hlen
  omega

theorem parseClient_eq_message_iff {bytes : List UInt8} {m : ClientMessage} {n : Nat} :
    parseClient bytes = .message m n ↔ n ≤ bytes.length ∧ Whole (bytes.take n) m := by
  constructor
  · exact whole_of_parseClient
  · intro h
    exact parseClient_front h.1 h.2

/-- A verdict that ends the connection. -/
def Parsed.Fatal (v : Parsed) : Prop :=
  v ≠ .incomplete ∧ ∀ m n, v ≠ .message m n

theorem need_not_fatal {bytes : List UInt8} {n : Nat} {body : Parsed} (h : ¬ body.Fatal) :
    ¬ (need bytes n body).Fatal := by
  unfold need
  split
  · exact fun hf => hf.1 rfl
  · exact h

theorem message_not_fatal (m : ClientMessage) (n : Nat) : ¬ (Parsed.message m n).Fatal :=
  fun hf => hf.2 m n rfl

theorem parseKind_fatal {kind : UInt8} {bytes : List UInt8} (more : List UInt8)
    (hlen : 20 ≤ bytes.length) (h : (parseKind kind (bytes ++ more)).Fatal) :
    (parseKind kind bytes).Fatal := by
  unfold parseKind at h ⊢
  by_cases h0 : kind = ClientMsg.SET_PIXEL_FORMAT
  · rw [if_pos h0, need_of_le _ (by rw [List.length_append]; omega), slice_append more hlen] at h
    rw [if_pos h0, need_of_le _ hlen]
    exact h
  rw [if_neg h0] at h ⊢
  by_cases h2 : kind = ClientMsg.SET_ENCODINGS
  · rw [if_pos h2] at h
    exact absurd h (need_not_fatal (need_not_fatal (message_not_fatal _ _)))
  rw [if_neg h2] at h ⊢
  by_cases h3 : kind = ClientMsg.FRAMEBUFFER_UPDATE_REQUEST
  · rw [if_pos h3] at h
    exact absurd h (need_not_fatal (message_not_fatal _ _))
  rw [if_neg h3] at h ⊢
  by_cases h4 : kind = ClientMsg.KEY_EVENT
  · rw [if_pos h4] at h
    exact absurd h (need_not_fatal (message_not_fatal _ _))
  rw [if_neg h4] at h ⊢
  by_cases h5 : kind = ClientMsg.POINTER_EVENT
  · rw [if_pos h5] at h
    exact absurd h (need_not_fatal (message_not_fatal _ _))
  rw [if_neg h5] at h ⊢
  by_cases h6 : kind = ClientMsg.CLIENT_CUT_TEXT
  · rw [if_pos h6] at h
    exact absurd h (need_not_fatal (need_not_fatal (message_not_fatal _ _)))
  · rw [if_neg h6] at h ⊢
    exact h

theorem parseClient_fatal {bytes : List UInt8} (more : List UInt8)
    (hlen : 20 ≤ bytes.length) (h : (parseClient (bytes ++ more)).Fatal) :
    (parseClient bytes).Fatal := by
  cases bytes with
  | nil => cases hlen
  | cons kind rest => exact parseKind_fatal more hlen h

end Rsemu.Vnc
