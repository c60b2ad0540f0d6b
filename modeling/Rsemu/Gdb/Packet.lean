import Mathlib.Data.List.Basic
import Mathlib.Algebra.Order.Ring.Nat

/-!
# Packets on the debugger's wire

`frame` writes a payload as `$`, a body, `#` and two hex digits; a `Framer` reads the stream
back a byte at a time. The body escapes the four bytes the framing uses and folds runs: after
a byte, `*` and a count character stand for more copies of it. A count character may not be
`#` or `$`, so counts of six and seven are split, and what is left of a run when fewer than
three copies remain is written out.

Decoding appends to what it has decoded so far and repeats its last byte, so the induction is
on the rest of the payload with the decoded front kept general.
-/

namespace Rsemu.Gdb

def maxPacket : Nat := 64 * 1024

def hash : UInt8 := 0x23
def dollar : UInt8 := 0x24
def closeBrace : UInt8 := 0x7d
def star : UInt8 := 0x2a

def interrupt : UInt8 := 0x03

def ack : UInt8 := 0x2b

def nak : UInt8 := 0x2d

def checksum (data : List UInt8) : UInt8 := data.foldl (· + ·) 0

def hex : List UInt8 :=
  [0x30, 0x31, 0x32, 0x33, 0x34, 0x35, 0x36, 0x37, 0x38, 0x39,
   0x61, 0x62, 0x63, 0x64, 0x65, 0x66]

def pushHexU8 (value : UInt8) : List UInt8 :=
  [hex.getD (value >>> 4).toNat 0, hex.getD (value &&& 0x0f).toNat 0]

def hexDigit (c : UInt8) : Option UInt8 :=
  if 0x30 ≤ c ∧ c ≤ 0x39 then some (c - 0x30)
  else if 0x61 ≤ c ∧ c ≤ 0x66 then some (c - 0x61 + 10)
  else if 0x41 ≤ c ∧ c ≤ 0x46 then some (c - 0x41 + 10)
  else none

theorem hexDigit_hex : ∀ n < 16, hexDigit (hex.getD n 0) = some (UInt8.ofNat n) := by
  decide

theorem nibbles : ∀ n < 256,
    (UInt8.ofNat n >>> 4).toNat < 16 ∧ (UInt8.ofNat n &&& 0x0f).toNat < 16 ∧
      ((UInt8.ofNat n >>> 4) <<< 4) ||| (UInt8.ofNat n &&& 0x0f) = UInt8.ofNat n := by
  decide +kernel

theorem hexDigit_pushHexU8 (value : UInt8) :
    ∃ hi lo high low, pushHexU8 value = [hi, lo] ∧ hexDigit hi = some high ∧
      hexDigit lo = some low ∧ (high <<< 4) ||| low = value := by
  obtain ⟨hhigh, hlow, hjoin⟩ := nibbles value.toNat value.toNat_lt
  rw [UInt8.ofNat_toNat] at hhigh hlow hjoin
  refine ⟨_, _, value >>> 4, value &&& 0x0f, rfl, ?_, ?_, hjoin⟩
  · rw [hexDigit_hex _ hhigh, UInt8.ofNat_toNat]
  · rw [hexDigit_hex _ hlow, UInt8.ofNat_toNat]

def mustEscape (byte : UInt8) : Bool :=
  byte == hash || byte == dollar || byte == closeBrace || byte == star

def runOf (byte : UInt8) : List UInt8 → Nat
  | [] => 0
  | b :: rest => if b = byte then runOf byte rest + 1 else 0

def groupOf (extra : Nat) : Nat :=
  if min extra 97 = 6 ∨ min extra 97 = 7 then 5 else min extra 97

theorem groupOf_bounds {extra : Nat} (h : 3 ≤ extra) :
    3 ≤ groupOf extra ∧ groupOf extra ≤ extra ∧ groupOf extra ≤ 97 ∧
      groupOf extra ≠ 6 ∧ groupOf extra ≠ 7 := by
  unfold groupOf
  split <;> omega

/-- The `extra` copies that follow a byte: count groups while a group pays, then the
rest written out. -/
def encodeExtra (byte : UInt8) (extra : Nat) : List UInt8 :=
  if _h : 3 ≤ extra then
    star :: (UInt8.ofNat (groupOf extra) + 29) :: encodeExtra byte (extra - groupOf extra)
  else
    List.replicate extra byte
termination_by extra
decreasing_by
  have := groupOf_bounds ‹3 ≤ extra›
  omega

/-- Escape and run-length-compress a payload into its on-the-wire body. -/
def encodeBody : List UInt8 → List UInt8
  | [] => []
  | byte :: rest =>
    if mustEscape byte then
      closeBrace :: (byte ^^^ 0x20) :: encodeBody rest
    else
      byte :: (encodeExtra byte (runOf byte rest) ++ encodeBody (rest.drop (runOf byte rest)))
termination_by payload => payload.length
decreasing_by
  · exact Nat.lt_succ_self _
  · rw [List.length_drop, List.length_cons]
    omega

/-- What is left of a body, with `out` decoded so far. -/
def decodeFrom (out : List UInt8) : List UInt8 → Option (List UInt8)
  | [] => some out
  | byte :: rest =>
    if byte = closeBrace then
      match rest with
      | [] => none
      | escaped :: rest =>
        if out.length ≥ maxPacket then none
        else decodeFrom (out ++ [escaped ^^^ 0x20]) rest
    else if byte = star then
      match rest with
      | [] => none
      | count :: rest =>
        if count < 29 then none
        else
          match out.getLast? with
          | none => none
          | some last =>
            if out.length + (count - 29).toNat > maxPacket then none
            else decodeFrom (out ++ List.replicate (count - 29).toNat last) rest
    else if out.length ≥ maxPacket then none
    else decodeFrom (out ++ [byte]) rest

def decodeBody (body : List UInt8) : Option (List UInt8) := decodeFrom [] body

def frame (payload : List UInt8) : List UInt8 :=
  dollar :: (encodeBody payload ++ hash :: pushHexU8 (checksum (encodeBody payload)))

/-- What a framer hears. -/
inductive Event where
  | packet (payload : List UInt8)
  | interrupt
  | ack
  | nak
  | corrupt

/-- Where in a frame the framer is. -/
inductive Phase where
  | idle
  | body
  | checksum
deriving DecidableEq

/-- The framer's state. -/
structure Framer where
  phase : Phase
  body : List UInt8
  /-- The two checksum digits, as far as they have come. -/
  digits : UInt8 × UInt8
  /-- How many of them have. -/
  got : Nat
  /-- The body outgrew `maxPacket`. -/
  overflow : Bool

def Framer.new : Framer :=
  { phase := .idle, body := [], digits := (0, 0), got := 0, overflow := false }

def putDigit (digits : UInt8 × UInt8) (got : Nat) (byte : UInt8) : UInt8 × UInt8 :=
  if got = 0 then (byte, digits.2) else if got = 1 then (digits.1, byte) else digits

/-- What the two digits and the body amount to. -/
def Framer.complete (f : Framer) : Event :=
  match hexDigit f.digits.1, hexDigit f.digits.2 with
  | some hi, some lo =>
    if f.overflow ∨ (hi <<< 4) ||| lo ≠ checksum f.body then .corrupt
    else
      match decodeBody f.body with
      | some payload => .packet payload
      | none => .corrupt
  | _, _ => .corrupt

/-- Feed one byte, and report what it completed. -/
def Framer.push (f : Framer) (byte : UInt8) : Framer × Option Event :=
  match f.phase with
  | .idle =>
    if byte = dollar then ({ f with body := [], overflow := false, phase := .body }, none)
    else if byte = Gdb.interrupt then (f, some .interrupt)
    else if byte = Gdb.ack then (f, some .ack)
    else if byte = Gdb.nak then (f, some .nak)
    -- line noise between packets
    else (f, none)
  | .body =>
    if byte = hash then ({ f with phase := .checksum, got := 0 }, none)
    -- the packet before was lost: start over rather than glue two together
    else if byte = dollar then ({ f with body := [], overflow := false }, none)
    else if f.body.length ≥ maxPacket then ({ f with overflow := true }, none)
    else ({ f with body := f.body ++ [byte] }, none)
  | .checksum =>
    let f := { f with digits := putDigit f.digits f.got byte, got := f.got + 1 }
    if f.got < 2 then (f, none)
    else ({ f with phase := .idle }, some f.complete)

def Framer.feed (f : Framer) : List UInt8 → Framer × List Event
  | [] => (f, [])
  | byte :: rest =>
    (((f.push byte).1.feed rest).1,
      (f.push byte).2.toList ++ ((f.push byte).1.feed rest).2)

theorem feed_append (f : Framer) (p q : List UInt8) :
    f.feed (p ++ q) = (((f.feed p).1.feed q).1, (f.feed p).2 ++ ((f.feed p).1.feed q).2) := by
  induction p generalizing f with
  | nil => rfl
  | cons byte rest ih =>
    rw [List.cons_append, Framer.feed, Framer.feed, ih, List.append_assoc]

variable {byte : UInt8} {out rest : List UInt8}

theorem not_mustEscape (h : mustEscape byte = false) :
    byte ≠ hash ∧ byte ≠ dollar ∧ byte ≠ closeBrace ∧ byte ≠ star := by
  simp only [mustEscape, Bool.or_eq_false_iff, beq_eq_false_iff_ne] at h
  exact ⟨h.1.1.1, h.1.1.2, h.1.2, h.2⟩

theorem decodeFrom_literal (h : mustEscape byte = false) (hlen : out.length < maxPacket) :
    decodeFrom out (byte :: rest) = decodeFrom (out ++ [byte]) rest := by
  obtain ⟨-, -, hbrace, hstar⟩ := not_mustEscape h
  rw [decodeFrom.eq_def]
  simp only [hbrace, hstar, if_false]
  exact if_neg (by omega)

theorem decodeFrom_escaped (hlen : out.length < maxPacket) :
    decodeFrom out (closeBrace :: (byte ^^^ 0x20) :: rest) = decodeFrom (out ++ [byte]) rest := by
  have hback : byte ^^^ 0x20 ^^^ 0x20 = byte := by
    rw [UInt8.xor_assoc, UInt8.xor_self, UInt8.xor_zero]
  rw [decodeFrom.eq_def]
  simp only [if_true, hback]
  exact if_neg (by omega)

theorem decodeFrom_group {take : Nat} (hlast : out.getLast? = some byte) (htake : take ≤ 97)
    (hlen : out.length + take ≤ maxPacket) :
    decodeFrom out (star :: (UInt8.ofNat take + 29) :: rest) =
      decodeFrom (out ++ List.replicate take byte) rest := by
  have hnat : (UInt8.ofNat take + 29).toNat = take + 29 := by
    show (take % 2 ^ 8 + 29) % 2 ^ 8 = take + 29
    omega
  have hcount : ¬ UInt8.ofNat take + 29 < 29 := by
    rw [UInt8.lt_iff_toNat_lt, hnat]
    show ¬ take + 29 < 29
    omega
  have hextra : (UInt8.ofNat take + 29 - 29).toNat = take := by
    rw [UInt8.add_sub_cancel, UInt8.toNat_ofNat']
    omega
  have hne : star ≠ closeBrace := by decide
  rw [decodeFrom.eq_def]
  simp only [hne, hcount, hlast, hextra, if_false, if_true]
  exact if_neg (by omega)

theorem decodeFrom_replicate {n : Nat} (h : mustEscape byte = false)
    (hlen : out.length + n ≤ maxPacket) :
    decodeFrom out (List.replicate n byte ++ rest) =
      decodeFrom (out ++ List.replicate n byte) rest := by
  induction n generalizing out with
  | zero => simp
  | succ n ih =>
    rw [List.replicate_succ, List.cons_append, decodeFrom_literal h (by omega),
      ih (by rw [List.length_append, List.length_singleton]; omega), List.append_assoc,
      List.singleton_append]

theorem decodeFrom_encodeExtra {extra : Nat} (h : mustEscape byte = false)
    (hlast : out.getLast? = some byte) (hlen : out.length + extra ≤ maxPacket) :
    decodeFrom out (encodeExtra byte extra ++ rest) =
      decodeFrom (out ++ List.replicate extra byte) rest := by
  induction extra using Nat.strong_induction_on generalizing out with
  | _ extra ih =>
    rw [encodeExtra]
    split
    · rename_i hmore
      obtain ⟨hthree, hle, h97, -, -⟩ := groupOf_bounds hmore
      have hlast' : (out ++ List.replicate (groupOf extra) byte).getLast? = some byte := by
        obtain ⟨n, hn⟩ : ∃ n, groupOf extra = n + 1 := ⟨groupOf extra - 1, by omega⟩
        rw [hn, List.replicate_succ', ← List.append_assoc, List.getLast?_concat]
      rw [List.cons_append, List.cons_append, decodeFrom_group hlast h97 (by omega),
        ih _ (by omega) hlast' (by rw [List.length_append, List.length_replicate]; omega),
        List.append_assoc, ← List.replicate_add]
      congr 3
      omega
    · exact decodeFrom_replicate h hlen

theorem take_runOf (byte : UInt8) (rest : List UInt8) :
    rest = List.replicate (runOf byte rest) byte ++ rest.drop (runOf byte rest) := by
  induction rest with
  | nil => rfl
  | cons b rest ih =>
    rw [runOf]
    split
    · rename_i hb
      rw [List.replicate_succ, List.cons_append, List.drop_succ_cons, ← ih, hb]
    · rfl

theorem decodeFrom_encodeBody {payload : List UInt8}
    (hlen : out.length + payload.length ≤ maxPacket) :
    decodeFrom out (encodeBody payload) = some (out ++ payload) := by
  induction payload using encodeBody.induct generalizing out with
  | case1 => rw [encodeBody, decodeFrom, List.append_nil]
  | case2 byte rest hescape ih =>
    rw [List.length_cons] at hlen
    rw [encodeBody, if_pos hescape, decodeFrom_escaped (by omega),
      ih (by rw [List.length_append, List.length_singleton]; omega), List.append_assoc,
      List.singleton_append]
  | case3 byte rest hescape ih =>
    rw [List.length_cons] at hlen
    have hplain : mustEscape byte = false := by simpa using hescape
    have hrest := take_runOf byte rest
    have hcount : runOf byte rest + (rest.drop (runOf byte rest)).length = rest.length := by
      have hcongr := congrArg List.length hrest
      rw [List.length_append, List.length_replicate] at hcongr
      exact hcongr.symm
    rw [encodeBody, if_neg hescape, decodeFrom_literal hplain (by omega),
      decodeFrom_encodeExtra hplain List.getLast?_concat
        (by rw [List.length_append, List.length_singleton]; omega),
      ih (by
        rw [List.length_append, List.length_append, List.length_singleton,
          List.length_replicate]
        omega)]
    rw [List.append_assoc, List.append_assoc, ← hrest, List.singleton_append]

/-- A byte that neither starts nor ends a frame. -/
def Quiet (byte : UInt8) : Prop := byte ≠ hash ∧ byte ≠ dollar

theorem quiet_escaped (h : mustEscape byte = true) : Quiet (byte ^^^ 0x20) := by
  simp only [mustEscape, Bool.or_eq_true, beq_iff_eq] at h
  rcases h with ((rfl | rfl) | rfl) | rfl
  · exact ⟨by decide, by decide⟩
  · exact ⟨by decide, by decide⟩
  · exact ⟨by decide, by decide⟩
  · exact ⟨by decide, by decide⟩

theorem quiet_count {take : Nat} (h97 : take ≤ 97) (h6 : take ≠ 6) (h7 : take ≠ 7) :
    Quiet (UInt8.ofNat take + 29) := by
  have hnat : (UInt8.ofNat take + 29).toNat = take + 29 := by
    show (take % 2 ^ 8 + 29) % 2 ^ 8 = take + 29
    omega
  constructor
  · intro heq
    have hvalue := congrArg UInt8.toNat heq
    rw [hnat] at hvalue
    exact h6 (Nat.add_right_cancel hvalue)
  · intro heq
    have hvalue := congrArg UInt8.toNat heq
    rw [hnat] at hvalue
    exact h7 (Nat.add_right_cancel hvalue)

theorem quiet_encodeExtra (h : Quiet byte) (extra : Nat) :
    ∀ b ∈ encodeExtra byte extra, Quiet b := by
  induction extra using Nat.strong_induction_on with
  | _ extra ih =>
    intro b hb
    rw [encodeExtra] at hb
    split at hb
    · rename_i hmore
      obtain ⟨hthree, hle, h97, h6, h7⟩ := groupOf_bounds hmore
      rcases List.mem_cons.mp hb with rfl | hb
      · exact ⟨by decide, by decide⟩
      rcases List.mem_cons.mp hb with rfl | hb
      · exact quiet_count h97 h6 h7
      · exact ih _ (by omega) b hb
    · rw [List.eq_of_mem_replicate hb]
      exact h

theorem quiet_encodeBody (payload : List UInt8) : ∀ b ∈ encodeBody payload, Quiet b := by
  induction payload using encodeBody.induct with
  | case1 =>
    intro b hb
    rw [encodeBody] at hb
    cases hb
  | case2 byte rest hescape ih =>
    intro b hb
    rw [encodeBody, if_pos hescape] at hb
    rcases List.mem_cons.mp hb with rfl | hb
    · exact ⟨by decide, by decide⟩
    rcases List.mem_cons.mp hb with rfl | hb
    · exact quiet_escaped hescape
    · exact ih b hb
  | case3 byte rest hescape ih =>
    obtain ⟨hhash, hdollar, -, -⟩ := not_mustEscape (by simpa using hescape)
    intro b hb
    rw [encodeBody, if_neg hescape] at hb
    rcases List.mem_cons.mp hb with rfl | hb
    · exact ⟨hhash, hdollar⟩
    rcases List.mem_append.mp hb with hb | hb
    · exact quiet_encodeExtra ⟨hhash, hdollar⟩ _ b hb
    · exact ih b hb

theorem feed_quiet {f : Framer} {bytes : List UInt8} (hphase : f.phase = .body)
    (hquiet : ∀ b ∈ bytes, Quiet b) (hlen : f.body.length + bytes.length ≤ maxPacket) :
    f.feed bytes = ({ f with body := f.body ++ bytes }, []) := by
  induction bytes generalizing f with
  | nil => rw [Framer.feed, List.append_nil]
  | cons byte rest ih =>
    obtain ⟨hhash, hdollar⟩ := hquiet byte List.mem_cons_self
    rw [List.length_cons] at hlen
    have hpush : f.push byte = ({ f with body := f.body ++ [byte] }, none) := by
      unfold Framer.push
      simp only [hphase, hhash, hdollar, if_false]
      exact if_neg (by omega)
    have hrest := ih (f := { f with body := f.body ++ [byte] }) hphase
      (fun b hb => hquiet b (List.mem_cons_of_mem _ hb))
      (by simp only [List.length_append, List.length_singleton]; omega)
    rw [Framer.feed, hpush, hrest]
    simp only [Option.toList_none, List.append_assoc, List.singleton_append, List.nil_append]

theorem feed_trailer {f : Framer} {hi lo high low : UInt8} {payload : List UInt8}
    (hphase : f.phase = .body) (hfits : f.overflow = false) (hhigh : hexDigit hi = some high)
    (hlow : hexDigit lo = some low) (hsum : (high <<< 4) ||| low = checksum f.body)
    (hdecode : decodeBody f.body = some payload) :
    f.feed [hash, hi, lo] = ({ f with phase := .idle, digits := (hi, lo), got := 2 },
      [.packet payload]) := by
  have hend : f.push hash = ({ f with phase := .checksum, got := 0 }, none) := by
    unfold Framer.push
    simp only [hphase, if_true]
  have hfirst : Framer.push { f with phase := .checksum, got := 0 } hi =
      ({ f with phase := .checksum, digits := (hi, f.digits.2), got := 1 }, none) := rfl
  have hcomplete : Framer.complete { f with phase := .checksum, digits := (hi, lo), got := 2 } =
      .packet payload := by
    unfold Framer.complete
    simp only [hhigh, hlow, hsum, hfits, hdecode, Bool.false_eq_true, ne_eq, not_true_eq_false,
      or_self, if_false]
  have hsecond :
      Framer.push { f with phase := .checksum, digits := (hi, f.digits.2), got := 1 } lo =
        ({ f with phase := .idle, digits := (hi, lo), got := 2 },
          some (Framer.complete { f with phase := .checksum, digits := (hi, lo), got := 2 })) := rfl
  rw [Framer.feed, hend, Framer.feed, hfirst, Framer.feed, hsecond, hcomplete]
  rfl

theorem feed_frame {f : Framer} {payload : List UInt8} (hphase : f.phase = .idle)
    (hlen : payload.length ≤ maxPacket) (hbody : (encodeBody payload).length ≤ maxPacket) :
    ∃ f', f'.phase = .idle ∧ f.feed (frame payload) = (f', [.packet payload]) := by
  obtain ⟨hi, lo, high, low, hdigits, hhigh, hlow, hsum⟩ :=
    hexDigit_pushHexU8 (checksum (encodeBody payload))
  have hdecode : decodeBody (encodeBody payload) = some payload :=
    decodeFrom_encodeBody (by rwa [List.length_nil, Nat.zero_add])
  have hopen : f.feed [dollar] =
      ({ f with body := [], overflow := false, phase := .body }, []) := by
    unfold Framer.feed Framer.push
    simp only [hphase, if_true]
    rfl
  have htake := feed_quiet (f := { f with body := [], overflow := false, phase := .body }) rfl
    (quiet_encodeBody payload) (by rwa [List.length_nil, Nat.zero_add])
  have hclose := feed_trailer (f := ⟨.body, encodeBody payload, f.digits, f.got, false⟩) rfl rfl
    hhigh hlow hsum hdecode
  have hframe : frame payload = [dollar] ++ (encodeBody payload ++ [hash, hi, lo]) := by
    rw [frame, hdigits, List.singleton_append]
  refine ⟨⟨.idle, encodeBody payload, (hi, lo), 2, false⟩, rfl, ?_⟩
  rw [hframe, feed_append, hopen, List.nil_append, feed_append, htake, List.nil_append]
  exact hclose

/-- What the peer sends: packets, and acknowledgements between them. -/
inductive Item where
  | packet (payload : List UInt8)
  | ack

def Item.bytes : Item → List UInt8
  | .packet payload => frame payload
  | .ack => [Gdb.ack]

def Item.event : Item → Event
  | .packet payload => .packet payload
  | .ack => .ack

/-- Sizes the framer assembles: the payload and its body. -/
def Item.Small : Item → Prop
  | .packet payload => payload.length ≤ maxPacket ∧ (encodeBody payload).length ≤ maxPacket
  | .ack => True

theorem feed_item {f : Framer} {item : Item} (hphase : f.phase = .idle) (h : item.Small) :
    ∃ f', f'.phase = .idle ∧ f.feed item.bytes = (f', [item.event]) := by
  cases item with
  | packet payload => exact feed_frame hphase h.1 h.2
  | ack =>
    have hne : Gdb.ack ≠ dollar ∧ Gdb.ack ≠ Gdb.interrupt := by decide
    refine ⟨f, hphase, ?_⟩
    simp only [Item.bytes, Framer.feed, Framer.push, hphase, hne.1, hne.2, if_false, if_true,
      Option.toList_some, List.append_nil, Item.event]

theorem feed_items {f : Framer} {items : List Item} (hphase : f.phase = .idle)
    (h : ∀ item ∈ items, item.Small) :
    (f.feed (items.flatMap Item.bytes)).2 = items.map Item.event := by
  induction items generalizing f with
  | nil => rfl
  | cons item items ih =>
    obtain ⟨f', hphase', hfeed⟩ := feed_item hphase (h item List.mem_cons_self)
    rw [List.flatMap_cons, feed_append, hfeed, List.map_cons,
      ih hphase' fun i hi => h i (List.mem_cons_of_mem _ hi)]
    rfl

/-- **Packets survive the wire.** Any stream of frames and acknowledgements is read back as
those packets and acknowledgements, in order and nothing else; a body decodes to its
payload, and no byte of a body is one the framing would hear. -/
theorem packets_survive (items : List Item) (h : ∀ item ∈ items, item.Small) :
    (Framer.new.feed (items.flatMap Item.bytes)).2 = items.map Item.event ∧
      (∀ payload, .packet payload ∈ items → decodeBody (encodeBody payload) = some payload) ∧
      ∀ payload, .packet payload ∈ items → ∀ b ∈ encodeBody payload, b ≠ hash ∧ b ≠ dollar := by
  refine ⟨feed_items rfl h, ?_, ?_⟩
  · intro payload hmem
    exact decodeFrom_encodeBody (by simpa using (h _ hmem).1)
  · intro payload _
    exact quiet_encodeBody payload

/-- A run of nine, whose eight extra copies are one group, and a run of seven, whose six are
split; the payloads hold every byte the framing uses. -/
def sampleItems : List Item :=
  [.ack, .packet (List.replicate 9 0x61 ++ [hash, dollar, closeBrace, star]), .ack, .ack,
    .packet (List.replicate 7 Gdb.ack), .packet []]

theorem sampleItems_small : ∀ item ∈ sampleItems, item.Small := by
  have hlong : (Item.packet (List.replicate 9 0x61 ++ [hash, dollar, closeBrace, star])).Small :=
    ⟨by decide, by decide +kernel⟩
  have hshort : (Item.packet (List.replicate 7 Gdb.ack)).Small := ⟨by decide, by decide +kernel⟩
  have hempty : (Item.packet []).Small := ⟨by decide, by decide +kernel⟩
  simp only [sampleItems, List.forall_mem_cons]
  exact ⟨trivial, hlong, trivial, trivial, hshort, hempty, fun _ h => absurd h List.not_mem_nil⟩

theorem packets_survive_sample :
    (∀ item ∈ sampleItems, item.Small) ∧
      (Framer.new.feed (sampleItems.flatMap Item.bytes)).2 = sampleItems.map Item.event :=
  ⟨sampleItems_small, (packets_survive sampleItems sampleItems_small).1⟩

end Rsemu.Gdb
