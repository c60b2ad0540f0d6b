import Rsemu.Gdb.Packet

/-!
# Finding the next packet

What came before a packet may be anything: noise, half a packet, a packet too long to keep. A
`$` starts a packet over from between packets and from inside one, so from either the next whole
packet is read as if nothing had come before, and its last byte completes it (`resynchronises`).
What is assembled is at most `maxPacket` bytes on the wire and at most `maxPacket` bytes decoded:
a longer payload is refused however short its runs make it (`packet_small`).

A `$` that comes where a checksum digit is due is taken for the digit. The packet it starts is
then never seen, since its body is noise between packets with no `$` of its own (`swallowed`).
-/

namespace Rsemu.Gdb

/-- **The last byte of a packet completes it**, and nothing before it completes anything. -/
def Resynchronised (history payload : List UInt8) : Prop :=
  ∃ front last, frame payload = front ++ [last] ∧
    (Framer.new.feed (history ++ front)).2 = (Framer.new.feed history).2 ∧
    ((Framer.new.feed (history ++ front)).1.push last).2 = some (.packet payload)

variable {f : Framer} {payload : List UInt8}

theorem push_dollar (h : f.phase ≠ .checksum) :
    f.push dollar = ({ f with body := [], overflow := false, phase := .body }, none) := by
  obtain ⟨phase, body, digits, got, overflow⟩ := f
  cases phase with
  | idle => rfl
  | body => rfl
  | checksum => exact absurd rfl h

theorem feed_half_trailer {hi : UInt8} (hphase : f.phase = .body) :
    f.feed [hash, hi] =
      ({ f with phase := .checksum, digits := (hi, f.digits.2), got := 1 }, []) := by
  have hend : f.push hash = ({ f with phase := .checksum, got := 0 }, none) := by
    unfold Framer.push
    simp only [hphase, if_true]
  have hfirst : Framer.push { f with phase := .checksum, got := 0 } hi =
      ({ f with phase := .checksum, digits := (hi, f.digits.2), got := 1 }, none) := rfl
  rw [Framer.feed, hend, Framer.feed, hfirst]
  rfl

theorem feed_front {hi : UInt8} (hphase : f.phase ≠ .checksum)
    (hbody : (encodeBody payload).length ≤ maxPacket) :
    f.feed (dollar :: (encodeBody payload ++ [hash, hi])) =
      (⟨.checksum, encodeBody payload, (hi, f.digits.2), 1, false⟩, []) := by
  have hopen : f.feed [dollar] =
      ({ f with body := [], overflow := false, phase := .body }, []) := by
    rw [Framer.feed, push_dollar hphase]
    rfl
  have htake := feed_quiet (f := { f with body := [], overflow := false, phase := .body }) rfl
    (quiet_encodeBody payload) (by rwa [List.length_nil, Nat.zero_add])
  rw [← List.singleton_append, feed_append, hopen, List.nil_append, feed_append, htake,
    List.nil_append, feed_half_trailer rfl]
  rfl

/--
**The framer resynchronises.** Whatever came before, unless it stopped where a checksum digit is
due, the next whole packet within the limits is completed by its last byte.
-/
theorem resynchronises {history payload : List UInt8}
    (hphase : (Framer.new.feed history).1.phase ≠ .checksum) (hlen : payload.length ≤ maxPacket)
    (hbody : (encodeBody payload).length ≤ maxPacket) : Resynchronised history payload := by
  obtain ⟨hi, lo, high, low, hdigits, hhigh, hlow, hsum⟩ :=
    hexDigit_pushHexU8 (checksum (encodeBody payload))
  have hdecode : decodeBody (encodeBody payload) = some payload :=
    decodeFrom_encodeBody (by rwa [List.length_nil, Nat.zero_add])
  have hfront := @feed_front _ _ hi hphase hbody
  refine ⟨dollar :: (encodeBody payload ++ [hash, hi]), lo, ?_, ?_, ?_⟩
  · rw [frame, hdigits, List.cons_append, List.append_assoc]
    rfl
  · rw [feed_append, hfront, List.append_nil]
  · rw [feed_append, hfront]
    have hcomplete : Framer.complete ⟨.checksum, encodeBody payload, (hi, lo), 2, false⟩ =
        .packet payload := by
      unfold Framer.complete
      simp only [hhigh, hlow, hsum, hdecode, Bool.false_eq_true, ne_eq, not_true_eq_false,
        or_self, if_false]
    exact congrArg some hcomplete

/-- Half a packet that stops in its body, and then a whole one. -/
theorem resynchronises_after_half : Resynchronised [dollar, 0x4f] [0x4f, 0x4b] :=
  resynchronises (by decide) (by decide) (by decide +kernel)

theorem length_decodeFrom {out body : List UInt8} (hout : out.length ≤ maxPacket)
    (h : decodeFrom out body = some payload) : payload.length ≤ maxPacket := by
  induction out, body using decodeFrom.induct with
  | case1 out =>
    rw [decodeFrom, Option.some.injEq] at h
    rwa [← h]
  | case2 out => simp [decodeFrom] at h
  | case3 out escaped rest hfull => simp [decodeFrom, hfull] at h
  | case4 out escaped rest hroom ih =>
    rw [decodeFrom.eq_def] at h
    simp only [if_true, hroom, if_false] at h
    exact ih (by rw [List.length_append, List.length_singleton]; omega) h
  | case5 out hstar => simp [decodeFrom, hstar] at h
  | case6 out count rest hcount hstar => simp [decodeFrom, hstar, hcount] at h
  | case7 out count rest hcount hnone hstar => simp [decodeFrom, hstar, hcount, hnone] at h
  | case8 out count rest hcount last hlast hfull hstar =>
    simp [decodeFrom, hstar, hcount, hlast, hfull] at h
  | case9 out count rest hcount last hlast hroom hstar ih =>
    rw [decodeFrom.eq_def] at h
    simp only [hstar, hcount, hlast, hroom, if_true, if_false] at h
    exact ih (by rw [List.length_append, List.length_replicate]; omega) h
  | case10 out byte rest hbrace hstar hfull =>
    rw [decodeFrom.eq_def] at h
    simp [hbrace, hstar, hfull] at h
  | case11 out byte rest hbrace hstar hroom ih =>
    rw [decodeFrom.eq_def] at h
    simp only [hbrace, hstar, hroom, if_false] at h
    exact ih (by rw [List.length_append, List.length_singleton]; omega) h

theorem decodeBody_of_packet {byte : UInt8} (h : (f.push byte).2 = some (.packet payload)) :
    ∃ body, decodeBody body = some payload := by
  have hcomplete : ∀ g : Framer,
      g.complete = .packet payload → decodeBody g.body = some payload := by
    intro g hg
    unfold Framer.complete at hg
    split at hg
    · split at hg
      · cases hg
      · split at hg
        · rename_i hdecode
          rw [hdecode, Event.packet.inj hg]
        · cases hg
    · cases hg
  unfold Framer.push at h
  split at h
  · split_ifs at h
    all_goals cases Option.some.inj h
  · split_ifs at h
  · dsimp only at h
    split at h
    · cases h
    · exact ⟨_, hcomplete _ (Option.some.inj h)⟩

theorem packet_small {byte : UInt8} (h : (f.push byte).2 = some (.packet payload)) :
    payload.length ≤ maxPacket := by
  obtain ⟨body, hbody⟩ := decodeBody_of_packet h
  exact length_decodeFrom (Nat.zero_le _) hbody

theorem length_encodeExtra (byte : UInt8) (extra : Nat) :
    (encodeExtra byte extra).length ≤ extra := by
  induction extra using Nat.strong_induction_on with
  | _ extra ih =>
    rw [encodeExtra]
    split
    · rename_i hmore
      obtain ⟨hthree, hle, -, -, -⟩ := groupOf_bounds hmore
      have := ih (extra - groupOf extra) (by omega)
      rw [List.length_cons, List.length_cons]
      omega
    · rw [List.length_replicate]

theorem runOf_replicate (byte : UInt8) (n : Nat) : runOf byte (List.replicate n byte) = n := by
  induction n with
  | zero => rfl
  | succ n ih => rw [List.replicate_succ, runOf, if_pos rfl, ih]

theorem length_encodeBody_run {byte : UInt8} {n : Nat} (hplain : mustEscape byte = false)
    (hn : 5 ≤ n) : (encodeBody (List.replicate (n + 1) byte)).length ≤ n := by
  obtain ⟨hthree, hle, -, -, -⟩ := @groupOf_bounds n (by omega)
  have hrest := length_encodeExtra byte (n - groupOf n)
  rw [List.replicate_succ, encodeBody, if_neg (by rw [hplain]; exact Bool.false_ne_true),
    runOf_replicate, List.drop_of_length_le (by rw [List.length_replicate]), encodeBody,
    List.append_nil, encodeExtra, dif_pos (by omega), List.length_cons, List.length_cons,
    List.length_cons]
  omega

/-- One byte more than a packet may be, all of them alike: the body is short, and what it
decodes to is refused. -/
theorem long_run_refused : ¬ ∀ history payload : List UInt8,
    (encodeBody payload).length ≤ maxPacket → Resynchronised history payload := by
  intro hall
  have hbody : (encodeBody (List.replicate (maxPacket + 1) 0x61)).length ≤ maxPacket :=
    length_encodeBody_run (by decide) (by decide)
  obtain ⟨front, last, -, -, hlast⟩ := hall [] _ hbody
  have hsmall := packet_small hlast
  rw [List.length_replicate] at hsmall
  omega

theorem got_of_checksum {history : List UInt8}
    (h : (Framer.new.feed history).1.phase = .checksum) : (Framer.new.feed history).1.got < 2 := by
  have hstep : ∀ (f : Framer) (byte : UInt8), (f.phase = .checksum → f.got < 2) →
      (f.push byte).1.phase = .checksum → (f.push byte).1.got < 2 := by
    intro f byte hf
    unfold Framer.push
    split
    · split_ifs <;> simp_all
    · split_ifs <;> simp_all
    · dsimp only
      split_ifs <;> simp_all
  have hrun : ∀ (bytes : List UInt8) (f : Framer), (f.phase = .checksum → f.got < 2) →
      (f.feed bytes).1.phase = .checksum → (f.feed bytes).1.got < 2 := by
    intro bytes
    induction bytes with
    | nil => exact fun f hf => hf
    | cons byte rest ih => exact fun f hf => ih _ (hstep f byte hf)
  exact hrun history Framer.new (fun hnew => absurd hnew (by decide)) h

/-- Whether an event is a packet. -/
def Event.IsPacket : Event → Prop
  | .packet _ => True
  | _ => False

theorem feed_idle_quiet {bytes : List UInt8} (hphase : f.phase = .idle)
    (hquiet : ∀ b ∈ bytes, b ≠ dollar) : ∀ e ∈ (f.feed bytes).2, ¬ e.IsPacket := by
  induction bytes with
  | nil =>
    intro e he
    cases he
  | cons byte rest ih =>
    have hbyte := hquiet byte List.mem_cons_self
    have hpush : (f.push byte).1 = f ∧ ∀ e ∈ (f.push byte).2.toList, ¬ e.IsPacket := by
      unfold Framer.push
      simp only [hphase, hbyte, if_false]
      split_ifs <;> simp [Event.IsPacket]
    intro e he
    rw [Framer.feed, hpush.1] at he
    rcases List.mem_append.mp he with he | he
    · exact hpush.2 e he
    · exact ih (fun b hb => hquiet b (List.mem_cons_of_mem _ hb)) e he

theorem frame_quiet (payload : List UInt8) :
    ∀ b ∈ encodeBody payload ++ hash :: pushHexU8 (checksum (encodeBody payload)), b ≠ dollar := by
  obtain ⟨hi, lo, high, low, hdigits, hhigh, hlow, -⟩ :=
    hexDigit_pushHexU8 (checksum (encodeBody payload))
  intro b hb
  rw [hdigits] at hb
  have hdigit : ∀ {c v : UInt8}, hexDigit c = some v → c ≠ dollar := by
    rintro c v hc rfl
    exact absurd (hc.symm.trans (show hexDigit dollar = none by decide)) (Option.some_ne_none v)
  rcases List.mem_append.mp hb with hb | hb
  · exact (quiet_encodeBody payload b hb).2
  · simp only [List.mem_cons, List.not_mem_nil, or_false] at hb
    rcases hb with rfl | rfl | rfl
    · decide
    · exact hdigit hhigh
    · exact hdigit hlow

theorem feed_digit_dollar {bytes : List UInt8} (hphase : f.phase = .checksum) (hgot : f.got < 2)
    (hquiet : ∀ b ∈ bytes, b ≠ dollar) : ∀ e ∈ (f.feed (dollar :: bytes)).2, ¬ e.IsPacket := by
  obtain ⟨phase, body, digits, got, overflow⟩ := f
  obtain rfl : phase = .checksum := hphase
  obtain rfl | rfl : got = 0 ∨ got = 1 := by change got < 2 at hgot; omega
  · -- the first digit: the next byte is the second
    cases bytes with
    | nil =>
      intro e he
      cases he
    | cons byte rest =>
      intro e he
      rcases List.mem_cons.mp he with rfl | he
      · exact id
      · exact feed_idle_quiet rfl (fun b hb => hquiet b (List.mem_cons_of_mem _ hb)) e he
  · -- the second digit
    have hcorrupt : Framer.complete ⟨.checksum, body, (digits.1, dollar), 2, overflow⟩ =
        .corrupt := by
      unfold Framer.complete
      cases hexDigit digits.1 <;> rfl
    have hfeed : (Framer.feed ⟨.checksum, body, digits, 1, overflow⟩ (dollar :: bytes)).2 =
        Framer.complete ⟨.checksum, body, (digits.1, dollar), 2, overflow⟩ ::
          (Framer.feed ⟨.idle, body, (digits.1, dollar), 2, overflow⟩ bytes).2 := rfl
    intro e he
    rw [hfeed, hcorrupt] at he
    rcases List.mem_cons.mp he with rfl | he
    · exact id
    · exact feed_idle_quiet rfl hquiet e he

/-- **Where a checksum digit is due, the next packet is lost**: none of its bytes completes a
packet, whatever its payload. -/
theorem swallowed {history : List UInt8} (payload : List UInt8)
    (hphase : (Framer.new.feed history).1.phase = .checksum) :
    ∀ e ∈ ((Framer.new.feed history).1.feed (frame payload)).2, ¬ e.IsPacket :=
  feed_digit_dollar hphase (got_of_checksum hphase) (frame_quiet payload)

/-- A packet cut off after its `#`. -/
theorem swallowed_after_hash :
    (Framer.new.feed [dollar, hash]).1.phase = .checksum ∧
      ∀ e ∈ ((Framer.new.feed [dollar, hash]).1.feed (frame [0x4f, 0x4b])).2, ¬ e.IsPacket :=
  ⟨by decide, swallowed [0x4f, 0x4b] (by decide)⟩

theorem push_body (h : f.body.length ≤ maxPacket) (byte : UInt8) :
    (f.push byte).1.body.length ≤ maxPacket := by
  unfold Framer.push
  split
  · split_ifs <;> simp [h]
  · split_ifs with hhash hdollar hfull
    · exact h
    · exact Nat.zero_le _
    · exact h
    · simp only [List.length_append, List.length_singleton]
      omega
  · dsimp only
    split_ifs <;> exact h

/-- **Nothing a peer sends outgrows the limit**: neither what is held of a body nor any packet
that is handed on. -/
theorem feed_bounded (history : List UInt8) :
    (Framer.new.feed history).1.body.length ≤ maxPacket ∧
      ∀ payload, .packet payload ∈ (Framer.new.feed history).2 → payload.length ≤ maxPacket := by
  have hrun : ∀ (bytes : List UInt8) (f : Framer), f.body.length ≤ maxPacket →
      (f.feed bytes).1.body.length ≤ maxPacket ∧
        ∀ payload, .packet payload ∈ (f.feed bytes).2 → payload.length ≤ maxPacket := by
    intro bytes
    induction bytes with
    | nil => exact fun f hf => ⟨hf, fun payload hp => absurd hp List.not_mem_nil⟩
    | cons byte rest ih =>
      intro f hf
      obtain ⟨hbody, hpackets⟩ := ih _ (push_body hf byte)
      refine ⟨hbody, fun payload hp => ?_⟩
      rcases List.mem_append.mp hp with hp | hp
      · exact packet_small (Option.mem_toList.mp hp)
      · exact hpackets payload hp
  exact hrun history Framer.new (Nat.zero_le _)

end Rsemu.Gdb
