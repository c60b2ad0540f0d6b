import Rsemu.Vnc.Consume

/-!
# What a connection hears does not depend on the cuts, and when it does

A client's bytes arrive in whatever pieces the network makes of them, and the polls find
them in whatever pieces they come. `Cuts` says that a run of polls reads one stream, and
`independent_iff` says when every such run hears the same.

Two kinds of streams are heard differently. The limit on the inbox is looked at once all
that a poll found has been consumed, so a message longer than the limit is heard when a
poll finds the whole of it and ends the connection when a poll finds less. And where a
poll finds the end of the stream behind a full buffer, what it read is not consumed.
-/

namespace Rsemu.Vnc

open Incremental

/-- The bytes a poll reads before it stops. -/
def received : List Read → List UInt8
  | [] => []
  | .ok bytes :: reads =>
    if bytes = [] then []
    else if bytes.length < BUF then bytes
    else bytes ++ received reads
  | .wouldBlock :: _ => []
  | .interrupted :: reads => received reads
  | .failed :: _ => []

/-- Whether a poll finds the connection ended. -/
def hangsUp : List Read → Bool
  | [] => false
  | .ok bytes :: reads =>
    if bytes = [] then true
    else if bytes.length < BUF then false
    else hangsUp reads
  | .wouldBlock :: _ => false
  | .interrupted :: reads => hangsUp reads
  | .failed :: _ => true

/-- No read returns more than was asked for. -/
def Fits (reads : List Read) : Prop :=
  ∀ bytes, Read.ok bytes ∈ reads → bytes.length ≤ BUF

theorem receive_eq (inbox : List UInt8) (reads : List Read) :
    receive inbox reads = if hangsUp reads then none else some (inbox ++ received reads) := by
  induction reads generalizing inbox with
  | nil => simp [receive, hangsUp, received]
  | cons read reads ih =>
    cases read with
    | ok bytes =>
      by_cases hnil : bytes = []
      · simp [receive, hangsUp, hnil]
      · by_cases hshort : bytes.length < BUF
        · simp [receive, hangsUp, received, hnil, hshort]
        · simp [receive, hangsUp, received, hnil, hshort, ih]
    | wouldBlock => simp [receive, hangsUp, received]
    | interrupted => exact ih inbox
    | failed => simp [receive, hangsUp]

variable {reads : List Read} {polls : List (List Read)} {stream : List UInt8}

theorem received_full (hfit : Fits reads) (hup : hangsUp reads = true) :
    ∃ k, (received reads).length = BUF * k := by
  induction reads with
  | nil => cases hup
  | cons read reads ih =>
    have hfit' : Fits reads := fun bytes hmem => hfit bytes (List.mem_cons_of_mem _ hmem)
    cases read with
    | ok bytes =>
      by_cases hnil : bytes = []
      · exact ⟨0, by simp [received, hnil]⟩
      · by_cases hshort : bytes.length < BUF
        · simp [hangsUp, hnil, hshort] at hup
        · simp only [hangsUp, if_neg hnil, if_neg hshort] at hup
          obtain ⟨k, hk⟩ := ih hfit' hup
          have hfull := hfit bytes List.mem_cons_self
          refine ⟨k + 1, ?_⟩
          simp only [received, if_neg hnil, if_neg hshort, List.length_append, hk]
          rw [Nat.mul_succ]
          omega
    | wouldBlock => cases hup
    | interrupted => exact ih hfit' hup
    | failed => exact ⟨0, rfl⟩

theorem exists_reads (chunk : List UInt8) :
    ∃ reads, Fits reads ∧ hangsUp reads = false ∧ received reads = chunk := by
  induction hl : chunk.length using Nat.strong_induction_on generalizing chunk with
  | _ l ih =>
    by_cases hnil : chunk = []
    · exact ⟨[], fun _ hmem => absurd hmem List.not_mem_nil, rfl, by rw [hnil]; rfl⟩
    by_cases hshort : chunk.length < BUF
    · refine ⟨[.ok chunk], fun bytes hmem => ?_, ?_, ?_⟩
      · cases List.mem_singleton.mp hmem
        omega
      · simp [hangsUp, hnil, hshort]
      · simp [received, hnil, hshort]
    · have hbuf : BUF = 4096 := rfl
      have htake : (chunk.take BUF).length = BUF := by
        rw [List.length_take]
        omega
      have hnil' : chunk.take BUF ≠ [] := by
        intro hc
        rw [hc] at htake
        cases htake
      obtain ⟨reads, hfit, hup, hrec⟩ := ih (chunk.drop BUF).length
        (by rw [List.length_drop]; omega) (chunk.drop BUF) rfl
      refine ⟨.ok (chunk.take BUF) :: reads, fun bytes hmem => ?_, ?_, ?_⟩
      · rcases List.mem_cons.mp hmem with hb | hmem
        · cases hb
          omega
        · exact hfit bytes hmem
      · simp only [hangsUp, if_neg hnil', htake, Nat.lt_irrefl, if_false, hup]
      · simp only [received, if_neg hnil', htake, Nat.lt_irrefl, if_false, hrec,
          List.take_append_drop]

theorem exists_last (k : Nat) {lost : List UInt8} (h : lost.length = BUF * k) :
    ∃ reads, Fits reads ∧ hangsUp reads = true ∧ received reads = lost := by
  induction k generalizing lost with
  | zero =>
    refine ⟨[.ok []], fun bytes hmem => ?_, rfl, ?_⟩
    · cases List.mem_singleton.mp hmem
      exact Nat.zero_le _
    · rw [List.length_eq_zero_iff.mp h]
      rfl
  | succ k ih =>
    rw [Nat.mul_succ] at h
    have htake : (lost.take BUF).length = BUF := by
      rw [List.length_take]
      omega
    have hnil : lost.take BUF ≠ [] := by
      intro hc
      rw [hc] at htake
      cases htake
    have hdrop : (lost.drop BUF).length = BUF * k := by
      rw [List.length_drop]
      omega
    obtain ⟨reads, hfit, hup, hrec⟩ := ih hdrop
    refine ⟨.ok (lost.take BUF) :: reads, fun bytes hmem => ?_, ?_, ?_⟩
    · rcases List.mem_cons.mp hmem with hb | hmem
      · cases hb
        omega
      · exact hfit bytes hmem
    · simp only [hangsUp, if_neg hnil, htake, Nat.lt_irrefl, if_false, hup]
    · simp only [received, if_neg hnil, htake, Nat.lt_irrefl, if_false, hrec,
        List.take_append_drop]

/-- **The polls read this stream**, and find its end when there is one. -/
inductive Cuts : Bool → List UInt8 → List (List Read) → Prop where
  | idle : Cuts false [] []
  | closed {reads : List Read} (hfit : Fits reads) (hup : hangsUp reads = true) :
      Cuts true (received reads) [reads]
  | poll {ended : Bool} {stream : List UInt8} {reads : List Read} {polls : List (List Read)}
      (hfit : Fits reads) (hup : hangsUp reads = false) (h : Cuts ended stream polls) :
      Cuts ended (received reads ++ stream) (reads :: polls)

def outcome (ended : Bool) (r : List Heard × Option (Conn × List UInt8)) : List Heard × Bool :=
  (r.1, ended || r.2.isNone)

/-- Polls hear what the consumer decodes of these pieces, wherever they start. -/
def Hears (ended : Bool) (chunks : List (List UInt8)) (polls : List (List Read)) : Prop :=
  ∀ conn inbox, ((run conn inbox polls).1, (run conn inbox polls).2.isNone)
    = outcome ended (consumer.serve MAX_INBOX conn inbox chunks)

theorem service_poll (conn : Conn) (inbox : List UInt8) (hup : hangsUp reads = false) :
    service conn inbox reads = consumer.poll MAX_INBOX conn inbox (received reads) := by
  rw [service, receive_eq, hup]
  rfl

theorem hears_idle : Hears false [] [] := fun _ _ => rfl

theorem hears_closed (hup : hangsUp reads = true) : Hears true [] [reads] := by
  intro conn inbox
  have hs : service conn inbox reads = ([], none) := by
    rw [service, receive_eq, hup]
    rfl
  simp only [run, hs, Decoder.serve, outcome]
  rfl

theorem hears_poll {ended : Bool} {chunks : List (List UInt8)} (hup : hangsUp reads = false)
    (h : Hears ended chunks polls) : Hears ended (received reads :: chunks) (reads :: polls) := by
  intro conn inbox
  have hs := service_poll conn inbox hup
  cases hp : (consumer.poll MAX_INBOX conn inbox (received reads)).2 with
  | none =>
    rw [consumer.serve_stop chunks hp]
    simp only [run, hs, hp, outcome, Option.isNone_none, Bool.or_true]
  | some w =>
    obtain ⟨conn', rest⟩ := w
    have ih := h conn' rest
    rw [consumer.serve_go chunks hp]
    simp only [run, hs, hp, outcome]
    obtain ⟨hheard, hdropped⟩ := Prod.ext_iff.mp ih
    simp only [outcome] at hheard hdropped
    rw [hheard, hdropped]

theorem Cuts.hears {ended : Bool} (h : Cuts ended stream polls) :
    ∃ chunks lost k, stream = List.flatten chunks ++ lost ∧ lost.length = BUF * k ∧
      (ended = false → lost = []) ∧ Hears ended chunks polls := by
  induction h with
  | idle => exact ⟨[], [], 0, rfl, rfl, fun _ => rfl, hears_idle⟩
  | @closed reads hfit hup =>
    obtain ⟨k, hk⟩ := received_full hfit hup
    exact ⟨[], received reads, k, rfl, hk, fun hc => (by cases hc), hears_closed hup⟩
  | @poll ended stream reads polls hfit hup h ih =>
    obtain ⟨chunks, lost, k, hstream, hk, hlost, hhears⟩ := ih
    refine ⟨received reads :: chunks, lost, k, ?_, hk, hlost, hears_poll hup hhears⟩
    rw [hstream, List.flatten_cons, List.append_assoc]

theorem exists_cuts (ended : Bool) (chunks : List (List UInt8)) {lost : List UInt8} {k : Nat}
    (hk : lost.length = BUF * k) (he : ended = false → lost = []) :
    ∃ polls, Cuts ended (chunks.flatten ++ lost) polls ∧ Hears ended chunks polls := by
  induction chunks with
  | nil =>
    cases ended with
    | false =>
      rw [he rfl]
      exact ⟨[], .idle, hears_idle⟩
    | true =>
      obtain ⟨reads, hfit, hup, hrec⟩ := exists_last k hk
      refine ⟨[reads], ?_, hears_closed hup⟩
      rw [List.flatten_nil, List.nil_append, ← hrec]
      exact .closed hfit hup
  | cons chunk chunks ih =>
    obtain ⟨polls, hcuts, hhears⟩ := ih
    obtain ⟨reads, hfit, hup, hrec⟩ := exists_reads chunk
    refine ⟨reads :: polls, ?_, ?_⟩
    · rw [List.flatten_cons, List.append_assoc, ← hrec]
      exact .poll hfit hup hcuts
    · rw [← hrec]
      exact hears_poll hup hhears

def messageLengths (stream : List UInt8) : List Nat :=
  (consumer.drain Conn.new stream).lengths

/-- **Every way of cutting a stream is heard the same.** -/
def CutIndependent (ended : Bool) (stream : List UInt8) : Prop :=
  ∀ polls polls', Cuts ended stream polls → Cuts ended stream polls' →
    report polls = report polls'

/-- What a stream must keep to: no message too long for the inbox and one more byte, and
where the stream ends, no message within its last full buffers. -/
def WithinLimits (ended : Bool) (stream : List UInt8) : Prop :=
  (∀ n ∈ messageLengths stream, n ≤ MAX_INBOX + 1) ∧
    (ended = true → (messageLengths stream).sum ≤ stream.length % BUF)

theorem new_waits : consumer.next Conn.new [] = .wait := rfl

theorem report_within {ended : Bool} (h : WithinLimits ended stream) (hc : Cuts ended stream polls)
    : report polls = outcome ended (consumer.poll MAX_INBOX Conn.new [] stream) := by
  obtain ⟨hlong, hend⟩ := h
  obtain ⟨chunks, lost, k, hstream, hk, hlost, hhears⟩ := hc.hears
  have hlong' : ∀ n ∈ (consumer.drain Conn.new ([] ++ chunks.flatten)).lengths,
      n ≤ MAX_INBOX + 1 := by
    intro n hn
    refine hlong n ?_
    rw [messageLengths, hstream]
    exact consumer.lengths_append lost hn
  have hwhole := consumer.serve_whole consumer_failsWithin new_waits (Nat.zero_le _) hlong'
  rw [report, hhears, hwhole]
  cases ended with
  | false =>
    rw [hstream, hlost rfl, List.append_nil]
  | true =>
    -- what was lost holds no message, so the rest has them all
    have hsum : (consumer.drain Conn.new (chunks.flatten ++ lost)).lengths.sum
        ≤ chunks.flatten.length := by
      have hle := hend rfl
      rw [messageLengths, hstream, List.length_append, hk, Nat.add_mul_mod_self_left] at hle
      exact Nat.le_trans hle (Nat.mod_le _ _)
    have hitems := consumer.items_append hsum
    rw [outcome, outcome, Decoder.poll, Decoder.poll, List.nil_append, List.nil_append, hstream,
      Drained.outs, Drained.outs, hitems]
    rfl

theorem not_independent_of_long {ended : Bool} {n : Nat} (hn : n ∈ messageLengths stream)
    (hlong : MAX_INBOX + 1 < n) : ¬ CutIndependent ended stream := by
  intro hind
  obtain ⟨front, more, conn, rest, hstream, hleft, hrest, hitems⟩ :=
    consumer.exists_cut hn hlong
  have hlost : ([] : List UInt8).length = BUF * 0 := rfl
  obtain ⟨polls, hcuts, hhears⟩ := exists_cuts ended [stream] hlost fun _ => rfl
  obtain ⟨polls', hcuts', hhears'⟩ := exists_cuts ended [front, more] hlost fun _ => rfl
  have hflat : [stream].flatten ++ [] = stream := by simp
  have hflat' : [front, more].flatten ++ [] = stream := by simp [hstream]
  rw [hflat] at hcuts
  rw [hflat'] at hcuts'
  have hsame := congrArg Prod.fst (hind polls polls' hcuts hcuts')
  have hstop : (consumer.poll MAX_INBOX Conn.new [] front).2 = none := by
    rw [Decoder.poll, List.nil_append, hleft, Decoder.keep_of_lt conn hrest]
  rw [report, report, hhears, hhears', consumer.serve_one, consumer.serve_stop [more] hstop] at hsame
  rw [hstream] at hitems
  refine consumer.outs_append_ne consumer_speaks hitems ?_
  rw [← hstream]
  exact hsame.symm

theorem not_independent_of_end (hend : stream.length % BUF < (messageLengths stream).sum) :
    ¬ CutIndependent true stream := by
  intro hind
  have hmod := Nat.mod_add_div stream.length BUF
  have hk : (stream.drop (stream.length % BUF)).length = BUF * (stream.length / BUF) := by
    rw [List.length_drop]
    omega
  have hlost : ([] : List UInt8).length = BUF * 0 := rfl
  obtain ⟨polls, hcuts, hhears⟩ := exists_cuts true [stream] hlost fun _ => rfl
  obtain ⟨polls', hcuts', hhears'⟩ :=
    exists_cuts true [stream.take (stream.length % BUF)] hk fun hc => (by cases hc)
  have hflat : [stream].flatten ++ [] = stream := by simp
  have hflat' : [stream.take (stream.length % BUF)].flatten
      ++ stream.drop (stream.length % BUF) = stream := by simp
  rw [hflat] at hcuts
  rw [hflat'] at hcuts'
  have hsame := congrArg Prod.fst (hind polls polls' hcuts hcuts')
  rw [report, report, hhears, hhears', consumer.serve_one, consumer.serve_one] at hsame
  have hsplit : stream.take (stream.length % BUF) ++ stream.drop (stream.length % BUF) = stream :=
    List.take_append_drop _ _
  have hitems : (consumer.drain Conn.new (stream.take (stream.length % BUF))).items.length
      < (consumer.drain Conn.new (stream.take (stream.length % BUF)
          ++ stream.drop (stream.length % BUF))).items.length := by
    refine consumer.items_lt ?_
    rw [hsplit, List.length_take]
    exact Nat.lt_of_le_of_lt (Nat.min_le_left _ _) hend
  refine consumer.outs_append_ne consumer_speaks hitems ?_
  rw [hsplit]
  exact hsame.symm

theorem independent_iff (ended : Bool) (stream : List UInt8) :
    CutIndependent ended stream ↔ WithinLimits ended stream := by
  constructor
  · intro hind
    refine ⟨fun n hn => ?_, fun hended => ?_⟩
    · by_contra hlong
      exact not_independent_of_long hn (by omega) hind
    · by_contra hend
      rw [hended] at hind
      exact not_independent_of_end (by omega) hind
  · intro h polls polls' hc hc'
    rw [report_within h hc, report_within h hc']

/-- **Exactly the streams within the limits are heard the same however they are cut**, and
a message is read exactly off its own whole bytes: short of them there is nothing yet, and
what has been said does not change as more arrives. -/
theorem cuts_unheard_iff (ended : Bool) (stream : List UInt8) :
    (CutIndependent ended stream ↔ WithinLimits ended stream) ∧
    (∀ m used, parseClient stream = .message m used ↔
      used ≤ stream.length ∧ Whole (stream.take used) m) ∧
    (∀ m k, Whole stream m → k < stream.length → parseClient (stream.take k) = .incomplete) ∧
    (∀ more, parseClient stream ≠ .incomplete →
      parseClient (stream ++ more) = parseClient stream) :=
  ⟨independent_iff ended stream, fun _ _ => parseClient_eq_message_iff,
    fun _ _ hw hk => parseClient_short hw hk, fun more h => parseClient_append more h⟩

def handshake : List UInt8 :=
  [0x52, 0x46, 0x42, 0x20, 0x30, 0x30, 0x33, 0x2e, 0x30, 0x30, 0x38, 0x0a, SECURITY_NONE, 1]

def paste (len : Word) (text : List UInt8) : List UInt8 :=
  ClientMsg.CLIENT_CUT_TEXT :: 0 :: 0 :: 0 :: (len.bytes ++ text)

theorem drain_takes {conn conn' : Conn} {inbox : List UInt8} {n : Nat} {o : List Heard}
    (h : Takes conn inbox n conn' o) :
    consumer.drain conn inbox = (consumer.drain conn' (inbox.drop n)).cons (n, o) :=
  consumer.drain_take h.turn

theorem messageLengths_handshake (tail : List UInt8) :
    messageLengths (handshake ++ tail)
      = 12 :: 1 :: 1
        :: (consumer.drain ⟨.ready, Version.V3_8, true⟩ tail).lengths := by
  have hv : Version.parse ((handshake ++ tail).take Version.LEN) = some Version.V3_8 := by
    rw [show (handshake ++ tail).take Version.LEN = handshake.take Version.LEN from rfl]
    decide
  have hlen : Version.LEN ≤ (handshake ++ tail).length := by
    rw [List.length_append]
    exact Nat.le_trans (by decide) (Nat.le_add_right _ _)
  have hversion : Takes Conn.new (handshake ++ tail) 12 ⟨.security, Version.V3_8, true⟩
      [.version Version.V3_8] := .version rfl hlen hv
  have hsecurity : Takes ⟨.security, Version.V3_8, true⟩ (SECURITY_NONE :: 1 :: tail) 1
      ⟨.init, Version.V3_8, true⟩ [.security SECURITY_NONE] := .security rfl rfl
  have hinit : Takes ⟨.init, Version.V3_8, true⟩ (1 :: tail) 1
      ⟨.ready, Version.V3_8, true⟩ [.init true] := .init rfl rfl
  rw [messageLengths, drain_takes hversion]
  rw [show (handshake ++ tail).drop 12 = SECURITY_NONE :: 1 :: tail from rfl,
    drain_takes hsecurity]
  rw [show (SECURITY_NONE :: 1 :: tail).drop 1 = 1 :: tail from rfl, drain_takes hinit]
  rfl

theorem mem_messageLengths_paste {len : Word} {text : List UInt8}
    (h : text.length = len.value.toNat) :
    text.length + 8 ∈ messageLengths (handshake ++ paste len text) := by
  have hwhole : Whole (paste len text) (.cutText (latin1 text)) := .cutText 0 0 0 len h
  have hread := parseClient_whole hwhole
  rw [messageLengths_handshake, drain_takes (.message rfl hread), Drained.lengths_cons]
  exact List.mem_cons_of_mem _ (List.mem_cons_of_mem _ (List.mem_cons_of_mem _ List.mem_cons_self))

def letters (n : Nat) : List UInt8 :=
  List.replicate n 0x61

theorem length_letters (n : Nat) : (letters n).length = n :=
  List.length_replicate

/-- **A clipboard longer than the inbox is heard or ends the connection**, as the network
has it. -/
theorem longPaste_cut :
    ¬ CutIndependent false (handshake ++ paste ⟨0, 0, 0xff, 0xfa⟩ (letters 65530)) := by
  have hlen : (letters 65530).length = (Word.value ⟨0, 0, 0xff, 0xfa⟩).toNat := by
    rw [length_letters]
    decide +kernel
  have hmem := mem_messageLengths_paste hlen
  rw [length_letters] at hmem
  exact not_independent_of_long hmem (by decide)

end Rsemu.Vnc
