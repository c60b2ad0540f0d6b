import Rsemu.Vnc.Proto

/-!
# What a connection hears

`VncServer::service` as far as a client's bytes are concerned: the socket is read until
it has no more for now, what is whole is consumed, and a connection that still holds
more than `MAX_INBOX` is dropped. `consumer` is one turn of the loop in `consume`, a
decoder whose state is where the handshake has got to.

What the server sends back is not here: nothing of it is read again.
-/

namespace Rsemu.Vnc

open Incremental

/-- How far the handshake is. -/
inductive Phase where
  | version
  | security
  | init
  | ready

/-- A connection's state. -/
structure Conn where
  phase : Phase
  version : Version
  /-- Recorded rather than acted on. -/
  shared : Bool

def Conn.new : Conn where
  phase := .version
  version := Version.V3_8
  shared := true

/-- An input the guest is handed. -/
inductive InputEvent where
  | key (keysym : UInt32) (down : Bool)
  | pointer (x y : Nat) (buttons : UInt8)

/-- What a client said. -/
inductive Heard where
  | version (version : Version)
  | security (choice : UInt8)
  | init (shared : Bool)
  | message (m : ClientMessage)
  | input (event : InputEvent)

def apply : ClientMessage → List InputEvent
  | .key key down => [.key key down]
  | .pointer x y buttons => [.pointer x.toNat y.toNat buttons]
  | .setPixelFormat _ => []
  | .setEncodings _ => []
  | .updateRequest .. => []
  | .cutText _ => []

def SECURITY_NONE : UInt8 := 1

/-- One turn of the loop in `consume`. -/
def turn (conn : Conn) (inbox : List UInt8) : Verdict Conn Heard :=
  match conn.phase with
  | .version =>
    if inbox.length < Version.LEN then
      .wait
    else
      match Version.parse (inbox.take Version.LEN) with
      | none => .fail
      | some version =>
        .take Version.LEN
          { conn with
            version
            phase := if Version.V3_7.le version then .security else .init }
          [.version version]
  | .security =>
    match inbox with
    | [] => .wait
    | choice :: _ =>
      if choice ≠ SECURITY_NONE then .fail
      else .take 1 { conn with phase := .init } [.security choice]
  | .init =>
    match inbox with
    | [] => .wait
    | shared :: _ =>
      .take 1 { conn with shared := shared != 0, phase := .ready } [.init (shared != 0)]
  | .ready =>
    match parseClient inbox with
    | .incomplete => .wait
    | .unknown _ => .fail
    | .malformed => .fail
    | .message m used => .take used conn (.message m :: (apply m).map .input)

/-- What a turn that takes something took, phase by phase. -/
inductive Takes (conn : Conn) (inbox : List UInt8) : Nat → Conn → List Heard → Prop where
  | version {version : Version} (hp : conn.phase = .version) (hlen : Version.LEN ≤ inbox.length)
      (hv : Version.parse (inbox.take Version.LEN) = some version) :
      Takes conn inbox Version.LEN
        { conn with version, phase := if Version.V3_7.le version then .security else .init }
        [.version version]
  | security {rest : List UInt8} (hp : conn.phase = .security)
      (hb : inbox = SECURITY_NONE :: rest) :
      Takes conn inbox 1 { conn with phase := .init } [.security SECURITY_NONE]
  | init {shared : UInt8} {rest : List UInt8} (hp : conn.phase = .init)
      (hb : inbox = shared :: rest) :
      Takes conn inbox 1 { conn with shared := shared != 0, phase := .ready }
        [.init (shared != 0)]
  | message {m : ClientMessage} {used : Nat} (hp : conn.phase = .ready)
      (hm : parseClient inbox = .message m used) :
      Takes conn inbox used conn (.message m :: (apply m).map .input)

variable {inbox : List UInt8} {conn conn' : Conn} {o : List Heard}

theorem takes_of_turn {n : Nat} (h : turn conn inbox = .take n conn' o) :
    Takes conn inbox n conn' o := by
  unfold turn at h
  cases hp : conn.phase with
  | version =>
    simp only [hp] at h
    by_cases hlen : inbox.length < Version.LEN
    · rw [if_pos hlen] at h
      cases h
    · rw [if_neg hlen] at h
      cases hv : Version.parse (inbox.take Version.LEN) with
      | none =>
        rw [hv] at h
        cases h
      | some version =>
        rw [hv] at h
        cases h
        exact .version hp (by omega) hv
  | security =>
    simp only [hp] at h
    cases inbox with
    | nil => cases h
    | cons choice rest =>
      by_cases hc : choice ≠ SECURITY_NONE
      · simp only [if_pos hc] at h
        cases h
      · simp only [if_neg hc] at h
        cases h
        rw [not_not.mp hc]
        exact .security hp rfl
  | init =>
    simp only [hp] at h
    cases inbox with
    | nil => cases h
    | cons shared rest =>
      cases h
      exact .init hp rfl
  | ready =>
    simp only [hp] at h
    cases hm : parseClient inbox with
    | incomplete =>
      rw [hm] at h
      cases h
    | unknown kind =>
      rw [hm] at h
      cases h
    | malformed =>
      rw [hm] at h
      cases h
    | message m used =>
      rw [hm] at h
      cases h
      exact .message hp hm

theorem Takes.turn {n : Nat} (h : Takes conn inbox n conn' o) :
    turn conn inbox = .take n conn' o := by
  unfold Vnc.turn
  cases h with
  | version hp hlen hv => simp only [hp, if_neg (Nat.not_lt.mpr hlen), hv]
  | security hp hb => simp [hp, hb]
  | init hp hb => simp only [hp, hb]
  | message hp hm => simp only [hp, hm]

theorem Takes.used {n : Nat} (h : Takes conn inbox n conn' o) : 0 < n ∧ n ≤ inbox.length := by
  cases h with
  | version hp hlen hv => exact ⟨by decide, hlen⟩
  | security hp hb =>
    rw [hb]
    exact ⟨by decide, Nat.succ_le_succ (Nat.zero_le _)⟩
  | init hp hb =>
    rw [hb]
    exact ⟨by decide, Nat.succ_le_succ (Nat.zero_le _)⟩
  | message hp hm =>
    obtain ⟨hlen, hw⟩ := whole_of_parseClient hm
    have hpos := hw.length_pos
    rw [List.length_take, Nat.min_eq_left hlen] at hpos
    exact ⟨hpos, hlen⟩

theorem Takes.append {n : Nat} (more : List UInt8) (h : Takes conn inbox n conn' o) :
    Takes conn (inbox ++ more) n conn' o := by
  cases h with
  | version hp hlen hv =>
    refine .version hp (by rw [List.length_append]; omega) ?_
    rw [List.take_append_of_le_length hlen, hv]
  | security hp hb =>
    rw [hb]
    exact .security hp rfl
  | init hp hb =>
    rw [hb]
    exact .init hp rfl
  | message hp hm =>
    refine .message hp ?_
    rw [parseClient_append more (by rw [hm]; intro hc; cases hc), hm]

theorem Takes.front {n : Nat} (h : Takes conn inbox n conn' o) :
    Takes conn (inbox.take n) n conn' o := by
  cases h with
  | version hp hlen hv =>
    refine .version hp (by rw [List.length_take]; omega) ?_
    rw [List.take_take, Nat.min_self, hv]
  | security hp hb =>
    rw [hb]
    exact .security hp rfl
  | init hp hb =>
    rw [hb]
    exact .init hp rfl
  | message hp hm =>
    obtain ⟨hlen, hw⟩ := whole_of_parseClient hm
    refine .message hp (parseClient_front ?_ ?_)
    · rw [List.length_take, Nat.min_eq_left hlen]
    · rwa [List.take_take, Nat.min_self]

theorem Takes.short {n k : Nat} (h : Takes conn inbox n conn' o) (hk : k < n) :
    Vnc.turn conn (inbox.take k) = .wait := by
  unfold Vnc.turn
  cases h with
  | version hp hlen hv =>
    have hshort : (inbox.take k).length < Version.LEN := by
      rw [List.length_take]
      omega
    simp only [hp, if_pos hshort]
  | security hp hb =>
    have hk0 : k = 0 := by omega
    simp only [hp, hk0, List.take_zero]
  | init hp hb =>
    have hk0 : k = 0 := by omega
    simp only [hp, hk0, List.take_zero]
  | message hp hm =>
    obtain ⟨hlen, hw⟩ := whole_of_parseClient hm
    have hshort := parseClient_short hw (by rwa [List.length_take, Nat.min_eq_left hlen])
    rw [List.take_take, Nat.min_eq_left (by omega)] at hshort
    simp only [hp, hshort]

theorem turn_fail_append (more : List UInt8) (h : turn conn inbox = .fail) :
    turn conn (inbox ++ more) = .fail := by
  unfold turn at h ⊢
  cases hp : conn.phase with
  | version =>
    simp only [hp] at h ⊢
    by_cases hlen : inbox.length < Version.LEN
    · rw [if_pos hlen] at h
      cases h
    · rw [if_neg hlen] at h
      rw [if_neg (by rw [List.length_append]; omega),
        List.take_append_of_le_length (by omega)]
      exact h
  | security =>
    simp only [hp] at h ⊢
    cases inbox with
    | nil => cases h
    | cons choice rest => exact h
  | init =>
    simp only [hp] at h
    cases inbox with
    | nil => cases h
    | cons shared rest => cases h
  | ready =>
    simp only [hp] at h ⊢
    have hne : parseClient inbox ≠ .incomplete := by
      intro hc
      rw [hc] at h
      cases h
    rw [parseClient_append more hne]
    exact h

/-- **The loop in `consume` decodes a stream.** -/
def consumer : Decoder Conn UInt8 Heard where
  next := turn
  used := fun h => (takes_of_turn h).used
  settled := by
    intro conn inbox more h
    cases hv : turn conn inbox with
    | wait => exact absurd hv h
    | fail => exact turn_fail_append more hv
    | take n conn' o => exact ((takes_of_turn hv).append more).turn
  exact := fun h => (takes_of_turn h).front.turn
  waits := fun h hk => (takes_of_turn h).short hk

theorem consumer_speaks : consumer.Speaks := by
  intro conn inbox n conn' o h
  cases takes_of_turn h <;> exact List.cons_ne_nil _ _

def MAX_INBOX : Nat := 64 * 1024

theorem turn_fails_within {more : List UInt8} (hw : turn conn inbox = .wait)
    (hf : turn conn (inbox ++ more) = .fail) : inbox.length ≤ 20 := by
  by_contra hlong
  have hcons : inbox ≠ [] := by
    intro hc
    rw [hc] at hlong
    exact hlong (Nat.zero_le _)
  unfold turn at hw hf
  cases hp : conn.phase with
  | version =>
    have hlen : ¬ inbox.length < Version.LEN := by
      rw [Version.LEN]
      omega
    simp only [hp, if_neg hlen] at hw
    cases hv : Version.parse (inbox.take Version.LEN) with
    | none =>
      rw [hv] at hw
      cases hw
    | some version =>
      rw [hv] at hw
      cases hw
  | security =>
    simp only [hp] at hw
    cases inbox with
    | nil => exact hcons rfl
    | cons choice rest =>
      by_cases hc : choice ≠ SECURITY_NONE
      · simp only [if_pos hc] at hw
        cases hw
      · simp only [if_neg hc] at hw
        cases hw
  | init =>
    simp only [hp] at hw
    cases inbox with
    | nil => exact hcons rfl
    | cons shared rest => cases hw
  | ready =>
    simp only [hp] at hw hf
    have hfatal : (parseClient (inbox ++ more)).Fatal := by
      refine ⟨fun hc => ?_, fun m n hc => ?_⟩
      · rw [hc] at hf
        cases hf
      · rw [hc] at hf
        cases hf
    have hfront := parseClient_fatal more (by omega) hfatal
    cases hm : parseClient inbox with
    | incomplete => exact hfront.1 hm
    | unknown kind =>
      rw [hm] at hw
      cases hw
    | malformed =>
      rw [hm] at hw
      cases hw
    | message m used => exact hfront.2 m used hm

theorem consumer_failsWithin : consumer.FailsWithin MAX_INBOX := fun hw hf =>
  Nat.le_trans (turn_fails_within hw hf) (by decide)

/-- What a read of the socket returns. -/
inductive Read where
  /-- `Ok(n)`: these bytes, and none of them when the peer has closed its side. -/
  | ok (bytes : List UInt8)
  | wouldBlock
  | interrupted
  | failed

def BUF : Nat := 4096

/-- The read loop of `service`: the inbox once the socket has no more for now, or nothing
when the connection has ended. -/
def receive : List UInt8 → List Read → Option (List UInt8)
  | inbox, [] => some inbox
  | inbox, .ok bytes :: reads =>
    if bytes = [] then none
    -- a short read means the socket is drained; a full one may not
    else if bytes.length < BUF then some (inbox ++ bytes)
    else receive (inbox ++ bytes) reads
  | inbox, .wouldBlock :: _ => some inbox
  | inbox, .interrupted :: reads => receive inbox reads
  | _, .failed :: _ => none

/-- `service`, up to what the server sends: what was heard, and the connection with what
it holds, unless it is dropped. -/
def service (conn : Conn) (inbox : List UInt8) (reads : List Read) :
    List Heard × Option (Conn × List UInt8) :=
  match receive inbox reads with
  | none => ([], none)
  | some inbox =>
    ((consumer.drain conn inbox).outs, Decoder.keep MAX_INBOX (consumer.drain conn inbox).left)

/-- The polls of a connection, one after the other. -/
def run : Conn → List UInt8 → List (List Read) → List Heard × Option (Conn × List UInt8)
  | conn, inbox, [] => ([], some (conn, inbox))
  | conn, inbox, reads :: polls =>
    match (service conn inbox reads).2 with
    | none => ((service conn inbox reads).1, none)
    | some w =>
      ((service conn inbox reads).1 ++ (run w.1 w.2 polls).1, (run w.1 w.2 polls).2)

/-- What comes of a client's polls: all that was heard, and whether the connection was
dropped after it. -/
def report (polls : List (List Read)) : List Heard × Bool :=
  ((run Conn.new [] polls).1, (run Conn.new [] polls).2.isNone)

end Rsemu.Vnc
