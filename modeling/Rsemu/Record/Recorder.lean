import Rsemu.Record.Log

/-!
# The recorder

One per machine: host threads post payloads to it at any moment, and the machine calls
`deliver` at the top of a scheduling round. Recording, that drains what was posted, stamps it
and logs it; replaying, it hands out what the log has up to the instant and ignores the host.
A rewind drops what is queued, moves the cursor and, when recording, cuts the log.

A sink is an object of the host, named by a number. `run` makes a list of calls and keeps the
deliveries of the timeline that survives: a rewind to `at` forgets those at or after `at`.

`logged_run` says the log of a recorder is that timeline, in order. `record_replay` adds that
a recorder replaying the log, or the log decoded from its own encoding, delivers it again.
-/

namespace Rsemu.Record

open Codec State

/-- Whether input is logged or taken from the log. -/
inductive Mode where
  | record | replay
  deriving DecidableEq

/-- A sink's number. -/
abbrev SinkId := Nat

/-- The recorder's state. -/
structure Recorder where
  mode : Mode
  channels : SortedMap Channel SinkId
  pending : List (Channel × Bytes)
  log : InputLog
  cursor : Nat
  closed : Bool

/-- What a sink was handed. -/
structure Delivery where
  at_ : Nat
  channel : Channel
  sink : SinkId
  payload : Bytes
  deriving DecidableEq

namespace Recorder

def recording : Recorder := ⟨.record, .empty, [], InputLog.forShape MachineShape.new, 0, false⟩

def setShape (r : Recorder) (shape : MachineShape) : Recorder :=
  { r with log := { r.log with shape := shape } }

def replaying (log : InputLog) : Recorder := ⟨.replay, .empty, [], log, 0, false⟩

def register (r : Recorder) (channel : Channel) (sink : SinkId) : Except RecordError Recorder :=
  if r.closed then .error (.channelsClosed channel)
  else .ok { r with channels := r.channels.insert channel sink }

/-- Offer a payload: whether it was queued. -/
def post (r : Recorder) (channel : Channel) (payload : Bytes) :
    Except RecordError (Bool × Recorder) :=
  if maxPayload < payload.length then .error (.payloadTooLong payload.length channel)
  else
    match r.channels.get channel with
    | none => .error (.noSuchChannel channel)
    | some _ =>
      if r.mode = .replay then .ok (false, r)
      else .ok (true, { r with pending := r.pending ++ [(channel, payload)] })

/-- Log what was drained, up to the first payload the log refuses. -/
def logDrained (channels : SortedMap Channel SinkId) (now : Nat) :
    List (Channel × Bytes) → InputLog → Except RecordError (List Delivery) × InputLog
  | [], log => (.ok [], log)
  | (channel, payload) :: rest, log =>
    match channels.get channel with
    | none => logDrained channels now rest log
    | some sink =>
      match log.push ⟨now, channel, payload⟩ with
      | .error e => (.error e, log)
      | .ok log =>
        match logDrained channels now rest log with
        | (.ok batch, log) => (.ok (⟨now, channel, sink, payload⟩ :: batch), log)
        | (.error e, log) => (.error e, log)

def replayEnd (r : Recorder) (now : Nat) : Nat :=
  max (r.log.events.takeWhile fun e => e.at_ ≤ now).length r.cursor

def replayBatch (r : Recorder) (now : Nat) : List Delivery :=
  ((r.log.events.take (r.replayEnd now)).drop r.cursor).filterMap fun e =>
    (r.channels.get e.channel).map fun sink => ⟨now, e.channel, sink, e.payload⟩

/-- What is handed out at `now`: what was posted, or what the log has up to then. -/
def deliver (r : Recorder) (now : Nat) : Except RecordError (List Delivery) × Recorder :=
  match r.mode with
  | .record =>
    let out := logDrained r.channels now r.pending r.log
    (out.1, { r with closed := true, pending := [], log := out.2 })
  | .replay =>
    (.ok (r.replayBatch now), { r with closed := true, cursor := r.replayEnd now })

def rewindTo (r : Recorder) (at_ : Nat) : Recorder :=
  let index := r.log.indexAt at_
  { r with
    pending := []
    cursor := index
    log := if r.mode = .record then { r.log with events := r.log.events.take index } else r.log }

end Recorder

/-- The calls on a recorder. -/
inductive Call where
  | register (channel : Channel) (sink : SinkId)
  | post (channel : Channel) (payload : Bytes)
  | deliver (now : Nat)
  | rewind (at_ : Nat)

/-- A recorder and what has been delivered on the timeline that survives. -/
structure Session where
  recorder : Recorder
  delivered : List Delivery

namespace Session

/-- One call, and what is delivered by it. -/
def call (s : Session) : Call → Session
  | .register channel sink =>
    { s with recorder := (s.recorder.register channel sink).toOption.getD s.recorder }
  | .post channel payload =>
    { s with
      recorder := ((s.recorder.post channel payload).toOption.map (·.2)).getD s.recorder }
  | .deliver now =>
    let out := s.recorder.deliver now
    ⟨out.2, s.delivered ++ out.1.toOption.getD []⟩
  | .rewind at_ => ⟨s.recorder.rewindTo at_, s.delivered.filter fun d => d.at_ < at_⟩

def run (s : Session) (calls : List Call) : Session := calls.foldl call s

end Session

def Delivery.event (d : Delivery) : InputEvent := ⟨d.at_, d.channel, d.payload⟩

/-- **What a recording session keeps true.** -/
structure Logged (s : Session) : Prop where
  mode : s.recorder.mode = .record
  ordered : s.recorder.log.Ordered
  /-- Nothing too long was queued. -/
  short : ∀ p ∈ s.recorder.pending, p.2.length ≤ maxPayload
  /-- The log is the timeline. -/
  events : s.recorder.log.events = s.delivered.map Delivery.event
  /-- What was delivered went to the object its channel is bound to. -/
  known : ∀ d ∈ s.delivered, s.recorder.channels.get d.channel = some d.sink
  /-- Deliveries close the channel list. -/
  closed : s.delivered ≠ [] → s.recorder.closed = true

theorem logged_init (shape : MachineShape) : Logged ⟨Recorder.recording.setShape shape, []⟩ :=
  ⟨rfl, InputLog.ordered_empty shape, fun p hp => absurd hp (List.not_mem_nil), rfl,
    fun d hd => absurd hd (by simp), fun h => absurd rfl h⟩

variable {channels : SortedMap Channel SinkId} {s : Session} {calls : List Call}

theorem logDrained_ok {now : Nat} :
    ∀ {drained : List (Channel × Bytes)} {log : InputLog},
      (∀ p ∈ drained, p.2.length ≤ maxPayload) → log.Ordered → (∀ e ∈ log.events, e.at_ ≤ now) →
      ∃ batch, Recorder.logDrained channels now drained log =
          (.ok batch, { log with events := log.events ++ batch.map Delivery.event }) ∧
        InputLog.Ordered { log with events := log.events ++ batch.map Delivery.event } ∧
        ∀ d ∈ batch, d.at_ = now ∧ channels.get d.channel = some d.sink := by
  intro drained
  induction drained with
  | nil =>
    intro log _ hord _
    refine ⟨[], by simp [Recorder.logDrained], ?_, fun d hd => absurd hd (by simp)⟩
    rw [List.map_nil, List.append_nil]
    exact hord
  | cons p rest ih =>
    intro log hshort hord hle
    obtain ⟨channel, payload⟩ := p
    have hshort' : ∀ q ∈ rest, q.2.length ≤ maxPayload :=
      fun q hq => hshort q (List.mem_cons_of_mem _ hq)
    cases hget : channels.get channel with
    | none =>
      obtain ⟨batch, hrun, hord', hbatch⟩ := ih hshort' hord hle
      refine ⟨batch, ?_, hord', hbatch⟩
      simp only [Recorder.logDrained, hget]
      exact hrun
    | some sink =>
      have hpush : log.push ⟨now, channel, payload⟩ =
          .ok { log with events := log.events ++ [⟨now, channel, payload⟩] } :=
        InputLog.push_eq_ok.mpr ⟨hshort _ (List.mem_cons_self ..),
          fun last hlast => hle last (List.mem_of_getLast? hlast), rfl⟩
      have hle' : ∀ e ∈ log.events ++ [⟨now, channel, payload⟩], e.at_ ≤ now := by
        intro e he
        rcases List.mem_append.mp he with he | he
        · exact hle e he
        · rw [List.mem_singleton.mp he]
      obtain ⟨batch, hrun, hord', hbatch⟩ :=
        @ih { log with events := log.events ++ [⟨now, channel, payload⟩] } hshort'
          (hord.push hpush) hle'
      have hcons : log.events ++ [⟨now, channel, payload⟩] ++ batch.map Delivery.event =
          log.events ++ (⟨now, channel, sink, payload⟩ :: batch).map Delivery.event := by
        simp [Delivery.event]
      rw [hcons] at hrun hord'
      refine ⟨⟨now, channel, sink, payload⟩ :: batch, ?_, hord', ?_⟩
      · simp only [Recorder.logDrained, hget, hpush, hrun]
      · intro d hd
        rcases List.mem_cons.mp hd with rfl | hd
        · exact ⟨rfl, hget⟩
        · exact hbatch d hd

theorem logDrained_refused {now : Nat} {log : InputLog} {last : InputEvent}
    (hlast : log.events.getLast? = some last) (hlt : now < last.at_) :
    ∀ {drained : List (Channel × Bytes)}, (Recorder.logDrained channels now drained log).2 = log ∧
      (Recorder.logDrained channels now drained log).1.toOption.getD [] = [] := by
  intro drained
  induction drained with
  | nil => exact ⟨rfl, rfl⟩
  | cons p rest ih =>
    obtain ⟨channel, payload⟩ := p
    cases hget : channels.get channel with
    | none =>
      simp only [Recorder.logDrained, hget]
      exact ih
    | some sink =>
      cases hpush : log.push ⟨now, channel, payload⟩ with
      | error e =>
        simp only [Recorder.logDrained, hget, hpush]
        exact ⟨trivial, rfl⟩
      | ok log' =>
        have hle := (InputLog.push_eq_ok.mp hpush).2.1 last hlast
        exact absurd hlt (Nat.not_lt.mpr hle)

theorem logDrained_spec {channels : SortedMap Channel SinkId} {now : Nat}
    {drained : List (Channel × Bytes)} {log : InputLog}
    (hshort : ∀ p ∈ drained, p.2.length ≤ maxPayload) (hord : log.Ordered) :
    ∃ batch, (Recorder.logDrained channels now drained log).1.toOption.getD [] = batch ∧
      (Recorder.logDrained channels now drained log).2 =
        { log with events := log.events ++ batch.map Delivery.event } ∧
      InputLog.Ordered { log with events := log.events ++ batch.map Delivery.event } ∧
      ∀ d ∈ batch, d.at_ = now ∧ channels.get d.channel = some d.sink := by
  by_cases hle : ∀ e ∈ log.events, e.at_ ≤ now
  · obtain ⟨batch, hrun, hord', hbatch⟩ := @logDrained_ok channels now drained log hshort hord hle
    exact ⟨batch, by rw [hrun]; rfl, by rw [hrun], hord', hbatch⟩
  · cases hl : log.events.getLast? with
    | none =>
      rw [List.getLast?_eq_none_iff.mp hl] at hle
      exact absurd (fun e he => absurd he (by simp)) hle
    | some last =>
      have hlt : now < last.at_ := by
        refine Nat.lt_of_not_le fun hge => hle fun e he => ?_
        exact Nat.le_trans (hord.le_last hl he) hge
      obtain ⟨h2, h1⟩ := @logDrained_refused channels now log last hl hlt drained
      refine ⟨[], h1, ?_, ?_, fun d hd => absurd hd (by simp)⟩
      · rw [h2, List.map_nil, List.append_nil]
      · rw [List.map_nil, List.append_nil]
        exact hord

theorem logged_deliver {s : Session} (h : Logged s) (now : Nat) : Logged (s.call (.deliver now)) := by
  obtain ⟨batch, hout, hlog, hord, hbatch⟩ :=
    @logDrained_spec s.recorder.channels now s.recorder.pending s.recorder.log h.short h.ordered
  have hcall : s.call (.deliver now) =
      ⟨{ s.recorder with closed := true, pending := [], log := { s.recorder.log with
        events := s.recorder.log.events ++ batch.map Delivery.event } }, s.delivered ++ batch⟩ := by
    simp only [Session.call, Recorder.deliver, h.mode, hlog, hout]
  rw [hcall]
  refine ⟨h.mode, hord, fun p hp => absurd hp (by simp), ?_, ?_, fun _ => rfl⟩
  · rw [h.events, List.map_append]
  · intro d hd
    rcases List.mem_append.mp hd with hd | hd
    · exact h.known d hd
    · exact (hbatch d hd).2

theorem logged_register (h : Logged s) (channel : Channel) (sink : SinkId) :
    Logged (s.call (.register channel sink)) := by
  simp only [Session.call, Recorder.register]
  split
  · exact h
  · rename_i hclosed
    refine ⟨h.mode, h.ordered, h.short, h.events, fun d hd => ?_, h.closed⟩
    exact absurd (h.closed (List.ne_nil_of_mem hd)) hclosed

theorem logged_post (h : Logged s) (channel : Channel) (payload : Bytes) :
    Logged (s.call (.post channel payload)) := by
  simp only [Session.call, Recorder.post]
  split
  · exact h
  · rename_i hlen
    split
    · exact h
    · rw [if_neg (by rw [h.mode]; decide)]
      refine ⟨h.mode, h.ordered, fun p hp => ?_, h.events, h.known, h.closed⟩
      rcases List.mem_append.mp hp with hp | hp
      · exact h.short p hp
      · rw [List.mem_singleton.mp hp]
        exact Nat.le_of_not_lt hlen

theorem logged_rewind (h : Logged s) (at_ : Nat) : Logged (s.call (.rewind at_)) := by
  have htake := h.ordered.take_indexAt at_
  have hlog : (s.recorder.rewindTo at_).log =
      { s.recorder.log with events := s.recorder.log.events.filter fun e => e.at_ < at_ } := by
    simp only [Recorder.rewindTo, h.mode, if_true, htake]
  refine ⟨h.mode, ?_, fun p hp => absurd hp (by simp [Session.call, Recorder.rewindTo]), ?_, ?_, ?_⟩
  · show (s.recorder.rewindTo at_).log.Ordered
    rw [hlog]
    exact ⟨h.ordered.sorted.filter _, fun e he => h.ordered.short e (List.mem_of_mem_filter he)⟩
  · show (s.recorder.rewindTo at_).log.events = _
    rw [hlog]
    show s.recorder.log.events.filter _ = (s.delivered.filter _).map Delivery.event
    rw [h.events, List.filter_map]
    rfl
  · exact fun d hd => h.known d (List.mem_of_mem_filter hd)
  · intro hne
    refine h.closed fun hnil => hne ?_
    simp only [Session.call, hnil, List.filter_nil]

theorem logged_run : ∀ {s : Session}, Logged s → Logged (s.run calls) := by
  induction calls with
  | nil => exact fun h => h
  | cons c calls ih =>
    intro s h
    refine ih ?_
    cases c with
    | register channel sink => exact logged_register h channel sink
    | post channel payload => exact logged_post h channel payload
    | deliver now => exact logged_deliver h now
    | rewind at_ => exact logged_rewind h at_

def instants (calls : List Call) : List Nat :=
  calls.filterMap fun c => match c with
    | .deliver now => some now
    | _ => none

def Call.isRewind : Call → Bool
  | .rewind _ => true
  | _ => false

theorem channels_closed : ∀ {s : Session}, s.recorder.closed = true →
    (s.run calls).recorder.channels = s.recorder.channels := by
  induction calls with
  | nil => exact fun _ => rfl
  | cons c calls ih =>
    intro s h
    have hcall : (s.call c).recorder.closed = true ∧
        (s.call c).recorder.channels = s.recorder.channels := by
      cases c with
      | register channel sink =>
        simp only [Session.call, Recorder.register, h, if_true]
        exact ⟨h, rfl⟩
      | post channel payload =>
        simp only [Session.call, Recorder.post]
        split
        · exact ⟨h, rfl⟩
        · split
          · exact ⟨h, rfl⟩
          · split <;> exact ⟨h, rfl⟩
      | deliver now =>
        simp only [Session.call, Recorder.deliver]
        split <;> exact ⟨rfl, rfl⟩
      | rewind at_ => exact ⟨h, rfl⟩
    exact (ih hcall.1).trans hcall.2

/-- **A replaying session, between two calls.** `rest` is the instants still to come. -/
structure Replaying (log : InputLog) (rest : List Nat) (s : Session) : Prop where
  mode : s.recorder.mode = .replay
  same : s.recorder.log = log
  /-- What the cursor has passed was delivered, at its own instant. -/
  passed : s.delivered.map Delivery.event = log.events.take s.recorder.cursor
  /-- What it has not passed will be due at its own instant. -/
  due : ∀ e ∈ log.events.drop s.recorder.cursor, e.at_ ∈ rest
  known : ∀ d ∈ s.delivered, s.recorder.channels.get d.channel = some d.sink
  closed : s.delivered ≠ [] → s.recorder.closed = true

theorem replayEnd_spec {r : Recorder} (hord : r.log.Ordered) {now : Nat} {e : InputEvent} :
    (e ∈ (r.log.events.take (r.replayEnd now)).drop r.cursor → e.at_ ≤ now) ∧
      (e ∈ r.log.events.drop (r.replayEnd now) → now < e.at_) := by
  have hanti : r.log.events.Pairwise fun a b =>
      decide (b.at_ ≤ now) = true → decide (a.at_ ≤ now) = true :=
    hord.sorted.imp fun hab => by simp only [decide_eq_true_eq]; omega
  have htake := InputLog.take_partition hanti
  have hdrop := InputLog.drop_partition hanti
  unfold Recorder.replayEnd
  generalize (r.log.events.takeWhile fun e => decide (e.at_ ≤ now)).length = n at htake hdrop ⊢
  constructor
  · intro he
    rcases Nat.le_total n r.cursor with hle | hle
    · rw [Nat.max_eq_right hle, List.drop_take, Nat.sub_self] at he
      exact absurd he (by simp)
    · rw [Nat.max_eq_left hle] at he
      have hmem := List.mem_of_mem_drop he
      rw [htake] at hmem
      simpa using (List.mem_filter.mp hmem).2
  · intro he
    have hsuffix : r.log.events.drop (max n r.cursor) <:+ r.log.events.drop n := by
      rw [show max n r.cursor = n + (max n r.cursor - n) by omega, ← List.drop_drop]
      exact List.drop_suffix _ _
    have := hdrop e (hsuffix.subset he)
    simpa using this

theorem replaying_deliver {log : InputLog} {now : Nat} {rest : List Nat} {s : Session}
    (hord : log.Ordered) (hlater : ∀ t ∈ rest, now ≤ t)
    (hknown : ∀ e ∈ log.events, (s.recorder.channels.get e.channel).isSome = true)
    (h : Replaying log (now :: rest) s) : Replaying log rest (s.call (.deliver now)) := by
  have hspec := fun e => @replayEnd_spec s.recorder (h.same ▸ hord) now e
  rw [h.same] at hspec
  have hcall : s.call (.deliver now) =
      ⟨{ s.recorder with closed := true, cursor := s.recorder.replayEnd now },
        s.delivered ++ s.recorder.replayBatch now⟩ := by
    simp only [Session.call, Recorder.deliver, h.mode]
    rfl
  rw [hcall]
  have hle : s.recorder.cursor ≤ s.recorder.replayEnd now := Nat.le_max_right ..
  -- what is passed now is due now: not earlier, or it would have been due before
  have hnow : ∀ e ∈ (log.events.take (s.recorder.replayEnd now)).drop s.recorder.cursor,
      e.at_ = now := by
    intro e he
    have h1 := (hspec e).1 he
    have hmem : e ∈ log.events.drop s.recorder.cursor := by
      rw [List.drop_take] at he
      exact List.mem_of_mem_take he
    rcases List.mem_cons.mp (h.due e hmem) with h2 | h2
    · exact h2
    · exact Nat.le_antisymm h1 (hlater _ h2)
  refine ⟨h.mode, h.same, ?_, ?_, ?_, fun _ => rfl⟩
  · have hbatch : (s.recorder.replayBatch now).map Delivery.event =
        (log.events.take (s.recorder.replayEnd now)).drop s.recorder.cursor := by
      unfold Recorder.replayBatch
      rw [h.same, List.map_filterMap]
      refine (List.filterMap_congr fun e he => ?_).trans (List.filterMap_some)
      obtain ⟨sink, hsink⟩ := Option.isSome_iff_exists.mp
        (hknown e (List.mem_of_mem_take (List.mem_of_mem_drop he)))
      rw [hsink, Option.map_some, Option.map_some]
      have hat := hnow e he
      cases hat
      rfl
    rw [List.map_append, hbatch, h.passed]
    have htake : log.events.take s.recorder.cursor =
        (log.events.take (s.recorder.replayEnd now)).take s.recorder.cursor := by
      rw [List.take_take, Nat.min_eq_left hle]
    rw [htake, List.take_append_drop]
  · intro e he
    have hlt := (hspec e).2 he
    have hmem : e ∈ log.events.drop s.recorder.cursor := by
      have hsuffix : log.events.drop (s.recorder.replayEnd now) <:+
          log.events.drop s.recorder.cursor := by
        rw [show s.recorder.replayEnd now = s.recorder.cursor +
          (s.recorder.replayEnd now - s.recorder.cursor) by omega, ← List.drop_drop]
        exact List.drop_suffix _ _
      exact hsuffix.subset he
    rcases List.mem_cons.mp (h.due e hmem) with h2 | h2
    · omega
    · exact h2
  · intro d hd
    rcases List.mem_append.mp hd with hd | hd
    · exact h.known d hd
    · obtain ⟨e, _, he⟩ := List.mem_filterMap.mp hd
      obtain ⟨sink, hsink, rfl⟩ := Option.map_eq_some_iff.mp he
      exact hsink

theorem replaying_call {log : InputLog} {rest : List Nat} {c : Call} (hrewind : c.isRewind = false)
    (hdeliver : ∀ now, c ≠ .deliver now) (h : Replaying log rest s) :
    Replaying log rest (s.call c) := by
  cases c with
  | register channel sink =>
    simp only [Session.call, Recorder.register]
    split
    · exact h
    · rename_i hopen
      refine ⟨h.mode, h.same, h.passed, h.due, fun d hd => ?_, h.closed⟩
      exact absurd (h.closed (List.ne_nil_of_mem hd)) hopen
  | post channel payload =>
    simp only [Session.call, Recorder.post]
    split
    · exact h
    · split
      · exact h
      · rw [if_pos h.mode]
        exact h
  | deliver now => exact absurd rfl (hdeliver now)
  | rewind at_ => exact absurd hrewind (by simp [Call.isRewind])

theorem replaying_run {log : InputLog} (hord : log.Ordered) :
    ∀ {s : Session}, (∀ c ∈ calls, c.isRewind = false) → (instants calls).Pairwise (· ≤ ·) →
      (∀ e ∈ log.events, ((s.run calls).recorder.channels.get e.channel).isSome = true) →
      Replaying log (instants calls) s → Replaying log [] (s.run calls) := by
  induction calls with
  | nil => exact fun _ _ _ h => h
  | cons c calls ih =>
    intro s hrewind hsorted hknown h
    have hrewind' : ∀ c ∈ calls, c.isRewind = false :=
      fun c hc => hrewind c (List.mem_cons_of_mem _ hc)
    by_cases hdeliver : ∃ now, c = .deliver now
    · obtain ⟨now, rfl⟩ := hdeliver
      obtain ⟨hlater, hsorted'⟩ := List.pairwise_cons.mp hsorted
      have hchannels : ((s.call (.deliver now)).run calls).recorder.channels =
          s.recorder.channels := by
        have hmode := h.mode
        have hclosed : (s.call (.deliver now)).recorder.closed = true := by
          simp only [Session.call, Recorder.deliver, hmode]
        refine (channels_closed hclosed).trans ?_
        simp only [Session.call, Recorder.deliver, hmode]
      refine ih hrewind' hsorted' hknown (replaying_deliver hord hlater (fun e he => ?_) h)
      rw [← hchannels]
      exact hknown e he
    · have hne : ∀ now, c ≠ .deliver now := fun now hc => hdeliver ⟨now, hc⟩
      have hinstants : instants (c :: calls) = instants calls := by
        cases c with
        | deliver now => exact absurd rfl (hne now)
        | _ => rfl
      rw [hinstants] at hsorted h
      exact ih hrewind' hsorted hknown
        (replaying_call (hrewind c (List.mem_cons_self ..)) hne h)

theorem replay_delivers {log : InputLog} (hord : log.Ordered)
    (hrewind : ∀ c ∈ calls, c.isRewind = false) (hsorted : (instants calls).Pairwise (· ≤ ·))
    (hdue : ∀ e ∈ log.events, e.at_ ∈ instants calls)
    (hknown : ∀ e ∈ log.events, (((Session.mk (Recorder.replaying log) []).run
      calls).recorder.channels.get e.channel).isSome = true) :
    let s := (Session.mk (Recorder.replaying log) []).run calls
    s.delivered.map Delivery.event = log.events ∧
      ∀ d ∈ s.delivered, s.recorder.channels.get d.channel = some d.sink := by
  have hinit : Replaying log (instants calls) ⟨Recorder.replaying log, []⟩ :=
    ⟨rfl, rfl, rfl, hdue, fun d hd => absurd hd (by simp), fun h => absurd rfl h⟩
  have hend := replaying_run hord hrewind hsorted hknown hinit
  refine ⟨?_, hend.known⟩
  -- nothing is left past the cursor: no instant is to come
  have hnone : log.events.drop ((Session.mk (Recorder.replaying log) []).run
      calls).recorder.cursor = [] :=
    List.eq_nil_iff_forall_not_mem.mpr fun e he => absurd (hend.due e he) (by simp)
  have hall := List.take_append_drop ((Session.mk (Recorder.replaying log) []).run
    calls).recorder.cursor log.events
  rw [hnone, List.append_nil] at hall
  exact hend.passed.trans hall

theorem logDrained_instant {now : Nat} :
    ∀ {drained : List (Channel × Bytes)} {log log' : InputLog} {batch : List Delivery},
      Recorder.logDrained channels now drained log = (.ok batch, log') →
      ∀ d ∈ batch, d.at_ = now := by
  intro drained
  induction drained with
  | nil =>
    intro log log' batch h d hd
    cases h
    exact absurd hd (by simp)
  | cons p rest ih =>
    intro log log' batch h d hd
    simp only [Recorder.logDrained] at h
    split at h
    · exact ih h d hd
    · split at h
      · exact absurd (congrArg Prod.fst h) (by simp)
      · split at h
        · rename_i hrest
          cases h
          rcases List.mem_cons.mp hd with rfl | hd
          · rfl
          · exact ih hrest d hd
        · exact absurd (congrArg Prod.fst h) (by simp)

theorem call_instant {c : Call} {d : Delivery} (hd : d ∈ (s.call c).delivered) :
    d ∈ s.delivered ∨ c = .deliver d.at_ := by
  cases c with
  | register channel sink => exact .inl hd
  | post channel payload => exact .inl hd
  | rewind at_ => exact .inl (List.mem_of_mem_filter hd)
  | deliver now =>
    rcases List.mem_append.mp hd with hd | hd
    · exact .inl hd
    · right
      simp only [Recorder.deliver] at hd
      split at hd
      · cases hout : (Recorder.logDrained s.recorder.channels now s.recorder.pending
            s.recorder.log).1 with
        | error e =>
          rw [hout] at hd
          exact absurd hd (by simp [Except.toOption])
        | ok batch =>
          rw [hout] at hd
          exact congrArg Call.deliver
            (logDrained_instant (Prod.ext hout rfl : _ = (Except.ok batch,
              (Recorder.logDrained s.recorder.channels now s.recorder.pending
                s.recorder.log).2)) d hd).symm
      · obtain ⟨e, _, he⟩ := List.mem_filterMap.mp hd
        obtain ⟨sink, _, rfl⟩ := Option.map_eq_some_iff.mp he
        rfl

theorem run_instants : ∀ {s : Session} {d : Delivery},
    d ∈ (s.run calls).delivered → d ∈ s.delivered ∨ d.at_ ∈ instants calls := by
  induction calls with
  | nil => exact fun hd => .inl hd
  | cons c calls ih =>
    intro s d hd
    have hcons : ∀ {now : Nat}, now ∈ instants calls → now ∈ instants (c :: calls) := by
      intro now hnow
      simp only [instants, List.filterMap_cons]
      split
      · exact hnow
      · exact List.mem_cons_of_mem _ hnow
    rcases ih hd with hd | hd
    · rcases call_instant hd with hd | rfl
      · exact .inl hd
      · exact .inr (List.mem_cons_self ..)
    · exact .inr (hcons hd)

/-- **Record and replay agree.** The log of a recorder lists, by instant, what was
delivered on the timeline that survives; its encoding decodes to it; and a recorder
that replays it, whatever is posted to it meanwhile, hands out the same payloads at the
same instants, as long as it has the same channels and delivers, never going back, at
every instant that was logged. -/
theorem record_replay {ptr : Nat} (hptr : ptr ≤ 64) (shape : MachineShape) (calls : List Call)
    (hat : ∀ now ∈ instants calls, now < 2 ^ 128) :
    let s := (Session.mk (Recorder.recording.setShape shape) []).run calls
    let log := s.recorder.log
    log.events.Pairwise (fun a b => a.at_ ≤ b.at_) ∧
      log.events = s.delivered.map Delivery.event ∧
      (∀ d ∈ s.delivered, s.recorder.channels.get d.channel = some d.sink) ∧
      (∃ bytes, log.encode = .ok bytes ∧
        (bytes.length < 2 ^ ptr → InputLog.decode ptr bytes = .ok log)) ∧
      ∀ replay : List Call,
        let s' := (Session.mk (Recorder.replaying log) []).run replay
        (∀ c ∈ replay, c.isRewind = false) → (instants replay).Pairwise (· ≤ ·) →
        (∀ e ∈ log.events, e.at_ ∈ instants replay) →
        (∀ channel, (s'.recorder.channels.get channel).isSome =
          (s.recorder.channels.get channel).isSome) →
        s'.delivered.map Delivery.event = s.delivered.map Delivery.event ∧
          ∀ d ∈ s'.delivered, s'.recorder.channels.get d.channel = some d.sink := by
  have h := @logged_run calls _ (logged_init shape)
  intro s log
  have hbound : ∀ e ∈ log.events, e.at_ < 2 ^ 128 := by
    intro e he
    rw [show log.events = s.delivered.map Delivery.event from h.events] at he
    obtain ⟨d, hd, rfl⟩ := List.mem_map.mp he
    rcases run_instants hd with hd | hd
    · cases hd
    · exact hat _ hd
  have henc : ∃ bytes, log.encode = .ok bytes := by
    simp only [InputLog.encode, log, s, InputLog.encodeEvents_ok h.ordered.short, bind,
      Except.bind, Except.ok.injEq, exists_eq']
  refine ⟨h.ordered.sorted, h.events, h.known, ?_, ?_⟩
  · obtain ⟨bytes, henc⟩ := henc
    exact ⟨bytes, henc, InputLog.decode_encode hptr h.ordered hbound henc⟩
  · intro replay s' hrewind hsorted hdue hchannels
    have hknown : ∀ e ∈ log.events, (s'.recorder.channels.get e.channel).isSome = true := by
      intro e he
      rw [show log.events = s.delivered.map Delivery.event from h.events] at he
      obtain ⟨d, hd, rfl⟩ := List.mem_map.mp he
      rw [hchannels, Delivery.event, h.known d hd]
      rfl
    obtain ⟨hevents, hsinks⟩ := replay_delivers h.ordered hrewind hsorted hdue hknown
    exact ⟨hevents.trans h.events, hsinks⟩

def console : Channel := ⟨⟨"uart"⟩, ⟨"con"⟩⟩

def sampleCalls : List Call :=
  [.register console 1, .post console [0x41], .deliver 5, .post console [0x42], .deliver 9,
    .rewind 7, .post console [0x43], .deliver 8]

def sampleReplay : List Call :=
  [.register console 2, .deliver 0, .post console [0x7a], .deliver 5, .deliver 8, .deliver 20]

theorem record_replay_sample :
    ((Session.mk (Recorder.recording.setShape MachineShape.new) []).run sampleCalls).delivered =
        [⟨5, console, 1, [0x41]⟩, ⟨8, console, 1, [0x43]⟩] ∧
      ((Session.mk (Recorder.replaying ((Session.mk (Recorder.recording.setShape
        MachineShape.new) []).run sampleCalls).recorder.log) []).run
          sampleReplay).delivered.map Delivery.event =
        [⟨5, console, [0x41]⟩, ⟨8, console, [0x43]⟩] := by
  have h := @record_replay 64 (by decide) MachineShape.new sampleCalls
    (by decide)
  refine ⟨by decide, ?_⟩
  exact (h.2.2.2.2 sampleReplay (by decide) (by decide) (by decide)
    (fun channel => by
      rw [show ((Session.mk (Recorder.recording.setShape MachineShape.new) []).run
          sampleCalls).recorder.channels = SortedMap.empty.insert console 1 from rfl,
        show ((Session.mk (Recorder.replaying ((Session.mk (Recorder.recording.setShape
          MachineShape.new) []).run sampleCalls).recorder.log) []).run
            sampleReplay).recorder.channels = SortedMap.empty.insert console 2 from rfl,
        SortedMap.get_insert, SortedMap.get_insert]
      split <;> rfl)).1.trans (by decide)

end Rsemu.Record
