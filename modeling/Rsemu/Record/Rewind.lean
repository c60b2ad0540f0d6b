import Rsemu.Record.Recorder

/-!
# Rewinding a console

A character port is a pair of byte queues on the host's side of the machine, so it is not part
of a snapshot. A recorder feeds one from the log through its sink; the guest reads it whenever
it likes. Loading a snapshot moves the recorder's cursor to the first event at or after the
snapshot's instant and clears the port, on the understanding that what was queued is delivered
again on the way forward.

It is not, when it was delivered before that instant: the cursor does not go back that far.
`restores_iff` says when a guest cannot tell.
-/

namespace Rsemu.Record

open Codec State

def portCapacity : Nat := 64 * 1024

/-- A serial port's two queues. -/
structure CharPort where
  /-- Host to guest. -/
  toGuest : Bytes
  /-- Guest to host. -/
  toHost : Bytes

namespace CharPort

def new : CharPort := ⟨[], []⟩

def feed (p : CharPort) (bytes : Bytes) : CharPort :=
  let room := portCapacity - p.toGuest.length
  let take := min room bytes.length
  { p with toGuest := p.toGuest ++ bytes.take take }

def read (p : CharPort) (len : Nat) : Bytes × CharPort :=
  (p.toGuest.take len, { p with toGuest := p.toGuest.drop len })

def clear (_ : CharPort) : CharPort := ⟨[], []⟩

end CharPort

/-- A machine as its console sees it: the recorder and the port. -/
structure Console where
  recorder : Recorder
  port : CharPort

/-- What happens around a port. -/
inductive Act where
  /-- A round begins. -/
  | deliver (now : Nat)
  /-- The guest reads. -/
  | read (len : Nat)

namespace Console

variable (sink : SinkId)

def handOut (batch : List Delivery) (p : CharPort) : CharPort :=
  (batch.filter fun d => d.sink = sink).foldl (fun p d => p.feed d.payload) p

def step (c : Console) : Act → List Bytes × Console
  | .deliver now =>
    let out := c.recorder.deliver now
    ([], ⟨out.2, handOut sink (out.1.toOption.getD []) c.port⟩)
  | .read len =>
    let out := c.port.read len
    ([out.1], { c with port := out.2 })

def run (c : Console) : List Act → List Bytes × Console
  | [] => ([], c)
  | a :: acts =>
    let first := step sink c a
    let rest := run first.2 acts
    (first.1 ++ rest.1, rest.2)

def isRegistered (r : Recorder) : Bool := r.channels.entries.any fun b => b.2 = sink

/-- What loading a snapshot taken at `at_` does: the recorder moves back, and tells the
sinks it has. -/
def load (c : Console) (at_ : Nat) : Console :=
  ⟨c.recorder.rewindTo at_, if isRegistered sink c.recorder then c.port.clear else c.port⟩

def start (channels : SortedMap Channel SinkId) (log : InputLog) : Console :=
  ⟨{ Recorder.replaying log with channels := channels }, CharPort.new⟩

end Console

def actInstants (acts : List Act) : List Nat :=
  acts.filterMap fun a => match a with
    | .deliver now => some now
    | .read _ => none

/-- **Loading the snapshot taken after `history` restores the input.** Whatever the
machine does next, it reads the same when it does it again after the load. -/
def Restores (sink : SinkId) (c : Console) (history : List Act) (at_ : Nat) : Prop :=
  ∀ future : List Act, (actInstants future).Pairwise (· ≤ ·) →
    (∀ now ∈ actInstants future, at_ ≤ now) →
    (Console.run sink (Console.load sink (Console.run sink (Console.run sink c history).2
        future).2 at_) future).1 =
      (Console.run sink (Console.run sink c history).2 future).1

def portBytes (sink : SinkId) (channels : SortedMap Channel SinkId) (es : List InputEvent) :
    Bytes :=
  (es.filter fun e => channels.get e.channel = some sink).flatMap InputEvent.payload

namespace CharPort

/-- What waits for the guest is within the port's capacity. -/
def Fits (p : CharPort) : Prop := p.toGuest.length ≤ portCapacity

theorem feed_eq {p : CharPort} (h : p.Fits) (bytes : Bytes) :
    p.feed bytes = { p with toGuest := (p.toGuest ++ bytes).take portCapacity } := by
  have hlen : p.toGuest.length ≤ portCapacity := h
  have hfirst : p.toGuest.take portCapacity = p.toGuest := List.take_of_length_le hlen
  have hrest : bytes.take (min (portCapacity - p.toGuest.length) bytes.length) =
      bytes.take (portCapacity - p.toGuest.length) := by
    rw [← List.take_take, List.take_length]
  rw [feed, List.take_append, hfirst, hrest]

theorem fits_feed {p : CharPort} (h : p.Fits) (bytes : Bytes) : (p.feed bytes).Fits := by
  rw [feed_eq h, Fits, List.length_take]
  exact Nat.min_le_left ..

theorem feed_feed {p : CharPort} (h : p.Fits) (a b : Bytes) :
    (p.feed a).feed b = p.feed (a ++ b) := by
  rw [feed_eq (fits_feed h a), feed_eq h, feed_eq h]
  rw [← List.append_assoc, List.take_append, List.take_take, Nat.min_self, List.length_take,
    @List.take_append _ (p.toGuest ++ a)]
  rcases Nat.le_total (p.toGuest ++ a).length portCapacity with hle | hle
  · rw [Nat.min_eq_right hle]
  · rw [Nat.min_eq_left hle, Nat.sub_self, Nat.sub_eq_zero_of_le hle]

theorem feed_nil {p : CharPort} (h : p.Fits) : p.feed [] = p := by
  rw [feed_eq h, List.append_nil, List.take_of_length_le h]

end CharPort

theorem take_append_congr {x y : Bytes} {cap : Nat} (h : x.take cap = y.take cap) (z : Bytes) :
    (x ++ z).take cap = (y ++ z).take cap := by
  have hlen := congrArg List.length h
  rw [List.length_take, List.length_take] at hlen
  rcases Nat.lt_or_ge x.length cap with hx | hx
  · rw [List.take_of_length_le (by omega), List.take_of_length_le (by omega)] at h
    rw [h]
  · have hy : cap ≤ y.length := by omega
    rw [List.take_append_of_le_length hx, List.take_append_of_le_length hy, h]

namespace Console

variable {sink : SinkId}

theorem handOut_eq {batch : List Delivery} : ∀ {p : CharPort}, p.Fits →
    handOut sink batch p =
      p.feed ((batch.filter fun d => d.sink = sink).flatMap Delivery.payload) := by
  unfold handOut
  generalize (batch.filter fun d => decide (d.sink = sink)) = ds
  induction ds with
  | nil => exact fun h => (CharPort.feed_nil h).symm
  | cons d ds ih =>
    intro p h
    rw [List.foldl_cons, ih (CharPort.fits_feed h _), CharPort.feed_feed h, List.flatMap_cons]

theorem replayBatch_bytes (r : Recorder) (now : Nat) :
    ((r.replayBatch now).filter fun d => d.sink = sink).flatMap Delivery.payload =
      portBytes sink r.channels ((r.log.events.take (r.replayEnd now)).drop r.cursor) := by
  unfold Recorder.replayBatch portBytes
  induction (r.log.events.take (r.replayEnd now)).drop r.cursor with
  | nil => rfl
  | cons e es ih =>
    cases hget : r.channels.get e.channel with
    | none => simpa [hget] using ih
    | some other =>
      by_cases hsink : other = sink
      · simpa [hget, hsink] using ih
      · simpa [hget, hsink] using ih

end Console

theorem filter_due {es : List InputEvent} (h : es.Pairwise fun a b => a.at_ ≤ b.at_)
    {at_ now : Nat} (hle : at_ ≤ now) :
    (es.filter fun e => e.at_ ≤ now) =
      (es.filter fun e => e.at_ ≤ at_) ++ es.filter fun e => at_ < e.at_ ∧ e.at_ ≤ now := by
  induction es with
  | nil => rfl
  | cons e es ih =>
    obtain ⟨he, hes⟩ := List.pairwise_cons.mp h
    by_cases hat : e.at_ ≤ at_
    · rw [List.filter_cons_of_pos (by simp; omega), List.filter_cons_of_pos (by simpa using hat),
        List.filter_cons_of_neg (by simp; omega), ih hes, List.cons_append]
    · -- nothing after this one is due by the earlier instant
      have hnone : ((e :: es).filter fun e => decide (e.at_ ≤ at_)) = [] := by
        refine List.filter_eq_nil_iff.mpr fun f hf => ?_
        rcases List.mem_cons.mp hf with rfl | hf
        · simpa using hat
        · have := he f hf
          simp
          omega
      rw [hnone, List.nil_append]
      refine List.filter_congr fun f hf => ?_
      have hlt : at_ < f.at_ := by
        rcases List.mem_cons.mp hf with rfl | hf
        · omega
        · have := he f hf
          omega
      simp [hlt]

theorem takeWhile_length_mono {p q : InputEvent → Bool} (h : ∀ e, p e = true → q e = true)
    (es : List InputEvent) : (es.takeWhile p).length ≤ (es.takeWhile q).length := by
  induction es with
  | nil => exact Nat.le_refl _
  | cons e es ih =>
    cases hp : p e with
    | true =>
      rw [List.takeWhile_cons_of_pos hp, List.takeWhile_cons_of_pos (h e hp),
        List.length_cons, List.length_cons]
      omega
    | false =>
      rw [List.takeWhile_cons_of_neg (by simp [hp])]
      exact Nat.zero_le _

theorem due_mono {at_ now : Nat} (hle : at_ ≤ now) (es : List InputEvent) :
    (es.takeWhile fun e => e.at_ ≤ at_).length ≤ (es.takeWhile fun e => e.at_ ≤ now).length :=
  takeWhile_length_mono (fun e he => by simp at he ⊢; omega) es

theorem passed_eq {r : Recorder} (hord : r.log.Ordered) {now : Nat}
    (hbehind : r.cursor ≤ (r.log.events.takeWhile fun e => e.at_ ≤ now).length) :
    (r.log.events.take (r.replayEnd now)).drop r.cursor =
      (r.log.events.drop r.cursor).filter fun e => e.at_ ≤ now := by
  have hanti : r.log.events.Pairwise fun a b =>
      decide (b.at_ ≤ now) = true → decide (a.at_ ≤ now) = true :=
    hord.sorted.imp fun hab => by simp only [decide_eq_true_eq]; omega
  have htake := InputLog.take_partition hanti
  have hdrop := InputLog.drop_partition hanti
  rw [Recorder.replayEnd, Nat.max_eq_left hbehind]
  have hlen := (List.takeWhile_prefix (l := r.log.events) fun e => decide (e.at_ ≤ now)).length_le
  generalize (r.log.events.takeWhile fun e => decide (e.at_ ≤ now)).length = n at *
  have hsplit : r.log.events.drop r.cursor =
      (r.log.events.take n).drop r.cursor ++ r.log.events.drop n := by
    conv_lhs => rw [← List.take_append_drop n r.log.events]
    rw [List.drop_append_of_le_length (by rw [List.length_take]; omega)]
  have hdue : ((r.log.events.take n).drop r.cursor).filter (fun e => decide (e.at_ ≤ now)) =
      (r.log.events.take n).drop r.cursor := by
    refine List.filter_eq_self.mpr fun e he => ?_
    have hmem := List.mem_of_mem_drop he
    rw [htake] at hmem
    exact (List.mem_filter.mp hmem).2
  rw [hsplit, List.filter_append, hdue, List.filter_eq_nil_iff.mpr hdrop, List.append_nil]

namespace Console

variable {sink : SinkId} {channels : SortedMap Channel SinkId} {log : InputLog}

/-- **A console fed from a log.** -/
structure Replayed (sink : SinkId) (channels : SortedMap Channel SinkId) (log : InputLog)
    (c : Console) : Prop where
  mode : c.recorder.mode = .replay
  channels : c.recorder.channels = channels
  log : c.recorder.log = log
  fits : c.port.Fits
  /-- A port without a channel gets nothing. -/
  silent : isRegistered sink c.recorder = false → c.port.toGuest = []

theorem replayed_start : Replayed sink channels log (start channels log) :=
  ⟨rfl, rfl, rfl, Nat.zero_le _, fun _ => rfl⟩

def passedBytes (sink : SinkId) (r : Recorder) (now : Nat) : Bytes :=
  portBytes sink r.channels ((r.log.events.take (r.replayEnd now)).drop r.cursor)

variable {c : Console} {at_ : Nat}

theorem step_deliver (h : Replayed sink channels log c) (now : Nat) :
    step sink c (.deliver now) =
      ([], ⟨{ c.recorder with closed := true, cursor := c.recorder.replayEnd now },
        c.port.feed (passedBytes sink c.recorder now)⟩) := by
  simp only [step, Recorder.deliver, h.mode]
  rw [show (Except.ok (c.recorder.replayBatch now) :
      Except RecordError (List Delivery)).toOption.getD [] = c.recorder.replayBatch now from rfl,
    handOut_eq h.fits, replayBatch_bytes]
  rfl

theorem portBytes_unregistered {r : Recorder} (h : isRegistered sink r = false)
    (es : List InputEvent) : portBytes sink r.channels es = [] := by
  have hnone : ∀ e ∈ es, ¬ decide (r.channels.get e.channel = some sink) = true := by
    intro e _ he
    have hmem := SortedMap.get_eq_some.mp (of_decide_eq_true he)
    have hany : isRegistered sink r = true := List.any_eq_true.mpr ⟨_, hmem, by simp⟩
    exact absurd hany (by simp [h])
  rw [portBytes, List.filter_eq_nil_iff.mpr hnone]
  rfl

theorem replayed_step (h : Replayed sink channels log c) (a : Act) :
    Replayed sink channels log (step sink c a).2 := by
  cases a with
  | deliver now =>
    rw [step_deliver h]
    refine ⟨h.mode, h.channels, h.log, CharPort.fits_feed h.fits _, fun hsilent => ?_⟩
    have hquiet : isRegistered sink c.recorder = false := hsilent
    show (c.port.feed _).toGuest = []
    rw [passedBytes, portBytes_unregistered hquiet, CharPort.feed_nil h.fits]
    exact h.silent hquiet
  | read len =>
    have hfits : c.port.toGuest.length ≤ portCapacity := h.fits
    refine ⟨h.mode, h.channels, h.log, ?_, fun hsilent => ?_⟩
    · show (c.port.toGuest.drop len).length ≤ portCapacity
      rw [List.length_drop]
      omega
    · show c.port.toGuest.drop len = []
      rw [h.silent hsilent]
      exact List.drop_nil

theorem replayed_run {acts : List Act} : ∀ {c : Console}, Replayed sink channels log c →
    Replayed sink channels log (run sink c acts).2 := by
  induction acts with
  | nil => exact fun h => h
  | cons a acts ih => exact fun h => ih (replayed_step h a)

theorem cursor_run {acts : List Act} (hacts : ∀ now ∈ actInstants acts, now ≤ at_) :
    ∀ {c : Console}, Replayed sink channels log c →
      c.recorder.cursor ≤ (log.events.takeWhile fun e => e.at_ ≤ at_).length →
      (run sink c acts).2.recorder.cursor ≤
        (log.events.takeWhile fun e => e.at_ ≤ at_).length := by
  induction acts with
  | nil => exact fun _ hc => hc
  | cons a acts ih =>
    intro c h hc
    cases a with
    | read len => exact ih hacts (replayed_step h (.read len)) hc
    | deliver now =>
      refine ih (fun t ht => hacts t (List.mem_cons_of_mem _ ht))
        (replayed_step h (.deliver now)) ?_
      rw [step_deliver h]
      show c.recorder.replayEnd now ≤ _
      have hnow : now ≤ at_ := hacts now (List.mem_cons_self ..)
      rw [Recorder.replayEnd, h.log]
      exact Nat.max_le.mpr ⟨due_mono hnow log.events, hc⟩

/-- **Two consoles a guest cannot tell apart**, as long as nothing is delivered before
`at_`. The queues are equal; and the cursors are too, or the queues are empty and the
next delivery fills them alike. -/
structure Alike (sink : SinkId) (channels : SortedMap Channel SinkId) (log : InputLog)
    (at_ : Nat) (x y : Console) : Prop where
  left : Replayed sink channels log x
  right : Replayed sink channels log y
  queue : x.port.toGuest = y.port.toGuest
  next : x.recorder.cursor = y.recorder.cursor ∨ x.port.toGuest = [] ∧ ∀ now, at_ ≤ now →
    x.recorder.replayEnd now = y.recorder.replayEnd now ∧
      (passedBytes sink x.recorder now).take portCapacity =
        (passedBytes sink y.recorder now).take portCapacity

theorem Alike.filled {now : Nat} {x y : Console} (h : Alike sink channels log at_ x y)
    (hnow : at_ ≤ now) :
    x.recorder.replayEnd now = y.recorder.replayEnd now ∧
      (x.port.feed (passedBytes sink x.recorder now)).toGuest =
        (y.port.feed (passedBytes sink y.recorder now)).toGuest := by
  rw [CharPort.feed_eq h.left.fits, CharPort.feed_eq h.right.fits]
  rcases h.next with hcursor | ⟨hempty, hnext⟩
  · have hend : x.recorder.replayEnd now = y.recorder.replayEnd now := by
      rw [Recorder.replayEnd, Recorder.replayEnd, h.left.log, h.right.log, hcursor]
    refine ⟨hend, ?_⟩
    show (x.port.toGuest ++ _).take _ = (y.port.toGuest ++ _).take _
    rw [h.queue, passedBytes, passedBytes, hend, hcursor, h.left.log, h.right.log,
      h.left.channels, h.right.channels]
  · obtain ⟨hend, hbytes⟩ := hnext now hnow
    refine ⟨hend, ?_⟩
    show (x.port.toGuest ++ _).take _ = (y.port.toGuest ++ _).take _
    rw [← h.queue, hempty, List.nil_append, List.nil_append]
    exact hbytes

theorem alike_step {x y : Console} (h : Alike sink channels log at_ x y) {a : Act}
    (ha : ∀ now, a = .deliver now → at_ ≤ now) :
    (step sink x a).1 = (step sink y a).1 ∧
      Alike sink channels log at_ (step sink x a).2 (step sink y a).2 := by
  have hleft := replayed_step h.left a
  have hright := replayed_step h.right a
  cases a with
  | deliver now =>
    obtain ⟨hend, hqueue⟩ := h.filled (ha now rfl)
    rw [step_deliver h.left] at hleft ⊢
    rw [step_deliver h.right] at hright ⊢
    exact ⟨rfl, hleft, hright, hqueue, .inl hend⟩
  | read len =>
    refine ⟨?_, hleft, hright, ?_, ?_⟩
    · show [x.port.toGuest.take len] = [y.port.toGuest.take len]
      rw [h.queue]
    · show x.port.toGuest.drop len = y.port.toGuest.drop len
      rw [h.queue]
    · refine h.next.imp id fun hnext => ⟨?_, hnext.2⟩
      show x.port.toGuest.drop len = []
      rw [hnext.1]
      exact List.drop_nil

theorem alike_run {acts : List Act} (hacts : ∀ now ∈ actInstants acts, at_ ≤ now) :
    ∀ {x y : Console}, Alike sink channels log at_ x y →
      (run sink x acts).1 = (run sink y acts).1 := by
  induction acts with
  | nil => exact fun _ => rfl
  | cons a acts ih =>
    intro x y h
    have ha : ∀ now, a = .deliver now → at_ ≤ now := by
      rintro now rfl
      exact hacts now (List.mem_cons_self ..)
    have hrest : ∀ now ∈ actInstants acts, at_ ≤ now := by
      intro now hnow
      refine hacts now ?_
      cases a with
      | deliver t => exact List.mem_cons_of_mem _ hnow
      | read len => exact hnow
    obtain ⟨hfirst, halike⟩ := alike_step h ha
    show (step sink x a).1 ++ (run sink (step sink x a).2 acts).1 =
      (step sink y a).1 ++ (run sink (step sink y a).2 acts).1
    rw [hfirst, ih hrest halike]

theorem load_spec (h : Replayed sink channels log c) (at_ : Nat) :
    Replayed sink channels log (load sink c at_) ∧ (load sink c at_).port.toGuest = [] ∧
      (load sink c at_).recorder.cursor = log.indexAt at_ := by
  have hempty : (load sink c at_).port.toGuest = [] := by
    unfold load
    cases hreg : isRegistered sink c.recorder with
    | true => rfl
    | false => exact h.silent hreg
  refine ⟨⟨h.mode, h.channels, ?_, ?_, fun _ => hempty⟩, hempty, ?_⟩
  · show (c.recorder.rewindTo at_).log = log
    simp [Recorder.rewindTo, h.mode, h.log]
  · show (load sink c at_).port.toGuest.length ≤ portCapacity
    rw [hempty]
    exact Nat.zero_le _
  · show c.recorder.log.indexAt at_ = log.indexAt at_
    rw [h.log]

theorem passedBytes_eq (h : Replayed sink channels log c) (hord : log.Ordered) {now : Nat}
    (hle : at_ ≤ now)
    (hbehind : c.recorder.cursor ≤ (log.events.takeWhile fun e => e.at_ ≤ at_).length) :
    passedBytes sink c.recorder now =
      portBytes sink channels ((log.events.drop c.recorder.cursor).filter fun e => e.at_ ≤ at_) ++
        portBytes sink channels (log.events.filter fun e => at_ < e.at_ ∧ e.at_ ≤ now) := by
  have hbehind' : c.recorder.cursor ≤
      (c.recorder.log.events.takeWhile fun e => e.at_ ≤ now).length := by
    rw [h.log]
    exact Nat.le_trans hbehind (due_mono hle log.events)
  rw [passedBytes, passed_eq (h.log ▸ hord) hbehind', h.log, h.channels,
    filter_due (hord.sorted.drop) hle]
  -- what the cursor has passed is not after `at_`
  have hpassed : (log.events.take c.recorder.cursor).filter
      (fun e => decide (at_ < e.at_ ∧ e.at_ ≤ now)) = [] := by
    refine List.filter_eq_nil_iff.mpr fun e he => ?_
    have hanti : log.events.Pairwise fun a b =>
        decide (b.at_ ≤ at_) = true → decide (a.at_ ≤ at_) = true :=
      hord.sorted.imp fun hab => by simp only [decide_eq_true_eq]; omega
    have hmem := (List.take_subset_take_left log.events hbehind) he
    rw [InputLog.take_partition hanti] at hmem
    have := of_decide_eq_true (List.mem_filter.mp hmem).2
    simp
    omega
  have hlater : (log.events.drop c.recorder.cursor).filter
      (fun e => decide (at_ < e.at_ ∧ e.at_ ≤ now)) =
      log.events.filter fun e => decide (at_ < e.at_ ∧ e.at_ ≤ now) := by
    conv_rhs => rw [← List.take_append_drop c.recorder.cursor log.events]
    rw [List.filter_append, hpassed, List.nil_append]
  rw [hlater, portBytes, List.filter_append, List.flatMap_append]
  rfl

theorem waiting_indexAt (hord : log.Ordered) (at_ : Nat) :
    ((log.events.drop (log.indexAt at_)).filter fun e => e.at_ ≤ at_) =
      log.events.filter fun e => e.at_ = at_ := by
  have hanti : log.events.Pairwise fun a b =>
      decide (b.at_ < at_) = true → decide (a.at_ < at_) = true :=
    hord.sorted.imp fun hab => by simp only [decide_eq_true_eq]; omega
  have htake := hord.take_indexAt at_
  have hdrop := InputLog.drop_partition hanti
  have hbefore : (log.events.take (log.indexAt at_)).filter (fun e => decide (e.at_ = at_)) = [] := by
    refine List.filter_eq_nil_iff.mpr fun e he => ?_
    rw [htake] at he
    have := of_decide_eq_true (List.mem_filter.mp he).2
    simp
    omega
  conv_rhs => rw [← List.take_append_drop (log.indexAt at_) log.events]
  rw [List.filter_append, hbefore, List.nil_append]
  refine List.filter_congr fun e he => ?_
  have := hdrop e he
  simp only [decide_eq_true_eq] at this
  simp only [decide_eq_decide]
  omega

theorem indexAt_le_due (log : InputLog) (at_ : Nat) :
    log.indexAt at_ ≤ (log.events.takeWhile fun e => e.at_ ≤ at_).length :=
  takeWhile_length_mono (fun e he => by simp at he ⊢; omega) log.events

theorem waiting_of_restored (hc : Replayed sink channels log c) (hord : log.Ordered)
    (hbehind : c.recorder.cursor ≤ (log.events.takeWhile fun e => e.at_ ≤ at_).length)
    (h : ∀ future, future = [.read 1] ∨ future = [.deliver at_, .read portCapacity] →
      (run sink (load sink (run sink c future).2 at_) future).1 = (run sink c future).1) :
    c.port.toGuest = [] ∧
      (portBytes sink channels
          ((log.events.drop c.recorder.cursor).filter fun e => e.at_ ≤ at_)).take portCapacity =
        (portBytes sink channels (log.events.filter fun e => e.at_ = at_)).take portCapacity := by
  have hread := h [.read 1] (.inl rfl)
  have hfill := h [.deliver at_, .read portCapacity] (.inr rfl)
  have hempty : c.port.toGuest = [] := by
    have h1 : [((load sink (run sink c [.read 1]).2 at_).port.toGuest.take 1)] =
        [c.port.toGuest.take 1] := hread
    rw [(load_spec (replayed_run hc) at_).2.1] at h1
    cases hq : c.port.toGuest with
    | nil => rfl
    | cons b bs =>
      rw [hq] at h1
      cases h1
  refine ⟨hempty, ?_⟩
  obtain ⟨hl, hlempty, hlcursor⟩ := @load_spec sink channels log
    (run sink c [.deliver at_, .read portCapacity]).2 (replayed_run hc) at_
  generalize load sink (run sink c [.deliver at_, .read portCapacity]).2 at_ = l at *
  have h2 : [(step sink l (.deliver at_)).2.port.toGuest.take portCapacity] =
      [(step sink c (.deliver at_)).2.port.toGuest.take portCapacity] := hfill
  rw [step_deliver hl, step_deliver hc] at h2
  have h3 : (l.port.feed (passedBytes sink l.recorder at_)).toGuest.take portCapacity =
      (c.port.feed (passedBytes sink c.recorder at_)).toGuest.take portCapacity :=
    List.singleton_inj.mp h2
  rw [CharPort.feed_eq hl.fits, CharPort.feed_eq hc.fits] at h3
  simp only [hempty, hlempty, List.nil_append, List.take_take, Nat.min_self] at h3
  have hnone : (log.events.filter fun e => decide (at_ < e.at_ ∧ e.at_ ≤ at_)) = [] :=
    List.filter_eq_nil_iff.mpr fun e _ => by simp
  rw [passedBytes_eq hl hord (Nat.le_refl at_) (hlcursor ▸ indexAt_le_due log at_),
    passedBytes_eq hc hord (Nat.le_refl at_) hbehind, hlcursor, waiting_indexAt hord,
    hnone] at h3
  simp only [portBytes, List.filter_nil, List.flatMap_nil, List.append_nil] at h3
  exact h3.symm

theorem alike_load (hc : Replayed sink channels log c) (hord : log.Ordered)
    (hbehind : c.recorder.cursor ≤ (log.events.takeWhile fun e => e.at_ ≤ at_).length)
    (hempty : c.port.toGuest = []) (hsame : (portBytes sink channels
          ((log.events.drop c.recorder.cursor).filter fun e => e.at_ ≤ at_)).take portCapacity =
        (portBytes sink channels (log.events.filter fun e => e.at_ = at_)).take portCapacity)
    (future : List Act) : Alike sink channels log at_ (load sink (run sink c future).2 at_) c := by
  obtain ⟨hl, hlempty, hlcursor⟩ := @load_spec sink channels log (run sink c future).2
    (replayed_run hc) at_
  have hindex := indexAt_le_due log at_
  refine ⟨hl, hc, hlempty.trans hempty.symm, .inr ⟨hlempty, fun now hnow => ⟨?_, ?_⟩⟩⟩
  · have hmono := due_mono hnow log.events
    rw [Recorder.replayEnd, Recorder.replayEnd, hl.log, hc.log,
      Nat.max_eq_left (hlcursor ▸ Nat.le_trans hindex hmono),
      Nat.max_eq_left (Nat.le_trans hbehind hmono)]
  · rw [passedBytes_eq hl hord hnow (hlcursor ▸ hindex), passedBytes_eq hc hord hnow hbehind,
      hlcursor, waiting_indexAt hord]
    exact take_append_congr hsame.symm _

/-- **A load restores the input exactly when nothing was left in the port and nothing
overdue in the log.** The second part says that what the log still has for the port up to
the snapshot's instant is what was logged at that very instant, as far as the port has
room for it. -/
theorem restores_iff (sink : SinkId) (channels : SortedMap Channel SinkId) (log : InputLog)
    (hord : log.Ordered) (history : List Act) (at_ : Nat)
    (hhistory : ∀ now ∈ actInstants history, now ≤ at_) :
    let c := (run sink (start channels log) history).2
    Restores sink (start channels log) history at_ ↔
      c.port.toGuest = [] ∧
        (portBytes sink channels
            ((log.events.drop c.recorder.cursor).filter fun e => e.at_ ≤ at_)).take portCapacity =
          (portBytes sink channels (log.events.filter fun e => e.at_ = at_)).take portCapacity := by
  intro c
  have hc : Replayed sink channels log c := replayed_run replayed_start
  have hbehind : c.recorder.cursor ≤ (log.events.takeWhile fun e => e.at_ ≤ at_).length :=
    cursor_run hhistory replayed_start (Nat.zero_le _)
  constructor
  · intro h
    refine waiting_of_restored hc hord hbehind fun future hfuture => h future ?_ ?_
    · rcases hfuture with rfl | rfl <;> simp [actInstants]
    · rcases hfuture with rfl | rfl <;> simp [actInstants]
  · rintro ⟨hempty, hsame⟩ future _ hfuture
    exact alike_run hfuture (alike_load hc hord hbehind hempty hsame future)

def typedLog : InputLog := ⟨MachineShape.new, [⟨1, console, [0x41]⟩]⟩

def typedChannels : SortedMap Channel SinkId := SortedMap.empty.insert console 7

theorem typedLog_ordered : typedLog.Ordered :=
  ⟨List.pairwise_singleton _ _, fun e he => by
    rw [List.mem_singleton.mp he]
    decide⟩

/-- The byte is delivered at 1 and read before the snapshot at 5: nothing is lost. -/
theorem restores_typed_read : Restores 7 (start typedChannels typedLog) [.deliver 1, .read 1] 5 :=
  (restores_iff 7 typedChannels typedLog typedLog_ordered [.deliver 1, .read 1] 5
    (by decide)).mpr (by decide)

/-- The byte is delivered at 1 and still in the port at 5: the original run reads it after
the snapshot, and the run after the load never does. -/
theorem typed_lost : ¬ Restores 7 (start typedChannels typedLog) [.deliver 1] 5 ∧
    (run 7 (run 7 (start typedChannels typedLog) [.deliver 1]).2 [.deliver 5, .read 1]).1 =
      [[0x41]] ∧
    (run 7 (load 7 (run 7 (run 7 (start typedChannels typedLog) [.deliver 1]).2
      [.deliver 5, .read 1]).2 5) [.deliver 5, .read 1]).1 = [[]] := by
  refine ⟨fun h => ?_, by decide, by decide⟩
  have hread := h [.deliver 5, .read 1] (by decide) (by decide)
  exact absurd hread (by decide)

end Console

end Rsemu.Record
