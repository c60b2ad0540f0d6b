import Rsemu.Base.RoundRobin
import Rsemu.Usermode.Clock

/-!
# The scheduling contract for guest threads

A `ThreadSet` says when threads run and for how long, and nothing about what a thread is: a
core is whatever the type variable says. The table is in the order of the thread ids, the
cursor stands behind the thread that ran last, and the clock is the one of `Clock.lean`.

`runNext` is one call of the consumer's loop. It picks a thread, lets it run with the lock
released, so that what the thread does may come back here (`Run.calls`), and moves the clock
by what it consumed.

`pick_cases` says everything a pick can do: serve the first runnable thread from the cursor,
or wake what time allows and serve the first of those, or find nothing.
-/

namespace Rsemu

namespace SortedMap

variable {κ ν : Type} [LinearOrder κ]

def mapValues (m : SortedMap κ ν) (f : κ → ν → ν) : SortedMap κ ν where
  entries := m.entries.map fun e => (e.1, f e.1 e.2)
  sorted := List.pairwise_map.mpr m.sorted

def retain (m : SortedMap κ ν) (p : κ × ν → Bool) : SortedMap κ ν where
  entries := m.entries.filter p
  sorted := List.Pairwise.filter _ m.sorted

def adjust (m : SortedMap κ ν) (k : κ) (f : ν → ν) : SortedMap κ ν :=
  m.mapValues fun k' v => if k' = k then f v else v

theorem mem_mapValues {m : SortedMap κ ν} {f : κ → ν → ν} {k : κ} {v : ν} :
    (k, v) ∈ (m.mapValues f).entries ↔ ∃ u, (k, u) ∈ m.entries ∧ f k u = v := by
  unfold mapValues
  rw [List.mem_map]
  constructor
  · rintro ⟨e, he, heq⟩
    obtain ⟨rfl, rfl⟩ := Prod.mk.inj heq
    exact ⟨e.2, he, rfl⟩
  · rintro ⟨u, hu, rfl⟩
    exact ⟨(k, u), hu, rfl⟩

end SortedMap

namespace Usermode

open Clock Arbiter

/-- An instant. -/
abbrev GlobalTime := Fin (2 ^ 128)

/-- A thread's number. -/
abbrev ThreadId := Fin (2 ^ 32)

scoped instance neZero_threadIds : NeZero (2 ^ 32) := ⟨by decide⟩

/-- Whether a thread can run. -/
inductive ThreadState where
  | runnable
  /-- Not runnable until woken, or until virtual time reaches the deadline if there is one. -/
  | blocked (deadline : Option GlobalTime)
  deriving DecidableEq

namespace ThreadState

def isRunnable : ThreadState → Bool
  | .runnable => true
  | .blocked _ => false

def deadline : ThreadState → Option GlobalTime
  | .runnable => none
  | .blocked d => d

def wakeAt (now : Nat) : ThreadState → ThreadState
  | .runnable => .runnable
  | .blocked none => .blocked none
  | .blocked (some d) => if d.val ≤ now then .runnable else .blocked (some d)

end ThreadState

/-- A thread. -/
structure Entry (Core : Type) where
  core : Core
  state : ThreadState

/-- The guest threads of a run, the clock they advance, and where the round robin has got to. -/
structure ThreadSet (Core : Type) where
  clock : GuestClock
  threads : SortedMap ThreadId (Entry Core)
  nextId : ThreadId
  cursor : ThreadId
  quantum : UInt64

def defaultQuantum : UInt64 := 10000

/-- What a snapshot keeps of the threads. -/
structure Schedule where
  nextId : ThreadId
  cursor : ThreadId
  quantum : UInt64
  states : SortedMap ThreadId ThreadState

/-- What a consumer, or a guest thread through it, can ask for while no thread is being picked. -/
inductive Call (Core : Type) where
  | setQuantum (ticks : UInt64)
  | insert (core : Core)
  | remove (id : ThreadId)
  | block (id : ThreadId) (deadline : Option GlobalTime)
  | wake (id : ThreadId)

/-- The thread that is to run, and for how long. -/
structure Picked (Core : Type) where
  thread : ThreadId
  core : Core
  quantum : UInt64

/-- What a thread did with its quantum, and what was asked of the set meanwhile. -/
structure Run (Core Exit : Type) where
  consumed : UInt64
  exit : Option Exit
  calls : List (Call Core)

/-- How a turn ended. -/
structure Stop (Exit : Type) where
  thread : ThreadId
  consumed : UInt64
  stoppedAt : Nat
  exit : Option Exit

namespace ThreadSet

variable {Core Exit : Type}

def new (clock : GuestClock) : ThreadSet Core :=
  { clock := clock, threads := .empty, nextId := 1, cursor := 0, quantum := defaultQuantum }

def setState (s : ThreadSet Core) (id : ThreadId) (state : ThreadState) : ThreadSet Core :=
  { s with threads := s.threads.adjust id fun e => { e with state := state } }

/-- One call on the set. -/
def call (s : ThreadSet Core) : Call Core → ThreadSet Core
  | .setQuantum ticks => { s with quantum := max ticks 1 }
  | .insert core =>
    { s with
      nextId := s.nextId + 1, threads := s.threads.insert s.nextId ⟨core, .runnable⟩ }
  | .remove id => { s with threads := s.threads.erase id }
  | .block id deadline => s.setState id (.blocked deadline)
  | .wake id => s.setState id .runnable

/-- A schedule put back, if every thread it names is there. -/
def load (s : ThreadSet Core) (schedule : Schedule) : ThreadSet Core × Bool :=
  if schedule.states.entries.all fun e => (s.threads.get e.1).isSome then
    ({ schedule.states.entries.foldl (fun t e => t.setState e.1 e.2)
        { s with threads := s.threads.retain fun e => (schedule.states.get e.1).isSome } with
      nextId := schedule.nextId, cursor := schedule.cursor, quantum := schedule.quantum }, true)
  else (s, false)

/-- The first runnable thread from the cursor. -/
def pickRunnable (s : ThreadSet Core) : ThreadSet Core × Option (Picked Core) :=
  match (s.threads.scanFrom s.cursor).find? fun e => e.2.state.isRunnable with
  | none => (s, none)
  | some e =>
    -- resume the next scan after this thread
    ({ s with cursor := e.1 + 1 },
      (s.threads.get e.1).map fun entry => ⟨e.1, entry.core, s.quantum⟩)

def earliest (s : ThreadSet Core) : Option GlobalTime :=
  (s.threads.entries.filterMap fun e => e.2.state.deadline).min?

def skipTo (s : ThreadSet Core) (deadline : GlobalTime) : ThreadSet Core :=
  let clock := (s.clock.advanceTo deadline.val).1
  { s with
    clock := clock
    threads := s.threads.mapValues fun _ e => { e with state := e.state.wakeAt clock.now } }

/-- The pick loop, with how many times it may still go round. -/
def pickLoop : Nat → ThreadSet Core → ThreadSet Core × Option (Picked Core)
  | 0, s => (s, none)
  | rounds + 1, s =>
    match s.pickRunnable with
    | (s', some picked) => (s', some picked)
    | (s', none) =>
      match s'.earliest with
      | none => (s', none)
      | some deadline => pickLoop rounds (s'.skipTo deadline)

def pick (s : ThreadSet Core) : ThreadSet Core × Option (Picked Core) := pickLoop 2 s

/-- Run the next runnable thread for one quantum. -/
def runNext (s : ThreadSet Core) (run : Picked Core → Run Core Exit) :
    ThreadSet Core × Option (Stop Exit) :=
  match s.pick with
  | (s', none) => (s', none)
  | (s', some picked) =>
    let done := run picked
    let after := done.calls.foldl call s'
    let clock := after.clock.advance done.consumed.toNat
    ({ after with clock := clock },
      some ⟨picked.thread, done.consumed, clock.now, done.exit⟩)

end ThreadSet

/-- Every state a consumer can get to, with a clock of this rate. -/
inductive Reaches (Exit : Type) {Core : Type} (rate : Rational) : ThreadSet Core → Prop where
  | new {clock : GuestClock} (h : GuestClock.withRate rate = .ok clock) :
      Reaches Exit rate (ThreadSet.new clock)
  | call {s : ThreadSet Core} (h : Reaches Exit rate s) (c : Call Core) :
      Reaches Exit rate (s.call c)
  | load {s : ThreadSet Core} (h : Reaches Exit rate s) (schedule : Schedule) :
      Reaches Exit rate (s.load schedule).1
  | runNext {s : ThreadSet Core} (h : Reaches Exit rate s) (run : Picked Core → Run Core Exit) :
      Reaches Exit rate (s.runNext run).1

namespace ThreadSet

variable {Core Exit : Type} {s : ThreadSet Core}

def stateOf (s : ThreadSet Core) (id : ThreadId) : Option ThreadState :=
  (s.threads.get id).map (·.state)

/-- The thread waits for nothing. -/
def Runnable (s : ThreadSet Core) (id : ThreadId) : Prop := s.stateOf id = some .runnable

/-- The thread is blocked with this deadline. -/
def SleepsUntil (s : ThreadSet Core) (id : ThreadId) (deadline : GlobalTime) : Prop :=
  s.stateOf id = some (.blocked (some deadline))

variable {state : ThreadState}

theorem stateOf_eq {id : ThreadId} :
    s.stateOf id = some state ↔ ∃ e, (id, e) ∈ s.threads.entries ∧ e.state = state := by
  unfold stateOf
  rw [Option.map_eq_some_iff]
  constructor
  · rintro ⟨e, he, hs⟩
    exact ⟨e, SortedMap.get_eq_some.mp he, hs⟩
  · rintro ⟨e, he, hs⟩
    exact ⟨e, SortedMap.get_eq_some.mpr he, hs⟩

theorem isRunnable_iff : state.isRunnable = true ↔ state = .runnable := by
  cases state with
  | runnable => exact ⟨fun _ => rfl, fun _ => rfl⟩
  | blocked d => exact ⟨fun h => absurd h Bool.false_ne_true, nofun⟩

theorem deadline_eq_some {d : GlobalTime} :
    state.deadline = some d ↔ state = .blocked (some d) := by
  cases state with
  | runnable =>
    constructor
    · intro h
      cases h
    · intro h
      cases h
  | blocked e =>
    constructor
    · intro h
      exact congrArg _ h
    · intro h
      cases h
      rfl

theorem wakeAt_eq_runnable {now : Nat} :
    state.wakeAt now = .runnable
      ↔ state = .runnable ∨ ∃ d, state = .blocked (some d) ∧ d.val ≤ now := by
  rcases state with _ | _ | d
  · exact ⟨fun _ => Or.inl rfl, fun _ => rfl⟩
  · refine ⟨fun h => (by cases h), fun h => ?_⟩
    rcases h with h | ⟨d, h, _⟩ <;> cases h
  · change (if d.val ≤ now then ThreadState.runnable else .blocked (some d)) = _ ↔ _
    split
    · rename_i hle
      exact ⟨fun _ => Or.inr ⟨d, rfl, hle⟩, fun _ => rfl⟩
    · rename_i hgt
      refine ⟨fun h => (by cases h), fun h => ?_⟩
      rcases h with h | ⟨e, h, hle⟩
      · cases h
      · cases h
        exact absurd hle hgt

/-- A thread is served: it is runnable, and nobody runnable stands before it. -/
structure Serving (s : ThreadSet Core) (picked : Picked Core) : Prop where
  runnable : s.Runnable picked.thread
  first : ∀ id, s.Runnable id →
    (position s.cursor picked.thread).val ≤ (position s.cursor id).val

theorem pickRunnable_some {s' : ThreadSet Core} {picked : Picked Core}
    (h : s.pickRunnable = (s', some picked)) :
    s' = { s with cursor := picked.thread + 1 } ∧ s.Serving picked := by
  unfold pickRunnable at h
  cases hf : (s.threads.scanFrom s.cursor).find? fun e => e.2.state.isRunnable with
  | none =>
    rw [hf] at h
    exact absurd (Prod.mk.inj h).2 (by simp)
  | some e =>
    rw [hf] at h
    obtain ⟨hmem, hrun, hfirst⟩ := SortedMap.scanFrom_find hf
    obtain ⟨hs', hp⟩ := Prod.mk.inj h
    obtain ⟨entry, _, hpicked⟩ := Option.map_eq_some_iff.mp hp
    have hthread : picked.thread = e.1 := by rw [← hpicked]
    refine ⟨by rw [← hs', hthread], ?_, fun id hid => ?_⟩
    · rw [hthread]
      exact stateOf_eq.mpr ⟨e.2, hmem, isRunnable_iff.mp hrun⟩
    · obtain ⟨e', he', hst⟩ := stateOf_eq.mp hid
      rw [hthread]
      exact hfirst (id, e') he' (isRunnable_iff.mpr hst)

theorem pickRunnable_none {s' : ThreadSet Core} (h : s.pickRunnable = (s', none)) :
    s' = s ∧ ∀ id, ¬ s.Runnable id := by
  unfold pickRunnable at h
  cases hf : (s.threads.scanFrom s.cursor).find? fun e => e.2.state.isRunnable with
  | none =>
    rw [hf] at h
    refine ⟨(Prod.mk.inj h).1.symm, fun id hid => ?_⟩
    obtain ⟨e, he, hst⟩ := stateOf_eq.mp hid
    have := SortedMap.scanFrom_find_none.mp hf (id, e) he
    rw [isRunnable_iff.mpr hst] at this
    cases this
  | some e =>
    -- what the scan found is in the table
    rw [hf] at h
    have hget : s.threads.get e.1 = some e.2 :=
      SortedMap.get_eq_some.mpr (SortedMap.scanFrom_find hf).1
    have hnone := (Prod.mk.inj h).2
    rw [hget] at hnone
    cases hnone

theorem earliest_eq_some {d : GlobalTime} (h : s.earliest = some d) :
    (∃ id, s.SleepsUntil id d) ∧ ∀ id d', s.SleepsUntil id d' → d ≤ d' := by
  obtain ⟨hmem, hle⟩ := List.min?_eq_some_iff.mp h
  constructor
  · obtain ⟨e, he, hd⟩ := List.mem_filterMap.mp hmem
    exact ⟨e.1, stateOf_eq.mpr ⟨e.2, he, deadline_eq_some.mp hd⟩⟩
  · intro id d' hid
    obtain ⟨e, he, hst⟩ := stateOf_eq.mp hid
    exact hle d' (List.mem_filterMap.mpr ⟨(id, e), he, deadline_eq_some.mpr hst⟩)

theorem earliest_eq_none : s.earliest = none ↔ ∀ id d, ¬ s.SleepsUntil id d := by
  unfold earliest
  rw [List.min?_eq_none_iff, List.filterMap_eq_nil_iff]
  constructor
  · intro h id d hid
    obtain ⟨e, he, hst⟩ := stateOf_eq.mp hid
    have := h (id, e) he
    rw [deadline_eq_some.mpr hst] at this
    cases this
  · intro h e he
    cases hd : e.2.state.deadline with
    | none => rfl
    | some d => exact absurd (stateOf_eq.mpr ⟨e.2, he, deadline_eq_some.mp hd⟩) (h e.1 d)

theorem skipTo_runnable {d : GlobalTime} {id : ThreadId} :
    (s.skipTo d).Runnable id ↔ s.Runnable id
      ∨ ∃ d', s.SleepsUntil id d' ∧ d'.val ≤ (s.skipTo d).clock.now := by
  unfold Runnable
  rw [stateOf_eq]
  constructor
  · rintro ⟨e, he, hst⟩
    obtain ⟨u, hu, rfl⟩ := SortedMap.mem_mapValues.mp he
    rcases wakeAt_eq_runnable.mp hst with h | ⟨d', h, hle⟩
    · exact Or.inl (stateOf_eq.mpr ⟨u, hu, h⟩)
    · exact Or.inr ⟨d', stateOf_eq.mpr ⟨u, hu, h⟩, hle⟩
  · rintro (h | ⟨d', h, hle⟩)
    · obtain ⟨u, hu, hst⟩ := stateOf_eq.mp h
      exact ⟨_, SortedMap.mem_mapValues.mpr ⟨u, hu, rfl⟩, wakeAt_eq_runnable.mpr (Or.inl hst)⟩
    · obtain ⟨u, hu, hst⟩ := stateOf_eq.mp h
      exact ⟨_, SortedMap.mem_mapValues.mpr ⟨u, hu, rfl⟩,
        wakeAt_eq_runnable.mpr (Or.inr ⟨d', hst, hle⟩)⟩

/-- Everything a pick can do. -/
inductive PickCase (s : ThreadSet Core) : ThreadSet Core → Option (Picked Core) → Prop where
  /-- Somebody is runnable, and the first of them is served. -/
  | served {picked : Picked Core} (h : s.Serving picked) :
      PickCase s { s with cursor := picked.thread + 1 } (some picked)
  /-- Nobody is runnable, and nobody will be. -/
  | deadlock (hr : ∀ id, ¬ s.Runnable id) (hs : ∀ id d, ¬ s.SleepsUntil id d) :
      PickCase s s none
  /-- Nobody is runnable until time has skipped to the earliest deadline. -/
  | woken {d : GlobalTime} {picked : Picked Core} (hr : ∀ id, ¬ s.Runnable id)
      (hd : s.earliest = some d) (h : (s.skipTo d).Serving picked) :
      PickCase s { s.skipTo d with cursor := picked.thread + 1 } (some picked)
  /-- Nobody is runnable even then. -/
  | overslept {d : GlobalTime} {s' : ThreadSet Core} (hr : ∀ id, ¬ s.Runnable id)
      (hd : s.earliest = some d) (h : ∀ id, ¬ (s.skipTo d).Runnable id) : PickCase s s' none

theorem pick_cases (s : ThreadSet Core) : PickCase s s.pick.1 s.pick.2 := by
  unfold pick pickLoop
  cases h : s.pickRunnable with
  | mk s₁ r₁ =>
    cases r₁ with
    | some picked =>
      obtain ⟨rfl, hserve⟩ := pickRunnable_some h
      exact .served hserve
    | none =>
      obtain ⟨rfl, hr⟩ := pickRunnable_none h
      dsimp only
      cases hd : s₁.earliest with
      | none => exact .deadlock hr (earliest_eq_none.mp hd)
      | some d =>
        dsimp only
        unfold pickLoop
        cases h' : (s₁.skipTo d).pickRunnable with
        | mk s₂ r₂ =>
          cases r₂ with
          | some picked =>
            obtain ⟨rfl, hserve⟩ := pickRunnable_some h'
            exact .woken hr hd hserve
          | none =>
            obtain ⟨rfl, hr'⟩ := pickRunnable_none h'
            dsimp only
            cases hd' : (s₁.skipTo d).earliest with
            | none => exact .overslept hr hd hr'
            | some d' => exact .overslept hr hd hr'

theorem runNext_thread (run : Picked Core → Run Core Exit) :
    (s.runNext run).2.map (·.thread) = s.pick.2.map (·.thread) := by
  unfold runNext
  cases h : s.pick with
  | mk s' r =>
    cases r with
    | none => rfl
    | some picked => rfl

/-- The clock of the set has executed `n` ticks. -/
structure Clocked (rate : Rational) (s : ThreadSet Core) (n : Nat) : Prop where
  rate_pos : 0 < rate.num
  within : Within rate n
  clock_eq : s.clock = standing rate n

variable {rate : Rational} {n : Nat}

theorem Clocked.now_eq (h : s.Clocked rate n) : s.clock.now = tickInstant rate n := by
  rw [h.clock_eq, now_standing]

theorem Clocked.ticks_eq (h : s.Clocked rate n) : s.clock.ticks = n := by
  rw [h.clock_eq, ticks_standing h.within.1]

theorem Clocked.of_clock {s' : ThreadSet Core} (h : s.Clocked rate n)
    (hc : s'.clock = s.clock) : s'.Clocked rate n :=
  { h with clock_eq := hc.trans h.clock_eq }

theorem Clocked.skipTo (h : s.Clocked rate n) (d : GlobalTime) :
    ∃ m, (s.skipTo d).Clocked rate m ∧ (d.val ≤ tickInstant rate n → m = n)
      ∧ (tickInstant rate n < d.val → tickInstant rate m ≤ d.val)
      ∧ ∀ u, n ≤ u → Within rate u → tickInstant rate u = d.val → m = u := by
  obtain ⟨hr, hw, hc⟩ := h
  obtain ⟨v, hv, hto⟩ := advanceTo_standing hr hw d.isLt
  have hclock : (s.skipTo d).clock = standing rate (if v < 2 ^ 64 then max n v else n) := by
    rw [← hto, ← hc]
    rfl
  have hvd := (hv v).mp (Nat.le_refl v)
  refine ⟨_, ⟨hr, ?_, hclock⟩, fun hle => ?_, fun hlt => ?_, fun u hnu hu he => ?_⟩
  · split
    · rename_i hv64
      rcases Nat.le_total n v with hnv | hvn
      · rw [Nat.max_eq_right hnv]
        exact ⟨hv64, Nat.lt_of_le_of_lt hvd d.isLt⟩
      · rw [Nat.max_eq_left hvn]
        exact hw
    · exact hw
  · have hvn : v ≤ n := (tickInstant_le_iff hr).mp (Nat.le_trans hvd hle)
    rw [Nat.max_eq_left hvn, ite_self]
  · have hnv : n ≤ v := (hv n).mpr (Nat.le_of_lt hlt)
    rw [Nat.max_eq_right hnv]
    split
    · exact hvd
    · exact Nat.le_of_lt hlt
  · -- the tick of that instant is the last one at or before it
    have huv : u ≤ v := (hv u).mpr (Nat.le_of_eq he)
    have hvu : v ≤ u := (tickInstant_le_iff hr).mp (by rw [he]; exact hvd)
    obtain rfl := Nat.le_antisymm huv hvu
    rw [if_pos hu.1, Nat.max_eq_right hnu]

theorem call_clock (c : Call Core) : (s.call c).clock = s.clock := by
  cases c <;> rfl

theorem calls_clock (cs : List (Call Core)) : (cs.foldl call s).clock = s.clock := by
  induction cs generalizing s with
  | nil => rfl
  | cons c cs ih => rw [List.foldl_cons, ih, call_clock]

theorem setStates_clock (es : List (ThreadId × ThreadState)) :
    (es.foldl (fun t e => t.setState e.1 e.2) s).clock = s.clock := by
  induction es generalizing s with
  | nil => rfl
  | cons e es ih =>
    rw [List.foldl_cons, ih]
    rfl

theorem load_clock (schedule : Schedule) : (s.load schedule).1.clock = s.clock := by
  unfold load
  split
  · exact setStates_clock _
  · rfl

theorem pickRunnable_clock : s.pickRunnable.1.clock = s.clock := by
  cases h : s.pickRunnable with
  | mk s' r =>
    cases r with
    | some picked => rw [(pickRunnable_some h).1]
    | none => rw [(pickRunnable_none h).1]

theorem pickLoop_clocked (rounds : Nat) (h : s.Clocked rate n) :
    ∃ m, (pickLoop rounds s).1.Clocked rate m := by
  induction rounds generalizing s n with
  | zero => exact ⟨n, h⟩
  | succ rounds ih =>
    have hclock := pickRunnable_clock (s := s)
    unfold pickLoop
    cases hp : s.pickRunnable with
    | mk s' r =>
      rw [hp] at hclock
      have h' := h.of_clock hclock
      cases r with
      | some picked => exact ⟨n, h'⟩
      | none =>
        dsimp only
        cases hd : s'.earliest with
        | none => exact ⟨n, h'⟩
        | some d =>
          obtain ⟨m, hm, _⟩ := h'.skipTo d
          exact ih hm

theorem runNext_clocked (run : Picked Core → Run Core Exit) (h : s.Clocked rate n) :
    ∃ m, (s.runNext run).1.Clocked rate m := by
  obtain ⟨m, hm⟩ := pickLoop_clocked 2 h
  change s.pick.1.Clocked rate m at hm
  unfold runNext
  cases hp : s.pick with
  | mk s' r =>
    rw [hp] at hm
    cases r with
    | none => exact ⟨m, hm⟩
    | some picked =>
      dsimp only
      rw [calls_clock, hm.clock_eq, advance_standing hm.rate_pos hm.within]
      refine ⟨_, hm.rate_pos, ?_, rfl⟩
      split
      · assumption
      · exact hm.within

end ThreadSet

theorem Reaches.clocked {Core Exit : Type} {rate : Rational} {s : ThreadSet Core}
    (h : Reaches Exit rate s) : ∃ n, s.Clocked rate n := by
  induction h with
  | new h =>
    rw [withRate_eq] at h
    split at h
    · cases h
    · rename_i hz
      obtain rfl := Except.ok.inj h
      have hpos : 0 < rate.num := Nat.pos_of_ne_zero fun he => hz (rate.isZero_iff.mpr he)
      refine ⟨0, hpos, ⟨by decide, ?_⟩, rfl⟩
      unfold tickInstant
      rw [Nat.zero_mul, Nat.zero_div]
      decide
  | call _ c ih =>
    obtain ⟨n, hn⟩ := ih
    exact ⟨n, hn.of_clock (ThreadSet.call_clock c)⟩
  | load _ schedule ih =>
    obtain ⟨n, hn⟩ := ih
    exact ⟨n, hn.of_clock (ThreadSet.load_clock schedule)⟩
  | runNext _ run ih =>
    obtain ⟨n, hn⟩ := ih
    exact ThreadSet.runNext_clocked run hn

end Usermode

end Rsemu
