import Rsemu.Virtio.Board

/-!
# What a reset leaves

A driver gives a queue up by resetting the device or by writing zero to the queue's
`QueueReady`. It can do so from inside a pass over that queue, through a descriptor aimed at
the register block, and the pass goes on: it still publishes the chain it has, still serves
the ones that follow, still raises the interrupt.

Everything here is read off the trace. `Clean` says that no pass does anything for a queue
that has been given up since the pass began, and `Undisturbed` that none is given up while a
pass over it is in progress.
-/

namespace Rsemu.Virtio

variable {ω : Type}

/-- A write that gives a queue up. -/
def Event.GivesUp (index : Nat) : Event → Prop
  | .wrote offset value sel =>
    offset = 0x070 ∧ value = 0 ∨ offset = 0x044 ∧ value.testBit 0 = false ∧ sel = index
  | _ => False

/-- What a pass does for its queue: an entry of the used ring that it sets out to write for a
chain it has served, whether or not the space takes it; a position; an interrupt. -/
def Event.ActsFor (index : Nat) : Event → Prop
  | .served i _ _ => i = index
  | .position i => i = index
  | .interrupt i => i = index
  | _ => False

def current : List Event → Option Nat
  | [] => none
  | .pass index _ _ :: _ => some index
  | .done _ :: _ => none
  | _ :: rest => current rest

/-- A queue has been given up since the last pass began. -/
def GivenUp (index : Nat) : List Event → Prop
  | [] => False
  | .pass _ _ _ :: _ => False
  | e :: rest => e.GivesUp index ∨ GivenUp index rest

/-- **No pass does anything for a queue that is gone.** -/
def Clean : List Event → Prop
  | [] => True
  | e :: rest => (∀ index, e.ActsFor index → ¬ GivenUp index rest) ∧ Clean rest

/-- No queue is given up from inside a pass over it. -/
def Undisturbed : List Event → Prop
  | [] => True
  | e :: rest => (∀ index, current rest = some index → ¬ e.GivesUp index) ∧ Undisturbed rest

/-- The last register write was a reset. -/
def LastReset : List Event → Prop
  | [] => False
  | .wrote offset value _ :: _ => offset = 0x070 ∧ value = 0
  | _ :: rest => LastReset rest

variable {index : Nat} {m m' : Machine ω}

theorem not_givenUp {trace : List Event} (h : Undisturbed trace)
    (hcurrent : current trace = some index) : ¬ GivenUp index trace := by
  induction trace with
  | nil => exact fun hgone => hgone
  | cons e rest ih =>
    cases e with
    | pass i layout avail => exact fun hgone => hgone
    | done i => exact absurd hcurrent (by simp [current])
    | wrote offset value sel =>
      have hrest : current rest = some index := hcurrent
      rintro (hgone | hgone)
      · exact h.1 index hrest hgone
      · exact ih h.2 hrest hgone
    | handing i head ds =>
      exact fun hgone => ih h.2 hcurrent (hgone.resolve_left fun h => h)
    | served i head written =>
      exact fun hgone => ih h.2 hcurrent (hgone.resolve_left fun h => h)
    | stalled i head =>
      exact fun hgone => ih h.2 hcurrent (hgone.resolve_left fun h => h)
    | position i =>
      exact fun hgone => ih h.2 hcurrent (hgone.resolve_left fun h => h)
    | interrupt i =>
      exact fun hgone => ih h.2 hcurrent (hgone.resolve_left fun h => h)

/-- Until it is ready a queue stands at its start. -/
def QueueState.Fresh (q : QueueState) : Prop :=
  q.layout.ready = false → q.lastAvail = 0 ∧ q.usedIdx = 0

/-- There are `n` queues, each of them fresh. -/
def State.Fresh (n : Nat) (s : State) : Prop :=
  s.queues.length = n ∧ ∀ q ∈ s.queues, q.Fresh

theorem fresh_new (n : Nat) : (State.new n).Fresh n := by
  refine ⟨List.length_replicate, fun q hq => ?_⟩
  rw [List.eq_of_mem_replicate hq]
  exact fun _ => ⟨rfl, rfl⟩

theorem fresh_withQueue {n : Nat} {s : State} {f : QueueState → QueueState} (h : s.Fresh n)
    (hf : ∀ q, q.Fresh → (f q).Fresh) : (s.withQueue f).Fresh n := by
  refine ⟨by rw [State.withQueue, List.length_modify]; exact h.1, fun q hq => ?_⟩
  obtain ⟨i, hi, hq⟩ := List.mem_iff_getElem.mp hq
  have hlen : i < s.queues.length := by simpa [State.withQueue] using hi
  simp only [State.withQueue, List.getElem_modify] at hq
  split at hq
  · rw [← hq]
    exact hf _ (h.2 _ (List.getElem_mem hlen))
  · rw [← hq]
    exact h.2 _ (List.getElem_mem hlen)

theorem fresh_withLayout {n : Nat} {s : State} {f : Layout → Layout} (h : s.Fresh n)
    (hf : ∀ l, (f l).ready = l.ready) : (s.withLayout f).Fresh n :=
  fresh_withQueue h fun q hq hready => hq ((hf q.layout).symm.trans hready)

theorem fresh_write {n : Nat} {s : State} (offset value : Nat) (h : s.Fresh n) :
    (s.write offset value).1.Fresh n := by
  unfold State.write
  split
  case h_2 => split <;> exact h
  case h_6 =>
    refine fresh_withQueue h fun q hq => ?_
    unfold QueueState.setReady
    split
    · exact fun hready => absurd hready (by simp)
    · exact fun _ => ⟨rfl, rfl⟩
  case h_9 => split <;> exact h
  all_goals first
    | exact h
    | exact fresh_withLayout h fun l => rfl

/-- What holds of a machine at any time. -/
structure Kept (n : Nat) (m : Machine ω) : Prop where
  /-- Queues that are not ready are at the start of their rings. -/
  fresh : m.regs.state.Fresh n
  /-- No pass acts for a queue that is gone, unless one is given up from inside a pass. -/
  clean : Undisturbed m.trace → Clean m.trace

/-- A machine whose engine runs, with a pass in progress or not. -/
structure Running (n : Nat) (pass : Option Nat) (m : Machine ω) : Prop extends Kept n m where
  engine : m.regs.engine = true
  pass : current m.trace = pass
  /-- The doorbell write that started the engine came after any reset. -/
  later : Undisturbed m.trace → ¬ LastReset m.trace

/-- A machine between the driver's register writes. -/
structure Resting (n : Nat) (m : Machine ω) : Prop extends Kept n m where
  engine : m.regs.engine = false
  pass : current m.trace = none
  /-- After a reset nothing of what was before is left. -/
  reset : Undisturbed m.trace → LastReset m.trace →
    m.regs.state = State.new n ∧ m.regs.line = false ∧ m.regs.pending = 0

variable {n : Nat}

theorem writeBusy_fresh (b : Backend ω) (offset value : Nat) (h : m.regs.state.Fresh n) :
    (m.writeBusy b offset value).regs.state.Fresh n := by
  have hwrite := fresh_write offset value h
  unfold Machine.writeBusy Machine.writeRegister
  rcases hrun : m.regs.state.write offset value with ⟨state, _ | index | _ | level⟩
  · rw [hrun] at hwrite
    exact hwrite
  · rw [hrun] at hwrite
    dsimp only
    split
    · exact hwrite
    · exact hwrite
  · rw [hrun] at hwrite
    have hlen : state.queues.length = n := hwrite.1
    exact hlen ▸ fresh_new state.queues.length
  · rw [hrun] at hwrite
    exact hwrite

theorem Running.busy {b : Backend ω} (h : Running n (some index) m) (hbusy : Busy b m m') :
    Running n (some index) m' := by
  induction hbusy with
  | refl => exact h
  | world w _ ih => exact ⟨⟨ih.fresh, ih.clean⟩, ih.engine, ih.pass, ih.later⟩
  | @write m' offset value hbusy ih =>
    have htrace := writeBusy_trace (b := b) offset value m'
    refine ⟨⟨writeBusy_fresh b offset value ih.fresh, ?_⟩, ?_, ?_, ?_⟩
    · rw [htrace]
      exact fun hund => ⟨fun i hacts => absurd hacts id, ih.clean hund.2⟩
    · rw [writeBusy_engine]
      exact ih.engine
    · rw [htrace]
      exact ih.pass
    · rw [htrace]
      -- a reset would give up the queue that is being drained
      exact fun hund hreset => hund.1 index ih.pass (.inl hreset)

theorem Running.note (h : Running n (some index) m) {e : Event}
    (hacts : ∀ i, e.ActsFor i → i = index) (hpass : current (e :: m.trace) = current m.trace)
    (hlater : LastReset (e :: m.trace) ↔ LastReset m.trace) :
    Running n (some index) (m.note e) := by
  refine ⟨⟨h.fresh, fun hund => ⟨fun i hi hgone => ?_, h.clean hund.2⟩⟩, h.engine,
    hpass.trans h.pass, fun hund hreset => h.later hund.2 (hlater.mp hreset)⟩
  obtain rfl := hacts i hi
  exact not_givenUp hund.2 h.pass hgone

variable {dev : Device ω}

theorem Running.drain (layout : Layout) (avail fuel last used : Nat) (didWork : Bool)
    (h : Running n (some index) m) :
    Running n (some index) (dev.drain index layout avail fuel last used didWork m).2 := by
  induction fuel generalizing last used didWork m with
  | zero => exact h
  | succ fuel ih =>
    unfold Device.drain
    split
    · exact h
    split
    · exact h
    rename_i head _
    split
    · exact h.note (fun _ hi => absurd hi id) rfl Iff.rfl
    rename_i ds _
    have hhanding : Running n (some index) (m.note (.handing index head ds)) :=
      h.note (fun _ hi => absurd hi id) rfl Iff.rfl
    have hhandled := hhanding.busy (dev.handle_busy index layout ds _ hhanding.engine)
    obtain ⟨written, hwritten⟩ : ∃ written, written =
      (dev.handle index layout ds (m.note (.handing index head ds))).1 := ⟨_, rfl⟩
    have hserved := hhandled.note (e := .served index head written) (fun _ hi => hi.symm) rfl
      Iff.rfl
    have hpublish := hserved.busy
      (Device.publish_busy dev layout used head written hserved.engine)
    dsimp only
    rw [← hwritten]
    split
    · rename_i hrun
      rw [hrun] at hpublish
      exact hpublish
    · rename_i hrun
      rw [hrun] at hpublish
      exact ih _ _ _ hpublish

theorem Running.settle {layout : Layout} (last used : Nat) (didWork : Bool)
    (hready : layout.ready = true) (h : Running n (some index) m) :
    Running n (some index) (Device.settle index layout last used didWork m).2 := by
  unfold Device.settle
  rcases hslot : m.regs.state.queues[index]? with _ | slot
  · exact h
  obtain ⟨m₁, hm₁⟩ : ∃ m₁, m₁ = if slot.layout = layout then
      (m.note (.position index)).setState { m.regs.state with
        queues := m.regs.state.queues.set index ⟨slot.layout, last, used⟩ }
    else m := ⟨_, rfl⟩
  have h₁ : Running n (some index) m₁ := by
    rw [hm₁]
    split
    · rename_i hlayout
      have hnote := h.note (e := .position index) (fun _ hi => hi.symm) rfl Iff.rfl
      refine ⟨⟨⟨?_, fun q hq => ?_⟩, hnote.clean⟩, hnote.engine, hnote.pass, hnote.later⟩
      · exact (List.length_set ..).trans h.fresh.1
      · -- the queue that the position goes into is ready
        rcases List.mem_or_eq_of_mem_set hq with hq | rfl
        · exact h.fresh.2 q hq
        · exact fun hno => absurd (hready.symm.trans (hlayout ▸ hno)) (by simp)
    · exact h
  dsimp only
  rw [← hm₁]
  split
  · have hnote := h₁.note (e := .interrupt index) (fun _ hi => hi.symm) rfl Iff.rfl
    exact ⟨⟨hnote.fresh, hnote.clean⟩, hnote.engine, hnote.pass, hnote.later⟩
  · exact h₁

theorem Running.runQueue (h : Running n none m) : Running n none (dev.runQueue index m).2 := by
  rcases hlive : m.regs.state.liveQueue index with _ | queue
  · rw [Device.runQueue, hlive]
    exact h
  rcases havail : availIdx (dev.guest.read m) queue.layout with e | avail
  · rw [Device.runQueue, hlive]
    dsimp only
    rw [havail]
    exact h
  have hready := State.live_ready hlive
  have hbegin : Running n (some index) (m.note (.pass index queue.layout avail)) := by
    refine ⟨⟨h.fresh, fun hund => ⟨fun _ hacts => absurd hacts id, h.clean hund.2⟩⟩, h.engine,
      rfl, fun hund => h.later hund.2⟩
  obtain ⟨r, m', hdrain⟩ : ∃ r m', dev.drain index queue.layout avail
      (Word.wrappingSub 16 avail queue.lastAvail) queue.lastAvail queue.usedIdx false
      (m.note (.pass index queue.layout avail)) = (r, m') := ⟨_, _, rfl⟩
  have hdrained : Running n (some index) (dev.drain index queue.layout avail
      (Word.wrappingSub 16 avail queue.lastAvail) queue.lastAvail queue.usedIdx false
      (m.note (.pass index queue.layout avail))).2 := hbegin.drain _ _ _ _ _ _
  rw [hdrain] at hdrained
  rw [Device.runQueue_eq hlive havail hdrain]
  have hsettled := Running.settle r.1 r.2.1 r.2.2 hready hdrained
  exact ⟨⟨hsettled.fresh, fun hund => ⟨fun _ hacts => absurd hacts id, hsettled.clean hund.2⟩⟩,
    hsettled.engine, rfl, fun hund => hsettled.later hund.2⟩

theorem Running.serveMask (dev : Device ω) (mask : Nat) (l : List Nat) (worked : Bool)
    (h : Running n none m) : Running n none (dev.serveMask mask l worked m).2 := by
  induction l generalizing worked m with
  | nil => exact h
  | cons index l ih =>
    unfold Device.serveMask
    split
    · exact ih _ h.runQueue
    · exact ih _ h

theorem Running.rounds {fuel : Nat} {worked worked' : Bool} (h : Running n none m)
    (hrounds : dev.rounds fuel worked m = some (worked', m')) :
    ∃ m'', Running n none m'' ∧ m' = m''.setEngine false := by
  induction fuel generalizing worked m with
  | zero => exact absurd hrounds (by simp [Device.rounds])
  | succ fuel ih =>
    unfold Device.rounds at hrounds
    split at hrounds
    · have hrounds := Prod.mk.inj (Option.some.inj hrounds)
      exact ⟨m, h, hrounds.2.symm⟩
    · have hcleared : Running n none (m.setPending 0) :=
        ⟨⟨h.fresh, h.clean⟩, h.engine, h.pass, h.later⟩
      have hserved := hcleared.serveMask dev m.regs.pending (List.range maxQueues)
        worked
      rcases hserve : dev.serveMask m.regs.pending (List.range maxQueues) worked
        (m.setPending 0) with ⟨worked₁, m₁⟩
      exact ih hserved hrounds

theorem Resting.notify {fuel : Nat} (h : Kept n m) (hengine : m.regs.engine = false)
    (hpass : current m.trace = none) (hlater : ¬ LastReset m.trace)
    (hnotify : dev.notify fuel index m = some m') : Resting n m' := by
  unfold Device.notify at hnotify
  split at hnotify
  · obtain rfl := Option.some.inj hnotify
    exact ⟨h, hengine, hpass, fun _ hreset => absurd hreset hlater⟩
  dsimp only at hnotify
  split at hnotify
  · rename_i hrun
    cases hengine.symm.trans hrun
  · rcases hrounds : dev.rounds fuel false ((m.record index).setEngine true) with _ | ⟨worked, m₁⟩
    · rw [hrounds] at hnotify
      cases hnotify
    · rw [hrounds] at hnotify
      have hstart : Running n none ((m.record index).setEngine true) :=
        ⟨⟨h.fresh, h.clean⟩, rfl, hpass, fun _ => hlater⟩
      obtain ⟨m₂, h₂, rfl⟩ := hstart.rounds hrounds
      have hrest : Resting n (m₂.setEngine false) :=
        ⟨⟨h₂.fresh, h₂.clean⟩, rfl, h₂.pass, fun hund hreset => absurd hreset (h₂.later hund)⟩
      obtain rfl := Option.some.inj hnotify
      split
      · exact ⟨⟨hrest.fresh, hrest.clean⟩, hrest.engine, hrest.pass,
          fun hund hreset => absurd hreset (h₂.later hund)⟩
      · exact hrest

theorem Resting.write {fuel offset value : Nat} (h : Resting n m)
    (hwrite : dev.write fuel offset value m = some m') : Resting n m' := by
  have hfresh := fresh_write offset value h.fresh
  have hreset := write_reset_iff m.regs.state offset value
  unfold Device.write Machine.writeRegister at hwrite
  rcases hrun : m.regs.state.write offset value with ⟨state, after⟩
  rw [hrun] at hfresh hreset hwrite
  dsimp only at hwrite
  obtain ⟨m₁, hm₁⟩ : ∃ m₁, m₁ =
    (m.note (.wrote offset value m.regs.state.queueSel)).setState state := ⟨_, rfl⟩
  rw [← hm₁] at hwrite
  have hkept : Kept n m₁ := by
    rw [hm₁]
    exact ⟨hfresh, fun hund => ⟨fun _ hacts => absurd hacts id, h.clean hund.2⟩⟩
  have hengine : m₁.regs.engine = false := by rw [hm₁]; exact h.engine
  have hpass : current m₁.trace = none := by rw [hm₁]; exact h.pass
  have hlast : LastReset m₁.trace ↔ offset = 0x070 ∧ value = 0 := by rw [hm₁]; exact Iff.rfl
  cases after with
  | nothing =>
    obtain rfl := Option.some.inj hwrite
    refine ⟨hkept, hengine, hpass, fun _ hlater => ?_⟩
    exact absurd (hreset.mpr (hlast.mp hlater)) (by simp)
  | notify index =>
    refine Resting.notify hkept hengine hpass (fun hlater => ?_) hwrite
    exact absurd (hreset.mpr (hlast.mp hlater)) (by simp)
  | reset =>
    obtain rfl := Option.some.inj hwrite
    have hlen : m₁.regs.state.queues.length = n := hkept.fresh.1
    refine ⟨⟨?_, hkept.clean⟩, hengine, hpass, fun _ _ => ⟨?_, rfl, rfl⟩⟩
    · exact hlen ▸ fresh_new m₁.regs.state.queues.length
    · exact congrArg State.new hlen
  | interrupt level =>
    obtain rfl := Option.some.inj hwrite
    refine ⟨⟨hkept.fresh, hkept.clean⟩, hengine, hpass, fun _ hlater => ?_⟩
    exact absurd (hreset.mpr (hlast.mp hlater)) (by simp)

def Device.fresh (dev : Device ω) (w : ω) : Machine ω :=
  ⟨⟨State.new dev.queues, 0, false, false⟩, w, []⟩

/-- **Runs.** The driver writes registers, each write until it returns, and anything may
happen to the rest of the world in between. -/
inductive Run (dev : Device ω) : Machine ω → Prop where
  | start (w : ω) : Run dev (dev.fresh w)
  | world {m : Machine ω} (w : ω) : Run dev m → Run dev { m with world := w }
  | write {fuel offset value : Nat} {m m' : Machine ω} : Run dev m →
      dev.write fuel offset value m = some m' → Run dev m'

theorem Run.resting (h : Run dev m) : Resting dev.queues m := by
  induction h with
  | start w => exact ⟨⟨fresh_new _, fun _ => trivial⟩, rfl, rfl, fun _ hreset => absurd hreset id⟩
  | world w _ ih => exact ⟨⟨ih.fresh, ih.clean⟩, ih.engine, ih.pass, ih.reset⟩
  | write _ hwrite ih => exact ih.write hwrite

theorem rounds_pending {fuel : Nat} {worked worked' : Bool}
    (h : dev.rounds fuel worked m = some (worked', m')) : m'.regs.pending = 0 := by
  induction fuel generalizing worked m with
  | zero => exact absurd h (by simp [Device.rounds])
  | succ fuel ih =>
    unfold Device.rounds at h
    split at h
    · rename_i hpending
      obtain ⟨-, rfl⟩ := Prod.mk.inj (Option.some.inj h)
      exact hpending
    · exact ih h

theorem Run.pending (h : Run dev m) : m.regs.pending = 0 := by
  induction h with
  | start w => rfl
  | world w _ ih => exact ih
  | @write fuel offset value m m' hrun hwrite ih =>
    have hengine := hrun.resting.engine
    unfold Device.write Machine.writeRegister at hwrite
    rcases hstep : m.regs.state.write offset value with ⟨state, _ | index | _ | level⟩
    · rw [hstep] at hwrite
      obtain rfl := Option.some.inj hwrite
      exact ih
    · rw [hstep] at hwrite
      dsimp only at hwrite
      unfold Device.notify at hwrite
      split at hwrite
      · obtain rfl := Option.some.inj hwrite
        exact ih
      · dsimp only at hwrite
        split at hwrite
        · rename_i hrunning
          cases hengine.symm.trans hrunning
        · obtain ⟨⟨worked, m₁⟩, hrounds, hdone⟩ := Option.bind_eq_some_iff.mp hwrite
          have hpending := rounds_pending hrounds
          obtain rfl := Option.some.inj hdone
          split
          · exact hpending
          · exact hpending
    · rw [hstep] at hwrite
      obtain rfl := Option.some.inj hwrite
      rfl
    · rw [hstep] at hwrite
      obtain rfl := Option.some.inj hwrite
      exact ih

/-- What a reset promises, in a machine that no write is being served in. -/
structure ResetPromises (dev : Device ω) (m : Machine ω) : Prop where
  /-- After a reset that no write follows, every register is as it comes up. -/
  reset : LastReset m.trace → m.regs.state = State.new dev.queues ∧ m.regs.line = false
  /-- A queue that is not ready is at the start of its rings, whatever it is made ready with. -/
  positions : ∀ q ∈ m.regs.state.queues, q.layout.ready = false →
    q.lastAvail = 0 ∧ q.usedIdx = 0
  /-- No pass did anything for a queue that was gone. -/
  clean : Clean m.trace

/-- **When a reset is kept.** In every run in which no queue is given up from inside a pass over
it, what a reset promises holds after every write. -/
theorem reset_promises (dev : Device ω) {m : Machine ω} (h : Run dev m)
    (hund : Undisturbed m.trace) : ResetPromises dev m := by
  have hrest := h.resting
  refine ⟨fun hreset => ?_, hrest.fresh.2, hrest.clean hund⟩
  obtain ⟨hstate, hline, -⟩ := hrest.reset hund hreset
  exact ⟨hstate, hline⟩

def writes (dev : Device ω) (fuel : Nat) : List (Nat × Nat) → Machine ω → Option (Machine ω)
  | [], m => some m
  | (offset, value) :: rest, m => do writes dev fuel rest (← dev.write fuel offset value m)

theorem Run.writes (fuel : Nat) (l : List (Nat × Nat)) (h : Run dev m)
    (hwrites : Virtio.writes dev fuel l m = some m') : Run dev m' := by
  induction l generalizing m with
  | nil =>
    obtain rfl := Option.some.inj hwrites
    exact h
  | cons w l ih =>
    rcases hwrite : dev.write fuel w.1 w.2 m with _ | m₁
    · simp [Virtio.writes, hwrite] at hwrites
    · exact ih (.write h hwrite) (by simpa [Virtio.writes, hwrite] using hwrites)

def resetChain : List Descriptor :=
  [⟨0x3000, 16, descFNext, 1⟩, ⟨window + 0x070, 4, descFNext + descFWrite, 2⟩,
    ⟨0x3100, 1, descFWrite, 0⟩]

/-- A driver that sets up queue 0, with its rings at 4096, 8192 and 16384, and rings the
doorbell. -/
def setUp : List (Nat × Nat) :=
  [(0x070, 3), (0x024, 1), (0x020, 1), (0x070, 11), (0x030, 0), (0x038, 4), (0x080, 0x1000),
    (0x090, 0x2000), (0x0a0, 0x4000), (0x044, 1), (0x070, 15), (0x050, 0)]

def resetMachine : Machine ((Nat → UInt8) × (Nat → UInt8)) :=
  zeroDisk.fresh (put (put (fun _ => 0) 0x1000 (resetChain.flatMap descriptorBytes)) 0x2002 [1],
    fun _ => 0)

/-- A reset that arrives while the backend has a chain: the pass publishes the chain in the
ring of a queue that is gone, and the device is left with an interrupt raised. -/
theorem reset_in_handle_overwritten :
    ∃ m, Run zeroDisk m ∧ LastReset m.trace ∧ m.regs.state ≠ State.new zeroDisk.queues ∧
      m.regs.line = true ∧ m.world.1 0x4002 = 1 := by
  obtain ⟨m, hm⟩ : ∃ m, writes zeroDisk 5 setUp resetMachine = some m :=
    Option.isSome_iff_exists.mp (by decide +kernel)
  have hlook : (writes zeroDisk 5 setUp resetMachine).map (fun m => (m.trace.take 4,
      m.regs.state.interruptStatus, m.regs.line, m.world.1 0x4002)) =
      some ([.done 0, .interrupt 0, .served 0 0 5, .wrote 0x070 0 0], 1, true, 1) := by
    decide +kernel
  rw [hm] at hlook
  have hlook := Option.some.inj hlook
  obtain ⟨htrace, hint, hline, hused⟩ : m.trace.take 4 =
      [.done 0, .interrupt 0, .served 0 0 5, .wrote 0x070 0 0] ∧
      m.regs.state.interruptStatus = 1 ∧ m.regs.line = true ∧ m.world.1 0x4002 = 1 := by
    simpa using hlook
  refine ⟨m, Run.writes 5 setUp (.start _) hm, ?_, fun hnew => ?_, hline, hused⟩
  · rw [← List.take_append_drop 4 m.trace, htrace]
    exact ⟨rfl, rfl⟩
  · rw [hnew] at hint
    exact absurd hint (by decide)

/-- A driver that resets the device between two writes finds it as it comes up. -/
theorem reset_at_rest : ∃ m, writes zeroDisk 5 [(0x070, 15), (0x070, 0)] resetMachine = some m ∧
    ResetPromises zeroDisk m := by
  refine ⟨_, rfl, reset_promises zeroDisk (Run.writes 5 [(0x070, 15), (0x070, 0)] (.start _)
    rfl) ?_⟩
  change Undisturbed [.wrote 0x070 0 0, .wrote 0x070 15 0]
  simp [Undisturbed, current]

end Rsemu.Virtio
