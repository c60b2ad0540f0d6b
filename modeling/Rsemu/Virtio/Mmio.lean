import Mathlib.Data.Nat.Bitwise
import Rsemu.Base.Word
import Rsemu.Virtio.Queue

/-!
# The memory-mapped transport

The register block of one device, and the engine behind its doorbell. The block lies in the
address space the device masters, so while the backend serves a chain its writes can come back
as register writes: `Busy` is all that an access or the backend does to the registers then. A
doorbell that finds the engine running leaves a bit in `pending` and returns, and the engine
takes it up after the queues it is at.

The `trace` of a machine says what happened, latest first.
-/

namespace Rsemu.Virtio

open Rsemu.Word (wrappingAdd wrappingSub)

def statusAcknowledge : Nat := 1
def statusDriver : Nat := 2
def statusDriverOk : Nat := 4
def statusFeaturesOk : Nat := 8
def statusNeedsReset : Nat := 64
def statusFailed : Nat := 128

def intUsedBuffer : Nat := 1

def fVersion1 : Nat := 2 ^ 32

/-- A queue's layout and the device's positions in it. -/
structure QueueState where
  layout : Layout
  /-- How far into the available ring the device has consumed. -/
  lastAvail : Nat
  /-- The next index the device will write into the used ring. -/
  usedIdx : Nat
  deriving DecidableEq

def QueueState.default : QueueState := ⟨Layout.default, 0, 0⟩

/-- The registers a driver sets. -/
structure State where
  deviceFeaturesSel : Nat
  driverFeaturesSel : Nat
  /-- The two halves of the acknowledged feature set. -/
  driverFeatures : Nat × Nat
  queueSel : Nat
  queues : List QueueState
  status : Nat
  interruptStatus : Nat
  configGeneration : Nat

def State.new (queues : Nat) : State :=
  ⟨0, 0, (0, 0), 0, List.replicate queues QueueState.default, 0, 0, 0⟩

def without (a b : Nat) : Nat := a &&& (b ^^^ 0xffffffff)

def withLow (slot value : Nat) : Nat := slot &&& 0xffffffff00000000 ||| value

def withHigh (slot value : Nat) : Nat := slot &&& 0xffffffff ||| value <<< 32

def State.withQueue (s : State) (f : QueueState → QueueState) : State :=
  { s with queues := s.queues.modify s.queueSel f }

def State.withLayout (s : State) (f : Layout → Layout) : State :=
  s.withQueue fun q => { q with layout := f q.layout }

def queueNum (value : Nat) : Nat :=
  let size := min value queueSizeMax
  if size ≠ 0 ∧ size &&& (size - 1) = 0 then size else 0

def QueueState.setReady (q : QueueState) (value : Nat) : QueueState :=
  if value.testBit 0 then { q with layout := { q.layout with ready := true } }
  else ⟨{ q.layout with ready := false }, 0, 0⟩

/-- The status a write leaves: a driver that has not accepted version 1 does not get its
features. -/
def acceptStatus (features : Nat × Nat) (value : Nat) : Nat :=
  let accepted := features.1 ||| features.2 <<< 32
  let status := if value &&& statusFeaturesOk ≠ 0 ∧ accepted &&& fVersion1 = 0 then
    without value statusFeaturesOk else value
  status &&& (statusAcknowledge ||| statusDriver ||| statusDriverOk ||| statusFeaturesOk |||
    statusNeedsReset ||| statusFailed)

/-- What a register write does once the state is released again. -/
inductive After where
  | nothing
  | notify (index : Nat)
  | reset
  | interrupt (level : Bool)

/-- A register write, on the state. -/
def State.write (s : State) (offset value : Nat) : State × After :=
  match offset with
  | 0x014 => ({ s with deviceFeaturesSel := value }, .nothing)
  | 0x020 =>
    if s.driverFeaturesSel < 2 then
      ({ s with driverFeatures :=
          if s.driverFeaturesSel = 0 then (value, s.driverFeatures.2)
          else (s.driverFeatures.1, value) }, .nothing)
    else (s, .nothing)
  | 0x024 => ({ s with driverFeaturesSel := value }, .nothing)
  | 0x030 => ({ s with queueSel := value }, .nothing)
  | 0x038 => (s.withLayout fun l => { l with size := queueNum value }, .nothing)
  | 0x044 => (s.withQueue fun q => q.setReady value, .nothing)
  | 0x050 => (s, .notify value)
  | 0x064 =>
    let left := without s.interruptStatus value
    ({ s with interruptStatus := left }, .interrupt (left != 0))
  | 0x070 =>
    if value = 0 then (s, .reset)
    else ({ s with status := acceptStatus s.driverFeatures value }, .nothing)
  | 0x080 => (s.withLayout fun l => { l with desc := withLow l.desc value }, .nothing)
  | 0x084 => (s.withLayout fun l => { l with desc := withHigh l.desc value }, .nothing)
  | 0x090 => (s.withLayout fun l => { l with avail := withLow l.avail value }, .nothing)
  | 0x094 => (s.withLayout fun l => { l with avail := withHigh l.avail value }, .nothing)
  | 0x0a0 => (s.withLayout fun l => { l with used := withLow l.used value }, .nothing)
  | 0x0a4 => (s.withLayout fun l => { l with used := withHigh l.used value }, .nothing)
  | _ => (s, .nothing)

theorem write_reset_iff (s : State) (offset value : Nat) :
    (s.write offset value).2 = .reset ↔ offset = 0x070 ∧ value = 0 := by
  constructor
  · intro h
    unfold State.write at h
    split at h
    case h_2 => split at h <;> cases h
    case h_9 =>
      split at h
      · rename_i hvalue
        exact ⟨rfl, hvalue⟩
      · cases h
    all_goals cases h
  · rintro ⟨rfl, rfl⟩
    rfl

theorem write_notify {s : State} {offset value index : Nat}
    (h : (s.write offset value).2 = .notify index) : offset = 0x050 := by
  unfold State.write at h
  split at h
  case h_2 => split at h <;> cases h
  case h_7 => rfl
  case h_9 => split at h <;> cases h
  all_goals cases h

def State.liveQueue (s : State) (index : Nat) : Option QueueState :=
  if s.status &&& statusDriverOk = 0 then none
  else (s.queues[index]?).filter fun q => q.layout.isLive

theorem State.live_ready {index : Nat} {s : State} {q : QueueState}
    (hlive : s.liveQueue index = some q) : q.layout.ready = true := by
  unfold State.liveQueue at hlive
  split at hlive
  · cases hlive
  · have hlive := (Option.filter_eq_some_iff.mp hlive).2
    simp only [Layout.isLive, Bool.and_eq_true] at hlive
    exact hlive.1.1.1.1

theorem State.live_slot {index : Nat} {s : State} {q : QueueState}
    (hlive : s.liveQueue index = some q) : s.queues[index]? = some q := by
  unfold State.liveQueue at hlive
  split at hlive
  · cases hlive
  · exact (Option.filter_eq_some_iff.mp hlive).1

/-- The registers and the engine. -/
structure Registers where
  state : State
  /-- Queues with a notification outstanding, one bit each. -/
  pending : Nat
  /-- Whether a pass is in progress. -/
  engine : Bool
  /-- The interrupt output. -/
  line : Bool

def maxQueues : Nat := 64

/-- What happened. A register write comes with the queue that was selected, a pass with the
index it observed. -/
inductive Event where
  | wrote (offset value sel : Nat)
  | pass (index : Nat) (layout : Layout) (avail : Nat)
  | handing (index head : Nat) (ds : List Descriptor)
  | served (index head written : Nat)
  | stalled (index head : Nat)
  | position (index : Nat)
  | interrupt (index : Nat)
  | done (index : Nat)
  deriving DecidableEq

/-- A register block in a world `ω`: memory, and whatever the backend keeps. -/
structure Machine (ω : Type) where
  regs : Registers
  world : ω
  trace : List Event

variable {ω : Type}

namespace Machine

def note (e : Event) (m : Machine ω) : Machine ω := { m with trace := e :: m.trace }

def drive (level : Bool) (m : Machine ω) : Machine ω :=
  { m with regs := { m.regs with line := level } }

def setPending (mask : Nat) (m : Machine ω) : Machine ω :=
  { m with regs := { m.regs with pending := mask } }

def setEngine (running : Bool) (m : Machine ω) : Machine ω :=
  { m with regs := { m.regs with engine := running } }

def setState (s : State) (m : Machine ω) : Machine ω := { m with regs := { m.regs with state := s } }

end Machine

/-- What a backend is to the transport, but for the chains it serves. -/
structure Backend (ω : Type) where
  queueCount : Nat
  reset : ω → ω

variable (b : Backend ω)

def Backend.queues : Nat := min b.queueCount maxQueues

/-- Return every register to its power-on value and tell the backend. Whoever runs the
engine keeps it. -/
def Machine.reset (m : Machine ω) : Machine ω :=
  { m with
    regs := ⟨State.new m.regs.state.queues.length, 0, m.regs.engine, false⟩
    world := b.reset m.world }

def Machine.record (index : Nat) (m : Machine ω) : Machine ω :=
  m.setPending (m.regs.pending ||| 2 ^ index)

/-- A register write; what a notification does is `notify`. -/
def Machine.writeRegister {α : Type} (done : Machine ω → α) (notify : Nat → Machine ω → α)
    (offset value : Nat) (m : Machine ω) : α :=
  let (state, after) := m.regs.state.write offset value
  let m := (m.note (.wrote offset value m.regs.state.queueSel)).setState state
  match after with
  | .nothing => done m
  | .notify index => notify index m
  | .reset => done (m.reset b)
  | .interrupt level => done (m.drive level)

def Machine.writeBusy (offset value : Nat) (m : Machine ω) : Machine ω :=
  m.writeRegister b id
    (fun index m => if b.queues ≤ index then m else m.record index) offset value

theorem writeRegister_quiet {α : Type} {offset value : Nat} (done : Machine ω → α)
    (notify : Nat → Machine ω → α) (m : Machine ω) (hbell : offset ≠ 0x050)
    (hreset : ¬ (offset = 0x070 ∧ value = 0)) :
    ∃ line, m.writeRegister b done notify offset value =
      done ⟨⟨(m.regs.state.write offset value).1, m.regs.pending, m.regs.engine, line⟩, m.world,
        .wrote offset value m.regs.state.queueSel :: m.trace⟩ := by
  have hnotify := @write_notify m.regs.state offset value
  have hno := (write_reset_iff m.regs.state offset value).not.mpr hreset
  unfold Machine.writeRegister
  rcases hrun : m.regs.state.write offset value with ⟨state, _ | index | _ | level⟩
  · exact ⟨m.regs.line, rfl⟩
  · exact absurd (hnotify (congrArg Prod.snd hrun)) hbell
  · exact absurd (congrArg Prod.snd hrun) hno
  · exact ⟨level, rfl⟩

/-- **What can happen to the registers behind the engine's back**: register writes, with
anything in between happening to the rest of the world. -/
inductive Busy : Machine ω → Machine ω → Prop where
  | refl (m : Machine ω) : Busy m m
  | world {m m' : Machine ω} (w : ω) : Busy m m' → Busy m { m' with world := w }
  | write {m m' : Machine ω} (offset value : Nat) : Busy m m' →
      Busy m (m'.writeBusy b offset value)

section Busy

variable {b} {m m' : Machine ω}

theorem writeBusy_engine {offset value : Nat} :
    (m.writeBusy b offset value).regs.engine = m.regs.engine := by
  unfold Machine.writeBusy Machine.writeRegister
  rcases m.regs.state.write offset value with ⟨state, _ | index | _ | level⟩
  · rfl
  · dsimp only
    split
    · rfl
    · rfl
  · rfl
  · rfl

theorem writeBusy_trace (offset value : Nat) (m : Machine ω) :
    (m.writeBusy b offset value).trace = .wrote offset value m.regs.state.queueSel :: m.trace := by
  unfold Machine.writeBusy Machine.writeRegister
  rcases m.regs.state.write offset value with ⟨state, _ | index | _ | level⟩
  · rfl
  · dsimp only
    split
    · rfl
    · rfl
  · rfl
  · rfl

theorem Busy.engine (h : Busy b m m') : m'.regs.engine = m.regs.engine := by
  induction h with
  | refl => rfl
  | world w _ ih => exact ih
  | write offset value _ ih => rw [writeBusy_engine, ih]

theorem Busy.trans {m'' : Machine ω} (h : Busy b m m') (h' : Busy b m' m'') : Busy b m m'' := by
  induction h' with
  | refl => exact h
  | world w _ ih => exact .world w ih
  | write offset value _ ih => exact .write offset value ih

end Busy

/-- A device: a backend, the space it masters, and how it serves a chain. Through any of
these the registers change by register writes only, and what a read sees of them is their
state. -/
structure Device (ω : Type) extends Backend ω where
  guest : Guest (Machine ω)
  handle : Nat → Layout → List Descriptor → Machine ω → Nat × Machine ω
  read_lt : ∀ m addr n value, guest.read m addr n = some value → value < 256 ^ n
  read_visible : ∀ m m', m.world = m'.world → m.regs.state = m'.regs.state →
    guest.read m = guest.read m'
  write_busy : ∀ m addr n value, m.regs.engine = true →
    Busy toBackend m (guest.write addr n value m).2
  handle_busy : ∀ index layout ds m, m.regs.engine = true →
    Busy toBackend m (handle index layout ds m).2

namespace Device

variable (dev : Device ω)

/-- A pass over a queue from position `last` on: `fuel` chains at most, which is how many
there are up to `avail`. Where it got to, in both rings, and whether it completed any. -/
def drain (index : Nat) (layout : Layout) (avail : Nat) :
    Nat → Nat → Nat → Bool → Machine ω → (Nat × Nat × Bool) × Machine ω
  | 0, last, used, didWork, m => ((last, used, didWork), m)
  | fuel + 1, last, used, didWork, m =>
    if last = avail then ((last, used, didWork), m)
    else
      match availHead (dev.guest.read m) layout last with
      | .error _ => ((last, used, didWork), m)
      | .ok head =>
        match chain (dev.guest.read m) layout head with
        | .error _ => ((last, used, didWork), m.note (.stalled index head))
        | .ok ds =>
          let (written, m) := dev.handle index layout ds (m.note (.handing index head ds))
          match publish dev.guest layout used head written (m.note (.served index head written)) with
          | (.error _, m) => ((last, used, didWork), m)
          | (.ok next, m) => drain index layout avail fuel (wrappingAdd 16 last 1) next true m

theorem publish_keeps {σ : Type} {R : σ → σ → Prop} {g : Guest σ} (layout : Layout)
    (hrefl : ∀ s, R s s) (htrans : ∀ s s' s'', R s s' → R s' s'' → R s s'')
    (hwrite : ∀ s a n value, (∀ x, a ≤ x → x < a + n →
      layout.used ≤ x ∧ x < layout.used + 4 + layout.ringLen * 8) → R s (g.write a n value s).2)
    (usedIdx head written : Nat) (s : σ) : R s (publish g layout usedIdx head written s).2 := by
  have hstore : ∀ {α : Type} (s : σ) (a n value : Nat) (f : Unit → Dma σ α),
      (∀ x, a ≤ x → x < a + n → layout.used ≤ x ∧ x < layout.used + 4 + layout.ringLen * 8) →
      (∀ s', R s s' → R s (f () s').2) →
      R s ((Dma.store (g.write a n value) >>= f) s).2 := by
    intro α s a n value f hin hrest
    have h := hwrite s a n value hin
    rcases hok : g.write a n value s with ⟨_ | _, s'⟩
    · simpa [bind, Dma.store, hok] using h
    · rw [hok] at h
      have hgo : (Dma.store (g.write a n value) >>= f) s = f () s' := by
        simp [bind, Dma.store, hok]
      rw [hgo]
      exact hrest s' h
  have hsum : ∀ {α : Type} (s s' : σ) (r : Except Fault Nat) (f : Nat → Dma σ α),
      R s s' → (∀ a, r = .ok a → R s (f a s').2) → R s ((Dma.ofExcept r >>= f) s').2 := by
    intro α s s' r f h hrest
    rcases r with e | a
    · exact h
    · exact hrest a rfl
  have hslot : usedIdx % layout.ringLen < layout.ringLen := Nat.mod_lt _ (by
    unfold Layout.ringLen
    omega)
  refine hsum s s _ _ (hrefl s) fun a ha => ?_
  have ha : a = layout.used + 4 + usedIdx % layout.ringLen * 8 := by
    rcases hused : add64 layout.used 4 with e | a'
    · rw [hused] at ha
      exact absurd ha (by simp [bind, Except.bind])
    · rw [hused] at ha
      rw [add64_ok ha, add64_ok hused]
  refine hstore s _ _ _ _ (fun x hlo hhi => by omega) fun s₁ h₁ => ?_
  refine hsum s s₁ _ _ h₁ fun a4 ha4 => ?_
  have ha4 := add64_ok ha4
  refine htrans _ _ _ h₁ (hstore s₁ _ _ _ _ (fun x hlo hhi => by omega) fun s₂ h₂ => ?_)
  refine hsum s₁ s₂ _ _ h₂ fun a2 ha2 => ?_
  have ha2 := add64_ok ha2
  exact htrans _ _ _ h₂ (hstore s₂ _ _ _ _ (fun x hlo hhi => by omega) fun s₃ h₃ => h₃)

theorem publish_busy (layout : Layout) (usedIdx head written : Nat) {m : Machine ω}
    (hengine : m.regs.engine = true) :
    Busy dev.toBackend m (publish dev.guest layout usedIdx head written m).2 := by
  refine publish_keeps (R := fun m m' => m.regs.engine = true → Busy dev.toBackend m m') layout
    (fun m _ => .refl m) (fun m m' m'' h h' hrun => ?_)
    (fun m a n value _ hrun => dev.write_busy m a n value hrun) usedIdx head written m hengine
  exact (h hrun).trans (h' ((h hrun).engine.trans hrun))

section Drain

variable {dev} {index avail fuel last used head written : Nat} {layout : Layout}
  {ds : List Descriptor} {didWork : Bool} {m m' m'' : Machine ω}

theorem drain_unread {e : Fault} (hlast : last ≠ avail)
    (hhead : availHead (dev.guest.read m) layout last = .error e) :
    dev.drain index layout avail (fuel + 1) last used didWork m = ((last, used, didWork), m) := by
  simp only [drain, if_neg hlast, hhead]

theorem drain_stalled {e : Fault} (hlast : last ≠ avail)
    (hhead : availHead (dev.guest.read m) layout last = .ok head)
    (hchain : chain (dev.guest.read m) layout head = .error e) :
    dev.drain index layout avail (fuel + 1) last used didWork m =
      ((last, used, didWork), m.note (.stalled index head)) := by
  simp only [drain, if_neg hlast, hhead, hchain]

theorem drain_refused {e : Fault} (hlast : last ≠ avail)
    (hhead : availHead (dev.guest.read m) layout last = .ok head)
    (hchain : chain (dev.guest.read m) layout head = .ok ds)
    (hhandle : dev.handle index layout ds (m.note (.handing index head ds)) = (written, m'))
    (hpublish : publish dev.guest layout used head written
      (m'.note (.served index head written)) = (.error e, m'')) :
    dev.drain index layout avail (fuel + 1) last used didWork m = ((last, used, didWork), m'') := by
  simp only [drain, if_neg hlast, hhead, hchain, hhandle, hpublish]

theorem drain_published {next : Nat} (hlast : last ≠ avail)
    (hhead : availHead (dev.guest.read m) layout last = .ok head)
    (hchain : chain (dev.guest.read m) layout head = .ok ds)
    (hhandle : dev.handle index layout ds (m.note (.handing index head ds)) = (written, m'))
    (hpublish : publish dev.guest layout used head written
      (m'.note (.served index head written)) = (.ok next, m'')) :
    dev.drain index layout avail (fuel + 1) last used didWork m =
      dev.drain index layout avail fuel (wrappingAdd 16 last 1) next true m'' := by
  simp only [drain, if_neg hlast, hhead, hchain, hhandle, hpublish]

end Drain

/-- The end of a pass: the position goes back into a queue that is still laid out as the one
that was drained, and what was completed raises an interrupt. -/
def settle (index : Nat) (layout : Layout) (last used : Nat) (didWork : Bool) (m : Machine ω) :
    Bool × Machine ω :=
  match m.regs.state.queues[index]? with
  | none => (false, m)
  | some slot =>
    let m :=
      if slot.layout = layout then
        (m.note (.position index)).setState { m.regs.state with
          queues := m.regs.state.queues.set index ⟨slot.layout, last, used⟩ }
      else m
    let m :=
      if didWork then
        (m.note (.interrupt index)).setState { m.regs.state with
          interruptStatus := m.regs.state.interruptStatus ||| intUsedBuffer }
      else m
    (didWork, m)

/-- Drain a queue: whether anything was completed. -/
def runQueue (index : Nat) (m : Machine ω) : Bool × Machine ω :=
  match m.regs.state.liveQueue index with
  | none => (false, m)
  | some queue =>
    match availIdx (dev.guest.read m) queue.layout with
    | .error _ => (false, m)
    | .ok avail =>
      let ((last, used, didWork), m) := dev.drain index queue.layout avail
        (wrappingSub 16 avail queue.lastAvail) queue.lastAvail queue.usedIdx false
        (m.note (.pass index queue.layout avail))
      let (didWork, m) := settle index queue.layout last used didWork m
      (didWork, m.note (.done index))

theorem runQueue_eq {dev : Device ω} {index avail last used : Nat} {queue : QueueState}
    {didWork : Bool} {m m' : Machine ω} (hlive : m.regs.state.liveQueue index = some queue)
    (havail : availIdx (dev.guest.read m) queue.layout = .ok avail)
    (hdrain : dev.drain index queue.layout avail (wrappingSub 16 avail queue.lastAvail)
      queue.lastAvail queue.usedIdx false (m.note (.pass index queue.layout avail)) =
        ((last, used, didWork), m')) :
    dev.runQueue index m = ((settle index queue.layout last used didWork m').1,
      (settle index queue.layout last used didWork m').2.note (.done index)) := by
  simp only [runQueue, hlive, havail, hdrain]

def serveMask (mask : Nat) : List Nat → Bool → Machine ω → Bool × Machine ω
  | [], worked, m => (worked, m)
  | index :: rest, worked, m =>
    if mask.testBit index then
      let (didWork, m) := dev.runQueue index m
      serveMask mask rest (worked || didWork) m
    else serveMask mask rest worked m

/-- The loop of `notify`, at most `fuel` rounds of it: take up what is pending until nothing
is, and stand down. Nobody else runs in between, so the look back finds nothing. -/
def rounds : Nat → Bool → Machine ω → Option (Bool × Machine ω)
  | 0, _, _ => none
  | fuel + 1, worked, m =>
    if m.regs.pending = 0 then some (worked, m.setEngine false)
    else
      let (worked, m) := dev.serveMask m.regs.pending (List.range maxQueues) worked
        (m.setPending 0)
      rounds fuel worked m

/-- Run every chain the driver has made available on a queue, and on whatever else is asked
for while that is happening; none when `fuel` rounds do not do. -/
def notify (fuel index : Nat) (m : Machine ω) : Option (Machine ω) :=
  if dev.queues ≤ index then some m
  else
    let m := m.record index
    if m.regs.engine then some m
    else do
      let (worked, m) ← dev.rounds fuel false (m.setEngine true)
      return if worked then m.drive (m.regs.state.interruptStatus != 0) else m

def write (fuel offset value : Nat) (m : Machine ω) : Option (Machine ω) :=
  m.writeRegister dev.toBackend some (dev.notify fuel) offset value

end Device

end Rsemu.Virtio
