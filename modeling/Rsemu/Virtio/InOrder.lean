import Rsemu.Virtio.Rings

/-!
# Every chain once, in order

A driver offers heads in the available ring, rings the doorbell, and is given each of them back
in the used ring. The engine's two positions are local to a pass and go into the queue at its
end; the indices in memory wrap at 2^16 and the rings at the queue's size; and the backend may
ring a doorbell from inside a pass. `Shown` says what the two rings hold, from the heads
offered and the chains completed so far, and `Books` what the trace does.
-/

namespace Rsemu.Virtio

open Rsemu.Codec (Bytes fromLe fromLe_leBytes fromLe_lt leBytes length_leBytes)
open Rsemu.Word (wrappingAdd wrappingSub wrappingSub_of_le)

variable {ω : Type}

/-! ## What a trace says of a queue -/

def handed (index : Nat) : List Event → List Nat
  | [] => []
  | .handing i head _ :: rest =>
    if i = index then handed index rest ++ [head] else handed index rest
  | _ :: rest => handed index rest

def completed (index : Nat) : List Event → List (Nat × Nat)
  | [] => []
  | .served i head written :: rest =>
    if i = index then completed index rest ++ [(head, written)] else completed index rest
  | _ :: rest => completed index rest

/-- How far the last pass over a queue looked. -/
inductive Reach where
  | nowhere
  | upTo (avail : Nat)
  | stuckAt (head : Nat)

def reach (index : Nat) : List Event → Reach
  | [] => .nowhere
  | .pass i _ avail :: rest => if i = index then .upTo avail else reach index rest
  | .stalled i head :: rest => if i = index then .stuckAt head else reach index rest
  | _ :: rest => reach index rest

/-- The doorbell has not been rung since the last pass began. -/
def Answered (index : Nat) : List Event → Prop
  | [] => True
  | .pass i _ _ :: rest => i = index ∨ Answered index rest
  | .wrote offset value _ :: rest => ¬ (offset = 0x050 ∧ value = index) ∧ Answered index rest
  | _ :: rest => Answered index rest

def layoutRegisters : List Nat := [0x038, 0x080, 0x084, 0x090, 0x094, 0x0a0, 0x0a4]

/-- **What leaves a queue alone**: no write gives it up or lays it out anew or stops the device,
no chain has a buffer in its rings, and no other queue has its used ring there. -/
def Event.Spares (index : Nat) (layout : Layout) : Event → Prop
  | .wrote offset value sel =>
    (offset = 0x070 → value &&& statusDriverOk ≠ 0) ∧
      (sel = index → offset ∉ layoutRegisters ∧ (offset = 0x044 → value.testBit 0 = true))
  | .pass i other _ => i ≠ index → ∀ x, other.InUsed x → ¬ layout.InRings x
  | .handing _ _ ds => ∀ d ∈ ds, d.isWrite = true → ∀ x, d.addr ≤ x → x < d.addr + d.len →
      ¬ layout.InRings x
  | _ => True

/-- A trace all of whose events leave a queue alone. -/
def Spared (index : Nat) (layout : Layout) : List Event → Prop
  | [] => True
  | e :: rest => e.Spares index layout ∧ Spared index layout rest

/-! ## Register writes -/

theorem liveQueue_withQueue {index : Nat} {s : State} {q : QueueState}
    {f : QueueState → QueueState} (hlive : s.liveQueue index = some q)
    (hf : s.queueSel = index → f q = q) : (s.withQueue f).liveQueue index = some q := by
  unfold State.liveQueue at hlive ⊢
  unfold State.withQueue
  split at hlive
  · cases hlive
  rename_i hstatus
  obtain ⟨hslot, hisLive⟩ := Option.filter_eq_some_iff.mp hlive
  rw [if_neg hstatus, List.getElem?_modify, hslot]
  refine Option.filter_eq_some_iff.mpr ⟨?_, hisLive⟩
  split
  · rename_i hsel
    exact congrArg some (hf hsel)
  · rfl

theorem acceptStatus_ok (features : Nat × Nat) {value : Nat}
    (h : value &&& statusDriverOk ≠ 0) : acceptStatus features value &&& statusDriverOk ≠ 0 := by
  have hbit : ∀ n : Nat, n &&& statusDriverOk ≠ 0 ↔ n.testBit 2 = true := by
    intro n
    rw [show statusDriverOk = 2 ^ 2 from rfl, Nat.and_two_pow]
    rcases n.testBit 2 with _ | _
    · simp
    · simp
  rw [hbit] at h ⊢
  unfold acceptStatus
  dsimp only
  split
  · rw [without, Nat.testBit_and, Nat.testBit_and, h]
    decide
  · rw [Nat.testBit_and, h]
    decide

theorem liveQueue_write {index offset value : Nat} {layout : Layout} {s : State} {q : QueueState}
    (h : (Event.wrote offset value s.queueSel).Spares index layout)
    (hlive : s.liveQueue index = some q) : (s.write offset value).1.liveQueue index = some q := by
  have hlayout : ∀ f : Layout → Layout, offset ∈ layoutRegisters →
      (s.withLayout f).liveQueue index = some q := fun f hmem =>
    liveQueue_withQueue hlive fun hsel => absurd hmem (h.2 hsel).1
  unfold State.write
  split
  case h_2 => split <;> exact hlive
  case h_6 =>
    refine liveQueue_withQueue hlive fun hsel => ?_
    rw [QueueState.setReady, if_pos ((h.2 hsel).2 rfl), ← State.live_ready hlive]
  case h_9 =>
    split
    · exact hlive
    · have hok := acceptStatus_ok s.driverFeatures (h.1 rfl)
      unfold State.liveQueue at hlive ⊢
      rw [if_neg hok]
      split at hlive
      · cases hlive
      · exact hlive
  all_goals first
    | exact hlive
    | exact hlayout _ (by decide)

variable {index : Nat} {layout : Layout}

/-- **What a step that spares a queue leaves of it.** -/
structure Held (index : Nat) (m m' : Machine ω) : Prop where
  live : ∀ q, m.regs.state.liveQueue index = some q → m'.regs.state.liveQueue index = some q
  handed : handed index m'.trace = handed index m.trace
  completed : completed index m'.trace = completed index m.trace
  reach : reach index m'.trace = reach index m.trace
  /-- A doorbell that is rung meanwhile is left for the engine. -/
  asked : Answered index m.trace ∨ m.regs.pending.testBit index = true →
    Answered index m'.trace ∨ m'.regs.pending.testBit index = true

theorem Held.refl (index : Nat) (m : Machine ω) : Held index m m :=
  ⟨fun _ h => h, rfl, rfl, rfl, fun h => h⟩

theorem Held.trans {m m' m'' : Machine ω} (h : Held index m m') (h' : Held index m' m'') :
    Held index m m'' :=
  ⟨fun q hq => h'.live q (h.live q hq), h'.handed.trans h.handed, h'.completed.trans h.completed,
    h'.reach.trans h.reach, fun hasked => h'.asked (h.asked hasked)⟩

theorem Busy.held {b : Backend ω} {m m' : Machine ω} (hindex : index < b.queues)
    (h : Busy b m m') (hspared : Spared index layout m'.trace) :
    Spared index layout m.trace ∧ Held index m m' := by
  induction h with
  | refl => exact ⟨hspared, .refl index m⟩
  | world w _ ih =>
    obtain ⟨hbefore, hheld⟩ := ih hspared
    exact ⟨hbefore, hheld.live, hheld.handed, hheld.completed, hheld.reach, hheld.asked⟩
  | @write m' offset value _ ih =>
    have htrace := writeBusy_trace (b := b) offset value m'
    rw [htrace] at hspared
    obtain ⟨hbefore, hheld⟩ := ih hspared.2
    refine ⟨hbefore, hheld.trans ?_⟩
    by_cases hbell : offset = 0x050
    · subst hbell
      have hbusy : m'.writeBusy b 0x050 value =
          if b.queues ≤ value then m'.note (.wrote 0x050 value m'.regs.state.queueSel)
          else (m'.note (.wrote 0x050 value m'.regs.state.queueSel)).record value := rfl
      rw [hbusy]
      by_cases hself : value = index
      · subst hself
        rw [if_neg (by omega)]
        exact ⟨fun _ hq => hq, rfl, rfl, rfl, fun _ => .inr (by simp [Machine.record,
          Machine.setPending])⟩
      · split
        · exact ⟨fun _ hq => hq, rfl, rfl, rfl, fun hasked =>
            hasked.imp_left fun h => ⟨fun hself' => hself hself'.2, h⟩⟩
        · refine ⟨fun _ hq => hq, rfl, rfl, rfl, fun hasked => ?_⟩
          rcases hasked with h | h
          · exact .inl ⟨fun hself' => hself hself'.2, h⟩
          · exact .inr (by simp [Machine.record, Machine.setPending, Machine.note, h])
    · have hreset : ¬ (offset = 0x070 ∧ value = 0) := by
        rintro ⟨hoffset, rfl⟩
        exact hspared.1.1 hoffset (Nat.zero_and _)
      obtain ⟨line, hwrite⟩ := writeRegister_quiet (b := b) id
        (fun index m => if b.queues ≤ index then m else m.record index) m' hbell hreset
      rw [Machine.writeBusy, hwrite]
      exact ⟨fun _ hq => liveQueue_write hspared.1 hq, rfl, rfl, rfl, fun hasked =>
        hasked.imp_left fun h => ⟨fun hself => hbell hself.1, h⟩⟩

/-! ## The books of a queue -/

/-- What is known of the heads that passes have looked at. -/
def Reached (offered : List Nat) (n : Nat) : Reach → Prop
  | .nowhere => n = 0
  | .upTo avail => n % 2 ^ 16 = avail
  | .stuckAt head => offered[n]? = some head

variable (dev : Device ω) (view : ω → Nat → UInt8) (index layout)

/-- **The books of a queue.** Chains are handed over and completed in the order their heads
were offered, each once, and memory shows it. -/
structure Books (offered : List Nat) (m : Machine ω) : Prop where
  shown : Shown layout offered (completed index m.trace) (view m.world)
  handed : handed index m.trace = (completed index m.trace).map Prod.fst
  order : (completed index m.trace).map Prod.fst = offered.take (completed index m.trace).length
  le : (completed index m.trace).length ≤ offered.length
  /-- No more is outstanding than the ring has slots. -/
  room : offered.length ≤ (completed index m.trace).length + layout.ringLen
  small : ∀ head ∈ offered, head < 2 ^ 16

/-- The queue is live, both its positions at `n`. -/
def LiveAt (n : Nat) (m : Machine ω) : Prop :=
  m.regs.state.liveQueue index = some ⟨layout, n % 2 ^ 16, n % 2 ^ 16⟩

/-- Nothing is left to serve, or the next chain cannot be walked. -/
def Caught (offered : List Nat) (m : Machine ω) : Prop :=
  (completed index m.trace).length = offered.length ∨
    ∃ head, reach index m.trace = .stuckAt head

/-- **Inside a pass over the queue** that began with `p` chains completed. -/
structure Draining (offered : List Nat) (p : Nat) (m : Machine ω) : Prop
    extends Books index layout view offered m where
  live : LiveAt index layout p m
  asked : Answered index m.trace ∨ m.regs.pending.testBit index = true

/-- **Between passes over the queue**: `due` if one is still to come in this round, `late` if
there may be heads no pass has looked at. -/
structure Serving (offered : List Nat) (due late : Prop) (m : Machine ω) : Prop
    extends Books index layout view offered m where
  live : LiveAt index layout (completed index m.trace).length m
  reached : Reached offered (completed index m.trace).length (reach index m.trace)
  asked : Answered index m.trace ∨ m.regs.pending.testBit index = true ∨ due
  caught : Caught index offered m ∨ late

/-- Inside the engine, and `P` holds if nothing has touched the queue. -/
def WhenSpared (P : Machine ω → Prop) (m : Machine ω) : Prop :=
  m.regs.engine = true ∧ (Spared index layout m.trace → P m)

section Engine

variable {dev view index layout} {offered : List Nat} {p : Nat} {m m' : Machine ω}

theorem Books.congr (h : Books index layout view offered m)
    (hview : ∀ x, layout.InRings x → view m'.world x = view m.world x)
    (hhanded : Virtio.handed index m'.trace = Virtio.handed index m.trace)
    (hcompleted : completed index m'.trace = completed index m.trace) :
    Books index layout view offered m' := by
  refine ⟨?_, ?_, ?_, ?_, ?_, h.small⟩
  · rw [hcompleted]
    exact h.shown.congr hview
  · rw [hhanded, hcompleted]
    exact h.handed
  · rw [hcompleted]
    exact h.order
  · rw [hcompleted]
    exact h.le
  · rw [hcompleted]
    exact h.room

theorem Books.next (h : Books index layout view offered m)
    (hmore : (completed index m.trace).length < offered.length) :
    ∃ head, offered[(completed index m.trace).length]? = some head ∧ head < 2 ^ 16 :=
  ⟨_, List.getElem?_eq_getElem hmore, h.small _ (List.getElem_mem hmore)⟩

theorem Books.complete {head written : Nat} (h : Books index layout view offered m)
    (happart : ∀ x, layout.InAvail x → ¬ layout.InUsed x)
    (hhead : offered[(completed index m.trace).length]? = some head) (hwritten : written < 2 ^ 32)
    (hview : ∀ x, layout.InRings x → view m'.world x =
      publishedBytes layout (completed index m.trace).length head written (view m.world) x)
    (hhanded : Virtio.handed index m'.trace = Virtio.handed index m.trace ++ [head])
    (hcompleted : completed index m'.trace = completed index m.trace ++ [(head, written)]) :
    Books index layout view offered m' := by
  have hlen : (completed index m'.trace).length = (completed index m.trace).length + 1 := by
    rw [hcompleted, List.length_append, List.length_singleton]
  obtain ⟨hlt, hget⟩ := List.getElem?_eq_some_iff.mp hhead
  have hsmall : head < 2 ^ 16 := hget ▸ h.small _ (List.getElem_mem hlt)
  refine ⟨?_, ?_, ?_, by omega, ?_, h.small⟩
  · rw [hcompleted]
    exact (h.shown.publish happart hsmall hwritten).congr hview
  · rw [hhanded, hcompleted, h.handed, List.map_append]
    rfl
  · rw [hlen, hcompleted, List.map_append, h.order, List.take_add_one, hhead]
    rfl
  · have := h.room
    omega

/-! ## A pass over the queue -/

theorem Draining.serve (hm : Mapped dev view layout) (hindex : index < dev.queues)
    (h : Draining index layout view offered p m) (hengine : m.regs.engine = true)
    {head written : Nat} {ds : List Descriptor} {m₁ : Machine ω}
    (hhead : offered[(completed index m.trace).length]? = some head)
    (hhandle : dev.handle index layout ds (m.note (.handing index head ds)) = (written, m₁))
    (hspared : Spared index layout m₁.trace) :
    ∃ m₂, publish dev.guest layout ((completed index m.trace).length % 2 ^ 16) head written
        (m₁.note (.served index head written)) =
        (.ok (((completed index m.trace).length + 1) % 2 ^ 16), m₂) ∧
      Draining index layout view offered p m₂ ∧
      (completed index m₂.trace).length = (completed index m.trace).length + 1 ∧
      reach index m₂.trace = reach index m.trace := by
  have hbusy := dev.handle_busy index layout ds (m.note (.handing index head ds)) hengine
  have hwritten := hm.written index layout ds (m.note (.handing index head ds))
  have hsame := hm.handle index layout ds (m.note (.handing index head ds)) hengine
  rw [hhandle] at hbusy hwritten hsame
  obtain ⟨hbefore, hheld⟩ := hbusy.held hindex hspared
  obtain ⟨w, hpublish, hview⟩ := hm.publish (m := m₁.note (.served index head written))
    (completed index m.trace).length head written
  have hdone : completed index m₁.trace = completed index m.trace := hheld.completed
  have hcompleted : completed index (m₁.note (.served index head written)).trace =
      completed index m.trace ++ [(head, written)] := by
    rw [← hdone]
    exact if_pos rfl
  have hhanded : handed index (m₁.note (.served index head written)).trace =
      handed index m.trace ++ [head] := hheld.handed.trans (if_pos rfl)
  refine ⟨_, hpublish, ⟨h.toBooks.complete hm.apart hhead hwritten (fun x hx => ?_) hhanded
    hcompleted, hheld.live _ h.live, hheld.asked h.asked⟩, ?_, hheld.reach⟩
  · rw [hview x hx]
    exact publishedBytes_congr (hsame hbefore.1 x hx)
  · rw [hcompleted, List.length_append, List.length_singleton]

theorem Draining.drain (hm : Mapped dev view layout) (hindex : index < dev.queues)
    (fuel last used : Nat) (didWork : Bool)
    (h : WhenSpared index layout (fun m => Draining index layout view offered p m ∧
      last = (completed index m.trace).length % 2 ^ 16 ∧
      used = (completed index m.trace).length % 2 ^ 16 ∧
      (completed index m.trace).length + fuel = offered.length ∧
      reach index m.trace = .upTo (offered.length % 2 ^ 16)) m) {r : Nat × Nat × Bool}
    (hdrain : dev.drain index layout (offered.length % 2 ^ 16) fuel last used didWork m = (r, m')) :
    WhenSpared index layout (fun m' => Draining index layout view offered p m' ∧
      r.1 = (completed index m'.trace).length % 2 ^ 16 ∧
      r.2.1 = (completed index m'.trace).length % 2 ^ 16 ∧
      Reached offered (completed index m'.trace).length (reach index m'.trace) ∧
      Caught index offered m') m' := by
  have hring : layout.ringLen < 2 ^ 16 := by
    unfold Layout.ringLen
    omega
  -- what there is to do when the pass has looked at everything
  have hend : ∀ {m : Machine ω}, Draining index layout view offered p m →
      (completed index m.trace).length = offered.length →
      reach index m.trace = .upTo (offered.length % 2 ^ 16) →
      Reached offered (completed index m.trace).length (reach index m.trace) ∧
        Caught index offered m := by
    intro m _ hall hreach
    refine ⟨?_, .inl hall⟩
    rw [hreach, hall]
    rfl
  induction fuel generalizing last used didWork m with
  | zero =>
    obtain ⟨rfl, rfl⟩ := Prod.mk.inj hdrain
    refine ⟨h.1, fun hspared => ?_⟩
    obtain ⟨hdr, hlast, hused, hall, hreach⟩ := h.2 hspared
    exact ⟨hdr, hlast, hused, hend hdr hall hreach⟩
  | succ fuel ih =>
    obtain ⟨hengine, h⟩ := h
    by_cases hlast : last = offered.length % 2 ^ 16
    · -- the positions meet only when nothing is left
      rw [Device.drain, if_pos hlast] at hdrain
      obtain ⟨rfl, rfl⟩ := Prod.mk.inj hdrain
      refine ⟨hengine, fun hspared => ?_⟩
      obtain ⟨hdr, hlast', -, hall, -⟩ := h hspared
      have := hdr.room
      omega
    have hnext : Spared index layout m.trace → ∃ head,
        offered[(completed index m.trace).length]? = some head ∧
        availHead (dev.guest.read m) layout last = .ok head := by
      intro hspared
      obtain ⟨hdr, hlast, -, hall, -⟩ := h hspared
      obtain ⟨head, hhead, -⟩ := hdr.next (by omega)
      exact ⟨head, hhead, hlast ▸ hm.availHead hdr.shown hhead⟩
    rcases hread : availHead (dev.guest.read m) layout last with e | head
    · rw [Device.drain, if_neg hlast, hread] at hdrain
      obtain ⟨rfl, rfl⟩ := Prod.mk.inj hdrain
      refine ⟨hengine, fun hspared => ?_⟩
      obtain ⟨head, -, hread'⟩ := hnext hspared
      cases hread.symm.trans hread'
    have hhead : Spared index layout m.trace →
        offered[(completed index m.trace).length]? = some head := by
      intro hspared
      obtain ⟨head', hhead', hread'⟩ := hnext hspared
      obtain rfl := Except.ok.inj (hread.symm.trans hread')
      exact hhead'
    rcases hchain : chain (dev.guest.read m) layout head with e | ds
    · -- a chain that cannot be walked ends the pass
      rw [Device.drain_stalled hlast hread hchain] at hdrain
      obtain ⟨rfl, rfl⟩ := Prod.mk.inj hdrain
      refine ⟨hengine, fun hspared => ?_⟩
      obtain ⟨hdr, hlast, hused, -, -⟩ := h hspared.2
      have hstuck : reach index (m.note (.stalled index head)).trace = .stuckAt head :=
        if_pos rfl
      refine ⟨⟨hdr.toBooks.congr (fun _ _ => rfl) rfl rfl, hdr.live, hdr.asked⟩, hlast, hused,
        ?_, .inr ⟨head, hstuck⟩⟩
      rw [hstuck]
      exact hhead hspared.2
    obtain ⟨written, m₁, hhandle⟩ : ∃ written m₁,
        dev.handle index layout ds (m.note (.handing index head ds)) = (written, m₁) :=
      ⟨_, _, rfl⟩
    have hbusy := dev.handle_busy index layout ds (m.note (.handing index head ds)) hengine
    have hpub := dev.publish_busy layout used head written
      (m := m₁.note (.served index head written))
    rw [hhandle] at hbusy
    have hpub := hpub (hbusy.engine.trans hengine)
    have hbefore : Spared index layout m₁.trace → Spared index layout m.trace :=
      fun hspared => (hbusy.held hindex hspared).1.2
    have hserve : Spared index layout m₁.trace → _ := fun hspared =>
      (h (hbefore hspared)).1.serve hm hindex hengine (hhead (hbefore hspared)) hhandle hspared
    rcases hpublish : publish dev.guest layout used head written
      (m₁.note (.served index head written)) with ⟨e | next, m₂⟩
    · rw [hpublish] at hpub
      rw [Device.drain_refused hlast hread hchain hhandle hpublish] at hdrain
      obtain ⟨rfl, rfl⟩ := Prod.mk.inj hdrain
      refine ⟨hpub.engine.trans (hbusy.engine.trans hengine), fun hspared => ?_⟩
      have hspared := (hpub.held hindex hspared).1.2
      obtain ⟨m₃, hok, -⟩ := hserve hspared
      rw [← (h (hbefore hspared)).2.2.1, hpublish] at hok
      cases congrArg Prod.fst hok
    · rw [hpublish] at hpub
      rw [Device.drain_published hlast hread hchain hhandle hpublish] at hdrain
      refine ih (m := m₂) _ _ _ ⟨hpub.engine.trans (hbusy.engine.trans hengine),
        fun hspared => ?_⟩ hdrain
      have hspared := (hpub.held hindex hspared).1.2
      obtain ⟨m₃, hok, hdr, hlen, hreach⟩ := hserve hspared
      obtain ⟨-, hlast, hused, hall, hup⟩ := h (hbefore hspared)
      rw [← hused, hpublish] at hok
      obtain ⟨hnext, rfl⟩ := Prod.mk.inj hok
      refine ⟨hdr, ?_, ?_, by omega, hreach.trans hup⟩
      · unfold wrappingAdd
        omega
      · rw [hlen]
        exact Except.ok.inj hnext

theorem Draining.settle (h : Draining index layout view offered p m) (didWork : Bool)
    (hreached : Reached offered (completed index m.trace).length (reach index m.trace))
    (hcaught : Caught index offered m) :
    Serving index layout view offered False False
      ((Device.settle index layout ((completed index m.trace).length % 2 ^ 16)
        ((completed index m.trace).length % 2 ^ 16) didWork m).2.note (.done index)) := by
  generalize hn : (completed index m.trace).length = n
  have hlive := h.live
  unfold LiveAt State.liveQueue at hlive
  split at hlive
  · exact absurd hlive (by simp)
  rename_i hstatus
  obtain ⟨hslot, hisLive⟩ := Option.filter_eq_some_iff.mp hlive
  obtain ⟨hlt, -⟩ := List.getElem?_eq_some_iff.mp hslot
  have hnew : (Option.filter (fun q : QueueState => q.layout.isLive)
      (m.regs.state.queues.set index ⟨layout, n % 2 ^ 16, n % 2 ^ 16⟩)[index]?) =
      some ⟨layout, n % 2 ^ 16, n % 2 ^ 16⟩ := by
    rw [List.getElem?_set_self hlt]
    exact Option.filter_eq_some_iff.mpr ⟨rfl, hisLive⟩
  unfold Device.settle
  rw [hslot]
  dsimp only
  rw [if_pos rfl]
  split
  all_goals
    refine ⟨h.toBooks.congr (fun _ _ => rfl) rfl rfl, ?_, hreached, h.asked.imp_right .inl,
      .inl hcaught⟩
    change LiveAt index layout (completed index m.trace).length _
    rw [hn]
    exact (if_neg hstatus).trans hnew

theorem settle_engine (last used : Nat) (didWork : Bool) :
    (Device.settle index layout last used didWork m).2.regs.engine = m.regs.engine := by
  unfold Device.settle
  split
  · rfl
  · split
    · split <;> rfl
    · split <;> rfl

theorem settle_spared {i : Nat} {other : Layout} {last used : Nat} {didWork : Bool} :
    Spared index layout (Device.settle i other last used didWork m).2.trace ↔
      Spared index layout m.trace := by
  unfold Device.settle
  split
  · exact Iff.rfl
  · dsimp only
    split
    · split
      · exact ⟨fun h => h.2.2, fun h => ⟨trivial, trivial, h⟩⟩
      · exact ⟨fun h => h.2, fun h => ⟨trivial, h⟩⟩
    · split
      · exact ⟨fun h => h.2, fun h => ⟨trivial, h⟩⟩
      · exact Iff.rfl

/-! ## A pass over any queue -/

/-- The queue's rings are as they were. -/
def SameRings (view : ω → Nat → UInt8) (layout : Layout) (m m' : Machine ω) : Prop :=
  ∀ x, layout.InRings x → view m'.world x = view m.world x

/-- What steps of a pass over queue `i` leave of this one, whose rings are elsewhere. -/
def Aside (view : ω → Nat → UInt8) (index : Nat) (layout : Layout) (i : Nat) (other : Layout)
    (m m' : Machine ω) : Prop :=
  Spared index layout m'.trace → Spared index layout m.trace ∧
    (i ≠ index → (∀ x, other.InUsed x → ¬ layout.InRings x) →
      Held index m m' ∧ SameRings view layout m m')

theorem Aside.refl (i : Nat) (other : Layout) (m : Machine ω) :
    Aside view index layout i other m m :=
  fun hspared => ⟨hspared, fun _ _ => ⟨.refl index m, fun _ _ => rfl⟩⟩

theorem Aside.trans {i : Nat} {other : Layout} {m'' : Machine ω}
    (h : Aside view index layout i other m m') (h' : Aside view index layout i other m' m'') :
    Aside view index layout i other m m'' := by
  intro hspared
  obtain ⟨hspared', hheld'⟩ := h' hspared
  obtain ⟨hspared, hheld⟩ := h hspared'
  refine ⟨hspared, fun hne happart => ?_⟩
  obtain ⟨h', hview'⟩ := hheld' hne happart
  obtain ⟨h, hview⟩ := hheld hne happart
  exact ⟨h.trans h', fun x hx => (hview' x hx).trans (hview x hx)⟩

theorem drain_held (hm : Mapped dev view layout) (hindex : index < dev.queues) {i : Nat}
    {other : Layout} {avail : Nat} (fuel last used : Nat) (didWork : Bool)
    (hengine : m.regs.engine = true) {r : Nat × Nat × Bool}
    (hdrain : dev.drain i other avail fuel last used didWork m = (r, m')) :
    m'.regs.engine = true ∧ Aside view index layout i other m m' := by
  have hstay : Aside view index layout i other m m := .refl i other m
  induction fuel generalizing last used didWork m with
  | zero =>
    obtain ⟨rfl, rfl⟩ := Prod.mk.inj hdrain
    exact ⟨hengine, hstay⟩
  | succ fuel ih =>
    by_cases hlast : last = avail
    · rw [Device.drain, if_pos hlast] at hdrain
      obtain ⟨rfl, rfl⟩ := Prod.mk.inj hdrain
      exact ⟨hengine, hstay⟩
    rcases hread : availHead (dev.guest.read m) other last with e | head
    · rw [Device.drain, if_neg hlast, hread] at hdrain
      obtain ⟨rfl, rfl⟩ := Prod.mk.inj hdrain
      exact ⟨hengine, hstay⟩
    rcases hchain : chain (dev.guest.read m) other head with e | ds
    · rw [Device.drain_stalled hlast hread hchain] at hdrain
      obtain ⟨rfl, rfl⟩ := Prod.mk.inj hdrain
      refine ⟨hengine, fun hspared => ⟨hspared.2, fun hne _ => ⟨?_, fun _ _ => rfl⟩⟩⟩
      exact ⟨fun _ hq => hq, rfl, rfl, if_neg hne, fun hasked => hasked⟩
    obtain ⟨written, m₁, hhandle⟩ : ∃ written m₁,
        dev.handle i other ds (m.note (.handing i head ds)) = (written, m₁) := ⟨_, _, rfl⟩
    obtain ⟨r₂, m₂, hpublish⟩ : ∃ r₂ m₂, publish dev.guest other used head written
        (m₁.note (.served i head written)) = (r₂, m₂) := ⟨_, _, rfl⟩
    have hbusy := dev.handle_busy i other ds (m.note (.handing i head ds)) hengine
    have hsame := hm.handle i other ds (m.note (.handing i head ds)) hengine
    rw [hhandle] at hbusy hsame
    have hpub := dev.publish_busy other used head written
      (m := m₁.note (.served i head written)) (hbusy.engine.trans hengine)
    rw [hpublish] at hpub
    have hengine₂ : m₂.regs.engine = true := hpub.engine.trans (hbusy.engine.trans hengine)
    -- one chain served
    have hstep : Aside view index layout i other m m₂ := by
      intro hspared
      obtain ⟨hserved, hheld₂⟩ := hpub.held hindex hspared
      obtain ⟨hhanding, hheld₁⟩ := hbusy.held hindex hserved.2
      refine ⟨hhanding.2, fun hne happart => ⟨?_, fun x hx => ?_⟩⟩
      · have hbegin : Held index m (m.note (.handing i head ds)) :=
          ⟨fun _ hq => hq, if_neg hne, rfl, rfl, fun hasked => hasked⟩
        have hmiddle : Held index m₁ (m₁.note (.served i head written)) :=
          ⟨fun _ hq => hq, rfl, if_neg hne, rfl, fun hasked => hasked⟩
        exact (hbegin.trans hheld₁).trans (hmiddle.trans hheld₂)
      · have hwrites := Device.publish_keeps (R := SameRings view layout) (g := dev.guest)
          other (fun _ _ _ => rfl)
          (fun _ _ _ h h' x hx => (h' x hx).trans (h x hx))
          (fun s a n value hin => hm.elsewhere s a n value fun x hlo hhi =>
            happart x (hin x hlo hhi)) used head written (m₁.note (.served i head written))
        rw [hpublish] at hwrites
        exact (hwrites x hx).trans (hsame hhanding.1 x hx)
    rcases r₂ with e | next
    · rw [Device.drain_refused hlast hread hchain hhandle hpublish] at hdrain
      obtain ⟨rfl, rfl⟩ := Prod.mk.inj hdrain
      exact ⟨hengine₂, hstep⟩
    · rw [Device.drain_published hlast hread hchain hhandle hpublish] at hdrain
      obtain ⟨hengine', hrest⟩ := ih _ _ _ hengine₂ hdrain (.refl i other m₂)
      exact ⟨hengine', hstep.trans hrest⟩

theorem settle_held {i : Nat} (other : Layout) (last used : Nat) (didWork : Bool)
    (hne : i ≠ index) :
    Held index m (Device.settle i other last used didWork m).2 ∧
      SameRings view layout m (Device.settle i other last used didWork m).2 := by
  unfold Device.settle
  split
  · exact ⟨.refl index m, fun _ _ => rfl⟩
  rename_i slot _
  dsimp only
  have hlive : ∀ q q', m.regs.state.liveQueue index = some q →
      ({ m.regs.state with queues := m.regs.state.queues.set i q' } : State).liveQueue index =
        some q := by
    intro q q' hq
    unfold State.liveQueue at hq ⊢
    dsimp only
    rw [List.getElem?_set_ne hne]
    exact hq
  by_cases hlayout : slot.layout = other
  · rw [if_pos hlayout]
    split
    all_goals
      exact ⟨⟨fun q hq => hlive q _ hq, rfl, rfl, rfl, fun hasked => hasked⟩, fun _ _ => rfl⟩
  · rw [if_neg hlayout]
    split
    all_goals exact ⟨⟨fun q hq => hq, rfl, rfl, rfl, fun hasked => hasked⟩, fun _ _ => rfl⟩

variable {late : Prop}

theorem Serving.held {due : Prop} (h : Serving index layout view offered due late m)
    (hheld : Held index m m') (hview : SameRings view layout m m') :
    Serving index layout view offered due late m' := by
  have hlive := hheld.live _ h.live
  refine ⟨h.toBooks.congr hview hheld.handed hheld.completed, ?_, ?_, ?_, ?_⟩
  · rw [LiveAt, hheld.completed]
    exact hlive
  · rw [hheld.completed, hheld.reach]
    exact h.reached
  · rcases h.asked with hasked | hasked | hdue
    · exact (hheld.asked (.inl hasked)).imp_right .inl
    · exact (hheld.asked (.inr hasked)).imp_right .inl
    · exact .inr (.inr hdue)
  · unfold Caught
    rw [hheld.completed, hheld.reach]
    exact h.caught

theorem Serving.runQueue (hm : Mapped dev view layout) (hindex : index < dev.queues) {due : Prop}
    (i : Nat) (h : WhenSpared index layout (Serving index layout view offered due late) m) :
    WhenSpared index layout (Serving index layout view offered (due ∧ i ≠ index)
      (late ∧ i ≠ index)) (dev.runQueue i m).2 := by
  obtain ⟨hengine, h⟩ := h
  -- a pass that does not begin is not over this queue
  have hnone : i ≠ index → Spared index layout m.trace →
      Serving index layout view offered (due ∧ i ≠ index) (late ∧ i ≠ index) m := by
    intro hne hspared
    have h := h hspared
    exact ⟨h.toBooks, h.live, h.reached, h.asked.imp_right fun h => h.imp_right fun h => ⟨h, hne⟩,
      h.caught.imp_right fun h => ⟨h, hne⟩⟩
  rcases hlive : m.regs.state.liveQueue i with _ | queue
  · rw [Device.runQueue, hlive]
    refine ⟨hengine, fun hspared => hnone (fun heq => ?_) hspared⟩
    subst heq
    exact absurd (hlive.symm.trans (h hspared).live) (by simp)
  rcases havail : availIdx (dev.guest.read m) queue.layout with e | avail
  · rw [Device.runQueue, hlive]
    dsimp only
    rw [havail]
    refine ⟨hengine, fun hspared => hnone (fun heq => ?_) hspared⟩
    subst heq
    have hread := hm.availIdx (h hspared).shown
    obtain rfl := Option.some.inj (hlive.symm.trans (h hspared).live)
    exact absurd (havail.symm.trans hread) (by simp)
  obtain ⟨last, used, didWork, m₁, hdrain⟩ : ∃ last used didWork m₁,
      dev.drain i queue.layout avail (wrappingSub 16 avail queue.lastAvail) queue.lastAvail
        queue.usedIdx false (m.note (.pass i queue.layout avail)) =
        ((last, used, didWork), m₁) := ⟨_, _, _, _, rfl⟩
  rw [Device.runQueue_eq hlive havail hdrain]
  obtain ⟨hengine₁, hback⟩ := drain_held (m := m.note (.pass i queue.layout avail)) hm hindex
    _ _ _ _ hengine hdrain
  refine ⟨(settle_engine last used didWork).trans hengine₁, fun hspared => ?_⟩
  have hspared₁ := settle_spared.mp hspared.2
  obtain ⟨⟨hpass, hspared₀⟩, hheld⟩ := hback hspared₁
  have h := h hspared₀
  by_cases hne : i = index
  · subst hne
    obtain rfl := Option.some.inj (hlive.symm.trans h.live)
    obtain rfl := Except.ok.inj (havail.symm.trans (hm.availIdx h.shown))
    have hroom := h.room
    have hle := h.le
    have hring : layout.ringLen < 2 ^ 16 := by
      unfold Layout.ringLen
      omega
    have hfuel : (completed i m.trace).length + wrappingSub 16 (offered.length % 2 ^ 16)
        ((completed i m.trace).length % 2 ^ 16) = offered.length := by
      unfold wrappingSub
      omega
    have hdrained := Draining.drain (m := m.note (.pass i layout (offered.length % 2 ^ 16)))
      (p := (completed i m.trace).length) hm hindex _ _ _ _ ⟨hengine, fun _ =>
        ⟨⟨h.toBooks.congr (fun _ _ => rfl) rfl rfl, h.live, .inl (.inl rfl)⟩, rfl, rfl, hfuel,
          if_pos rfl⟩⟩ hdrain
    obtain ⟨hdr, rfl, rfl, hreached, hcaught⟩ := hdrained.2 hspared₁
    have hsettled := hdr.settle didWork hreached hcaught
    exact ⟨hsettled.toBooks, hsettled.live, hsettled.reached,
      hsettled.asked.imp_right fun h => h.imp_right False.elim, .inl (hsettled.caught.resolve_right
        id)⟩
  · obtain ⟨hheld, hview⟩ := hheld hne (hpass hne)
    have hbegin : Held index m (m.note (.pass i queue.layout avail)) :=
      ⟨fun _ hq => hq, rfl, rfl, if_neg hne, fun hasked => hasked.imp_left .inr⟩
    obtain ⟨hend, hview'⟩ : Held index m₁ _ ∧ SameRings view layout m₁ _ :=
      settle_held queue.layout last used didWork hne
    have hserving := (hnone hne hspared₀).held ((hbegin.trans hheld).trans hend) fun x hx =>
      (hview' x hx).trans (hview x hx)
    exact hserving.held ⟨fun _ hq => hq, rfl, rfl, rfl, fun hasked => hasked⟩ fun _ _ => rfl

/-! ## Rounds of passes -/

theorem Serving.mono {due due' late' : Prop} (h : Serving index layout view offered due late m)
    (hdue : due → due') (hlate : late → late') : Serving index layout view offered due' late' m :=
  ⟨h.toBooks, h.live, h.reached, h.asked.imp_right (Or.imp_right hdue), h.caught.imp_right hlate⟩

theorem Serving.serveMask (hm : Mapped dev view layout) (hindex : index < dev.queues)
    {due late' : Prop} (mask : Nat) (l : List Nat) (worked : Bool)
    (h : WhenSpared index layout (Serving index layout view offered due late) m)
    (hdue : due → mask.testBit index = true ∧ index ∈ l)
    (hlate : late → (mask.testBit index = true ∧ index ∈ l) ∨ late') :
    WhenSpared index layout (Serving index layout view offered False late')
      (dev.serveMask mask l worked m).2 := by
  induction l generalizing due late worked m with
  | nil =>
    refine ⟨h.1, fun hspared => (h.2 hspared).mono (fun hd => ?_) fun hl => ?_⟩
    · exact absurd (hdue hd).2 List.not_mem_nil
    · exact (hlate hl).resolve_left fun hin => absurd hin.2 List.not_mem_nil
  | cons i l ih =>
    unfold Device.serveMask
    split
    · refine ih _ (Serving.runQueue hm hindex i h) (fun hd => ?_) fun hl => ?_
      · obtain ⟨hbit, hin⟩ := hdue hd.1
        exact ⟨hbit, (List.mem_cons.mp hin).resolve_left fun heq => hd.2 heq.symm⟩
      · refine (hlate hl.1).imp_left fun hin => ⟨hin.1, ?_⟩
        exact (List.mem_cons.mp hin.2).resolve_left fun heq => hl.2 heq.symm
    · rename_i hno
      -- the queue that is passed over is not the one that is due
      have htail : mask.testBit index = true ∧ index ∈ i :: l →
          mask.testBit index = true ∧ index ∈ l := by
        intro hin
        refine ⟨hin.1, (List.mem_cons.mp hin.2).resolve_left fun heq => ?_⟩
        exact hno (heq ▸ hin.1)
      exact ih _ h (fun hd => htail (hdue hd)) fun hl => (hlate hl).imp_left htail

/-- **The queue between the driver's writes**: nothing is outstanding but what was offered since
the last pass, or what that pass could not walk. -/
structure Rested (index : Nat) (layout : Layout) (view : ω → Nat → UInt8) (offered : List Nat)
    (m : Machine ω) : Prop extends Books index layout view offered m where
  live : LiveAt index layout (completed index m.trace).length m
  reached : Reached offered (completed index m.trace).length (reach index m.trace)
  answered : Answered index m.trace
  pending : m.regs.pending = 0

theorem Serving.rounds (hm : Mapped dev view layout) (hindex : index < dev.queues) {late' : Prop}
    {fuel : Nat} {worked worked' : Bool}
    (h : WhenSpared index layout (Serving index layout view offered False late) m)
    (hlate : late → m.regs.pending.testBit index = true ∨ late')
    (hrounds : dev.rounds fuel worked m = some (worked', m')) :
    m'.regs.engine = false ∧ (Spared index layout m'.trace →
      Rested index layout view offered m' ∧ (Caught index offered m' ∨ late')) := by
  induction fuel generalizing worked m late with
  | zero => exact absurd hrounds (by simp [Device.rounds])
  | succ fuel ih =>
    unfold Device.rounds at hrounds
    split at hrounds
    · rename_i hpending
      obtain ⟨-, rfl⟩ := Prod.mk.inj (Option.some.inj hrounds)
      refine ⟨rfl, fun hspared => ?_⟩
      have hserving := h.2 hspared
      have hno : ¬ m.regs.pending.testBit index = true := by
        rw [hpending, Nat.zero_testBit]
        simp
      refine ⟨⟨hserving.toBooks.congr (fun _ _ => rfl) rfl rfl, hserving.live,
        hserving.reached, ?_, hpending⟩, hserving.caught.imp_right fun hl => ?_⟩
      · exact hserving.asked.resolve_right fun hrest => hrest.elim hno id
      · exact (hlate hl).resolve_left hno
    · have hcleared : WhenSpared index layout (Serving index layout view offered
          (m.regs.pending.testBit index = true) late) (m.setPending 0) := by
        refine ⟨h.1, fun hspared => ?_⟩
        have hserving := h.2 hspared
        exact ⟨hserving.toBooks.congr (fun _ _ => rfl) rfl rfl, hserving.live,
          hserving.reached, hserving.asked.imp_right fun hrest =>
            .inr (hrest.resolve_right id), hserving.caught⟩
      have hmem : index ∈ List.range maxQueues :=
        List.mem_range.mpr (Nat.lt_of_lt_of_le hindex (Nat.min_le_right _ _))
      have hserved := Serving.serveMask hm hindex m.regs.pending (List.range maxQueues)
        worked hcleared (fun hbit => ⟨hbit, hmem⟩)
        (fun hl => (hlate hl).imp_left fun hbit => ⟨hbit, hmem⟩)
      rcases hserve : dev.serveMask m.regs.pending (List.range maxQueues) worked
        (m.setPending 0) with ⟨worked₁, m₁⟩
      rw [hserve] at hserved hrounds
      exact ih hserved (fun hl => .inr hl) hrounds

theorem Rested.write (hm : Mapped dev view layout) (hindex : index < dev.queues)
    {fuel offset value : Nat} (hengine : m.regs.engine = false)
    (h : Spared index layout m.trace → Rested index layout view offered m)
    (hwrite : dev.write fuel offset value m = some m') :
    m'.regs.engine = false ∧ (Spared index layout m'.trace →
      Rested index layout view offered m' ∧
      (offset = 0x050 ∧ value = index → Caught index offered m')) := by
  by_cases hbell : offset = 0x050
  · subst hbell
    obtain ⟨m₁, hm₁⟩ : ∃ m₁, m₁ = m.note (.wrote 0x050 value m.regs.state.queueSel) :=
      ⟨_, rfl⟩
    have hnotify : dev.notify fuel value m₁ = some m' := by
      rw [hm₁]
      exact hwrite
    have hengine₁ : m₁.regs.engine = false := by
      rw [hm₁]
      exact hengine
    unfold Device.notify at hnotify
    by_cases hqueues : dev.queues ≤ value
    · rw [if_pos hqueues] at hnotify
      obtain rfl := Option.some.inj hnotify
      rw [hm₁]
      refine ⟨hengine, fun hspared => ⟨?_, fun heq => absurd hqueues ?_⟩⟩
      · have h := h hspared.2
        refine ⟨h.toBooks.congr (fun _ _ => rfl) rfl rfl, h.live, h.reached, ?_, h.pending⟩
        exact ⟨fun heq => absurd (heq.2 ▸ hindex) (Nat.not_lt.mpr hqueues), h.answered⟩
      · rw [heq.2]
        exact Nat.not_le.mpr hindex
    · rw [if_neg hqueues] at hnotify
      have hrun : ¬ (m₁.record value).regs.engine = true := by
        intro hrun
        cases hengine₁.symm.trans hrun
      rw [if_neg hrun] at hnotify
      -- what the first round begins with
      have hstart : WhenSpared index layout (Serving index layout view offered False True)
          ((m₁.record value).setEngine true) := by
        refine ⟨rfl, fun hspared => ?_⟩
        rw [hm₁] at hspared ⊢
        have h := h hspared.2
        refine ⟨h.toBooks.congr (fun _ _ => rfl) rfl rfl, h.live, h.reached, ?_, .inr trivial⟩
        by_cases hself : value = index
        · subst hself
          exact .inr (.inl (by simp [Machine.record, Machine.setPending, Machine.setEngine]))
        · exact .inl ⟨fun heq => hself heq.2, h.answered⟩
      have hlate : True → ((m₁.record value).setEngine true).regs.pending.testBit index = true ∨
          value ≠ index := by
        intro _
        by_cases hself : value = index
        · subst hself
          exact .inl (by simp [Machine.record, Machine.setPending, Machine.setEngine])
        · exact .inr hself
      rcases hrounds : dev.rounds fuel false ((m₁.record value).setEngine true) with
        _ | ⟨worked, m₂⟩
      · rw [hrounds] at hnotify
        cases hnotify
      rw [hrounds] at hnotify
      obtain ⟨hengine₂, hrest⟩ := Serving.rounds hm hindex hstart hlate hrounds
      obtain rfl := Option.some.inj hnotify
      have hcaught : ∀ m : Machine ω, Caught index offered m ∨ value ≠ index →
          0x050 = 0x050 ∧ value = index → Caught index offered m := fun m hcaught heq =>
        hcaught.resolve_right fun hne => hne heq.2
      split
      · refine ⟨hengine₂, fun hspared => ?_⟩
        obtain ⟨h, hall⟩ := hrest hspared
        exact ⟨⟨h.toBooks.congr (fun _ _ => rfl) rfl rfl, h.live, h.reached, h.answered,
          h.pending⟩, hcaught m₂ hall⟩
      · refine ⟨hengine₂, fun hspared => ?_⟩
        obtain ⟨h, hall⟩ := hrest hspared
        exact ⟨h, hcaught m₂ hall⟩
  · by_cases hreset : offset = 0x070 ∧ value = 0
    · obtain ⟨rfl, rfl⟩ := hreset
      obtain rfl := Option.some.inj hwrite
      refine ⟨hengine, fun hspared => absurd ?_ (hspared.1.1 rfl)⟩
      exact Nat.zero_and _
    · obtain ⟨line, hquiet⟩ := writeRegister_quiet (b := dev.toBackend) some (dev.notify fuel) m
        hbell hreset
      obtain rfl := Option.some.inj (hquiet.symm.trans hwrite)
      refine ⟨hengine, fun hspared => ⟨?_, fun heq => absurd heq.1 hbell⟩⟩
      have h := h hspared.2
      refine ⟨h.toBooks.congr (fun _ _ => rfl) rfl rfl, liveQueue_write hspared.1 h.live,
        h.reached, ⟨fun heq => hbell heq.1, h.answered⟩, h.pending⟩

/-! ## Runs -/

/-- **Runs of a driver** that offers heads on a queue, from the queue's start: it appends heads
to the available ring, never more than the ring holds, and writes registers. Anything may
happen to the rest of the world when it does. -/
inductive Offering (dev : Device ω) (view : ω → Nat → UInt8) (index : Nat) (layout : Layout) :
    List Nat → Machine ω → Prop where
  | start {m : Machine ω} : m.trace = [] → m.regs.engine = false → m.regs.pending = 0 →
      m.regs.state.liveQueue index = some ⟨layout, 0, 0⟩ →
      fromLe (get (view m.world) (layout.avail + 2) 2) = 0 →
      fromLe (get (view m.world) (layout.used + 2) 2) = 0 →
      Offering dev view index layout [] m
  | offer {offered : List Nat} {m : Machine ω} (heads : List Nat) (w : ω) :
      Offering dev view index layout offered m → (∀ head ∈ heads, head < 2 ^ 16) →
      offered.length + heads.length ≤ (handed index m.trace).length + layout.size →
      (∀ x, layout.InRings x →
        view w x = offeredBytes layout offered.length heads (view m.world) x) →
      Offering dev view index layout (offered ++ heads) ⟨m.regs, w, m.trace⟩
  | write {offered : List Nat} {fuel offset value : Nat} {m m' : Machine ω} :
      Offering dev view index layout offered m → dev.write fuel offset value m = some m' →
      Offering dev view index layout offered m'

theorem Rested.offer (hm : Mapped dev view layout) {heads : List Nat} {w : ω}
    (h : Rested index layout view offered m) (hheads : ∀ head ∈ heads, head < 2 ^ 16)
    (hroom : offered.length + heads.length ≤ (handed index m.trace).length + layout.size)
    (hview : ∀ x, layout.InRings x →
      view w x = offeredBytes layout offered.length heads (view m.world) x) :
    Rested index layout view (offered ++ heads) ⟨m.regs, w, m.trace⟩ := by
  have hlen := hm.ringLen
  have hhanded : (handed index m.trace).length = (completed index m.trace).length := by
    rw [h.handed, List.length_map]
  have hle := h.le
  refine ⟨⟨?_, h.handed, ?_, ?_, ?_, ?_⟩, h.live, ?_, h.answered, h.pending⟩
  · exact (h.shown.offer hm.apart (by omega) hheads).congr hview
  · rw [h.order, List.take_append_of_le_length hle]
  · rw [List.length_append]
    exact Nat.le_add_right_of_le hle
  · rw [List.length_append]
    change _ ≤ (completed index m.trace).length + _
    omega
  · exact fun head hmem => (List.mem_append.mp hmem).elim (h.small head) (hheads head)
  · have hreached := h.reached
    rcases hreach : reach index m.trace with _ | avail | head
    · rw [hreach] at hreached
      exact hreached
    · rw [hreach] at hreached
      exact hreached
    · rw [hreach] at hreached
      obtain ⟨hlt, -⟩ := List.getElem?_eq_some_iff.mp hreached
      exact (List.getElem?_append_left hlt).trans hreached

theorem Offering.rested (hm : Mapped dev view layout) (hindex : index < dev.queues)
    (h : Offering dev view index layout offered m) :
    m.regs.engine = false ∧ (Spared index layout m.trace → Rested index layout view offered m) := by
  induction h with
  | @start m htrace hengine hpending hlive havail hused =>
    obtain ⟨regs, w, trace⟩ := m
    obtain rfl : trace = [] := htrace
    have hshown : Shown layout [] [] (view w) := by
      refine ⟨havail, fun k head _ hk => ?_, hused, fun k entry _ hk => ?_⟩
      · cases hk
      · cases hk
    refine ⟨hengine, fun _ => ⟨⟨hshown, rfl, rfl, Nat.le_refl 0, Nat.zero_le _, ?_⟩, hlive, rfl,
      trivial, hpending⟩⟩
    exact fun head hmem => absurd hmem List.not_mem_nil
  | offer heads w _ hheads hroom hview ih =>
    exact ⟨ih.1, fun hspared => (ih.2 hspared).offer hm hheads hroom hview⟩
  | write _ hwrite ih =>
    obtain ⟨hengine, hrest⟩ := Rested.write hm hindex ih.1 ih.2 hwrite
    exact ⟨hengine, fun hspared => (hrest hspared).1⟩

/-- **What the driver of a queue is promised**, when no write is being served. -/
structure InOrder (view : ω → Nat → UInt8) (index : Nat) (layout : Layout) (offered : List Nat)
    (m : Machine ω) : Prop where
  /-- The chains handed to the backend are the first of those offered, each once, in order. -/
  handed : handed index m.trace = offered.take (handed index m.trace).length
  /-- They are those up to the index that the last pass observed, or up to a chain that it could
  not walk. An index stands for a count modulo 2^16; `room` says for which. -/
  reached : Reached offered (Virtio.handed index m.trace).length (reach index m.trace)
  room : offered.length ≤ (Virtio.handed index m.trace).length + layout.size
  /-- Each of them was completed. -/
  completed : (completed index m.trace).map Prod.fst = Virtio.handed index m.trace
  /-- The device's index counts them. -/
  usedIdx : fromLe (get (view m.world) (layout.used + 2) 2) =
    (Virtio.handed index m.trace).length % 2 ^ 16
  /-- The used ring holds the last of them. -/
  entries : ∀ k entry, (Virtio.handed index m.trace).length ≤ k + layout.size →
    (Virtio.completed index m.trace)[k]? = some entry →
    fromLe (get (view m.world) (layout.used + 4 + k % layout.size * 8) 4) = entry.1 ∧
    fromLe (get (view m.world) (layout.used + 8 + k % layout.size * 8) 4) = entry.2
  /-- No doorbell is left unanswered, whoever rang it. -/
  answered : Answered index m.trace
  idle : m.regs.engine = false ∧ m.regs.pending = 0

/-- **Every chain once, in order**: in every run of a driver whose queue is left alone, and with
whatever rings its doorbell. When a doorbell write returns, everything offered has been handed
over, or a chain could not be walked. -/
theorem chains_in_order (hm : Mapped dev view layout) (hindex : index < dev.queues)
    (h : Offering dev view index layout offered m) (hspared : Spared index layout m.trace) :
    InOrder view index layout offered m ∧
    ∀ fuel m', dev.write fuel 0x050 index m = some m' → Spared index layout m'.trace →
      handed index m'.trace = offered ∨ ∃ head, reach index m'.trace = .stuckAt head := by
  obtain ⟨hengine, hrest⟩ := h.rested hm hindex
  have hlen := hm.ringLen
  refine ⟨?_, fun fuel m' hwrite hspared' => ?_⟩
  · have h := hrest hspared
    have hcount : (handed index m.trace).length = (completed index m.trace).length := by
      rw [h.handed, List.length_map]
    refine ⟨?_, ?_, ?_, h.handed.symm, ?_, fun k entry hk hentry => ?_, h.answered, hengine,
      h.pending⟩
    · rw [hcount, h.handed]
      exact h.order
    · rw [hcount]
      exact h.reached
    · rw [hcount, ← hlen]
      exact h.room
    · rw [hcount]
      exact h.shown.usedIdx
    · rw [← hlen] at hk ⊢
      exact h.shown.entries k entry (hcount ▸ hk) hentry
  · obtain ⟨-, hafter⟩ := Rested.write hm hindex hengine hrest hwrite
    obtain ⟨h, hcaught⟩ := hafter hspared'
    refine (hcaught ⟨rfl, rfl⟩).imp_left fun hall => ?_
    rw [h.handed, h.order, hall, List.take_length]

end Engine

/-! ## A backend that rings -/

/-- A backend that rings the doorbell for every chain. -/
def ringer : Device ((Nat → UInt8) × Unit) where
  toBackend := blkBackend _
  guest := board
  handle _ _ _ m := (0, m.writeBusy (blkBackend _) 0x050 0)
  read_lt := board_read_lt
  read_visible := board_read_visible
  write_busy := fun _ _ _ _ _ => boardWrite_busy
  handle_busy := fun _ _ _ m _ => Busy.write 0x050 0 (.refl m)

theorem ringer_mapped : Mapped ringer Prod.fst boardLayout := by
  have hlen : boardLayout.ringLen = 4 := by decide
  have hrings : ∀ x, boardLayout.InRings x → x < ramLen := by
    intro x hx
    rcases hx with ⟨-, hhi⟩ | ⟨-, hhi⟩
    · exact hhi.trans_le (by decide)
    · exact hhi.trans_le (by decide)
  have hfits : ∀ a n, 0 < n → (∀ x, a ≤ x → x < a + n → boardLayout.InRings x) →
      a + n ≤ ramLen := by
    intro a n hn hin
    have := hrings (a + (n - 1)) (hin _ (by omega) (by omega))
    omega
  refine ⟨⟨2, by decide, rfl⟩, by decide, by decide, fun x hx hx' => ?_, fun m a n hn hin => ?_,
    fun m a n value hn hin => ?_, fun m a n value hout x hx => ?_,
    fun i other ds m _ _ x _ => ?_, fun i other ds m => ?_⟩
  · obtain ⟨-, hhi⟩ := hx
    obtain ⟨hlo, -⟩ := hx'
    have havail : boardLayout.avail = 0x2000 := rfl
    have hused : boardLayout.used = 0x4000 := rfl
    omega
  · exact if_pos (hfits a n hn hin)
  · refine ⟨(put m.world.1 a (leBytes n value), m.world.2), ?_, fun _ _ => rfl⟩
    have hfit := hfits a n hn fun x hlo hhi => .inr (hin x hlo hhi)
    change boardWrite a (leBytes n value) m = _
    unfold boardWrite
    rw [if_neg (by rw [length_leBytes]; omega), if_pos (by rw [length_leBytes]; exact hfit)]
  · refine boardWrite_elsewhere fun hin => hout x hin.1 ?_ hx
    rw [length_leBytes] at hin
    exact hin.2
  · change (m.writeBusy (blkBackend _) 0x050 0).world.1 x = m.world.1 x
    rw [writeBusy_world]
  · exact Nat.two_pow_pos 32

def offeringState : State := ⟨0, 0, (0, 1), 0, [⟨boardLayout, 0, 0⟩], 15, 0, 0⟩

def offeringMachine (mem : Nat → UInt8) : Machine ((Nat → UInt8) × Unit) :=
  ⟨⟨offeringState, 0, false, false⟩, (mem, ()), []⟩

def offeredMachine (mem : Nat → UInt8) (heads : List Nat) : Machine ((Nat → UInt8) × Unit) :=
  ⟨(offeringMachine mem).regs, (offeredBytes boardLayout 0 heads mem, ()), []⟩

theorem offered_offering {mem : Nat → UInt8} {heads : List Nat}
    (havail : fromLe (get mem 0x2002 2) = 0) (hused : fromLe (get mem 0x4002 2) = 0)
    (hheads : ∀ head ∈ heads, head < 2 ^ 16) (hroom : heads.length ≤ 4) :
    Offering ringer Prod.fst 0 boardLayout heads (offeredMachine mem heads) := by
  have hlive : offeringState.liveQueue 0 = some ⟨boardLayout, 0, 0⟩ := by decide
  have hstart : Offering ringer Prod.fst 0 boardLayout [] (offeringMachine mem) :=
    .start rfl rfl rfl hlive havail hused
  refine Offering.offer heads (offeredBytes boardLayout 0 heads mem, ()) hstart hheads ?_
    fun _ _ => rfl
  change 0 + heads.length ≤ 0 + 4
  omega

/-- Two chains, each of which rings the doorbell from inside the pass that serves it. -/
theorem rung_inside_in_order : ∃ m,
    Offering ringer Prod.fst 0 boardLayout [0, 1] m ∧ handed 0 m.trace = [0, 1] ∧
      InOrder Prod.fst 0 boardLayout [0, 1] m := by
  obtain ⟨m, hm⟩ : ∃ m, ringer.write 5 0x050 0 (offeredMachine (fun _ => 0) [0, 1]) = some m :=
    Option.isSome_iff_exists.mp (by decide)
  have htrace : (ringer.write 5 0x050 0 (offeredMachine (fun _ => 0) [0, 1])).map
      Machine.trace = some [.done 0, .position 0, .pass 0 boardLayout 2,
        .done 0, .interrupt 0, .position 0, .served 0 1 0, .wrote 0x050 0 0,
        .handing 0 1 [⟨0, 0, 0, 0⟩], .served 0 0 0, .wrote 0x050 0 0,
        .handing 0 0 [⟨0, 0, 0, 0⟩], .pass 0 boardLayout 2, .wrote 0x050 0 0] := by
    decide
  rw [hm] at htrace
  have htrace := Option.some.inj htrace
  have hstart : Offering ringer Prod.fst 0 boardLayout [0, 1]
      (offeredMachine (fun _ => 0) [0, 1]) :=
    offered_offering (by decide) (by decide) (by decide) (by decide)
  have hspared : Spared 0 boardLayout m.trace := by
    rw [htrace]
    simp [Spared, Event.Spares, Descriptor.isWrite, Descriptor.has, layoutRegisters]
  refine ⟨m, hstart.write hm, ?_,
    (chains_in_order ringer_mapped (by decide) (hstart.write hm) hspared).1⟩
  rw [htrace]
  rfl

/-- A chain whose indirect table is not mapped: the pass observes it and hands over nothing. -/
theorem unmapped_table_stalls : ∃ m, Mapped ringer Prod.fst boardLayout ∧
    Offering ringer Prod.fst 0 boardLayout [0] m ∧ Spared 0 boardLayout m.trace ∧
    .pass 0 boardLayout 1 ∈ m.trace ∧ handed 0 m.trace = [] := by
  obtain ⟨mem, hmem⟩ : ∃ mem : Nat → UInt8, mem = put (fun _ => 0) 0x1000
      (descriptorBytes ⟨0x30000, 16, descFIndirect, 0⟩) := ⟨_, rfl⟩
  obtain ⟨m, hm⟩ : ∃ m, ringer.write 5 0x050 0 (offeredMachine mem [0]) = some m := by
    rw [hmem]
    exact Option.isSome_iff_exists.mp (by decide)
  have htrace : (ringer.write 5 0x050 0 (offeredMachine mem [0])).map Machine.trace =
      some [.done 0, .position 0, .stalled 0 0, .pass 0 boardLayout 1, .wrote 0x050 0 0] := by
    rw [hmem]
    decide
  rw [hm] at htrace
  have htrace := Option.some.inj htrace
  have hstart : Offering ringer Prod.fst 0 boardLayout [0] (offeredMachine mem [0]) := by
    rw [hmem]
    exact offered_offering (by decide) (by decide) (by decide) (by decide)
  refine ⟨m, ringer_mapped, hstart.write hm, ?_, ?_, ?_⟩
  · rw [htrace]
    simp [Spared, Event.Spares, layoutRegisters]
  · rw [htrace]
    simp
  · rw [htrace]
    rfl

end Rsemu.Virtio
