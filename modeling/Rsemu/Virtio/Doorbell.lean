import Rsemu.Virtio.Footprint
import Rsemu.Virtio.Reset

/-!
# When a doorbell write returns

A pass over a queue ends: it serves the chains up to the index it read, at most 65535. What
need not end is the loop of passes. Each one takes up the notifications the last one left,
and those come from the chains, which the driver wrote. `afterRounds` follows the loop for so
many rounds. A queue that is laid out apart from its own buffers (`LaidOut`) is served in two;
`bell_never_returns` is one that is not.
-/

namespace Rsemu.Virtio

open Rsemu.Codec (Bytes fromLe leBytes length_leBytes)
open Rsemu.Word (wrappingAdd wrappingSub)

variable {ω μ : Type}

namespace Device

variable (dev : Device ω)

/-- One round of passes, over what the notifications outstanding ask for. -/
def round (m : Machine ω) : Machine ω :=
  (dev.serveMask m.regs.pending (List.range maxQueues) false (m.setPending 0)).2

/-- The machine after so many rounds. -/
def afterRounds (n : Nat) (m : Machine ω) : Machine ω := dev.round^[n] m

variable {dev}

/-! ## Rounds -/

theorem serveMask_worked (mask : Nat) (l : List Nat) (worked worked' : Bool) (m : Machine ω) :
    (dev.serveMask mask l worked m).2 = (dev.serveMask mask l worked' m).2 := by
  induction l generalizing worked worked' m with
  | nil => rfl
  | cons index l ih =>
    unfold serveMask
    split
    · exact ih _ _ _
    · exact ih _ _ _

theorem serveMask_none {mask : Nat} {l : List Nat} {worked : Bool} {m : Machine ω}
    (h : ∀ index ∈ l, mask.testBit index = false) : dev.serveMask mask l worked m = (worked, m) := by
  induction l with
  | nil => rfl
  | cons index l ih =>
    rw [serveMask, h index List.mem_cons_self, if_neg (by simp)]
    exact ih fun i hi => h i (List.mem_cons_of_mem _ hi)

theorem serveMask_run {mask index : Nat} {l : List Nat} {worked didWork : Bool}
    {m m' : Machine ω} (hbit : mask.testBit index = true)
    (hrun : dev.runQueue index m = (didWork, m')) :
    dev.serveMask mask (index :: l) worked m = dev.serveMask mask l (worked || didWork) m' := by
  rw [serveMask, if_pos hbit, hrun]

theorem rounds_succ (worked : Bool) {m : Machine ω} (h : m.regs.pending ≠ 0) :
    ∃ worked', ∀ fuel, dev.rounds (fuel + 1) worked m = dev.rounds fuel worked' (dev.round m) := by
  refine ⟨(dev.serveMask m.regs.pending (List.range maxQueues) worked (m.setPending 0)).1,
    fun fuel => ?_⟩
  rw [rounds, if_neg h, round, serveMask_worked _ _ false worked]

theorem afterRounds_succ {n : Nat} {m : Machine ω} :
    dev.afterRounds (n + 1) m = dev.afterRounds n (dev.round m) :=
  Function.iterate_succ_apply _ _ _

theorem rounds_isSome (worked : Bool) (m : Machine ω) :
    (∃ fuel, (dev.rounds fuel worked m).isSome) ↔ ∃ n, (dev.afterRounds n m).regs.pending = 0 := by
  constructor
  · rintro ⟨fuel, h⟩
    induction fuel generalizing worked m with
    | zero => exact absurd h (by simp [rounds])
    | succ fuel ih =>
      by_cases hp : m.regs.pending = 0
      · exact ⟨0, hp⟩
      · obtain ⟨worked', hround⟩ := rounds_succ worked hp
        rw [hround] at h
        obtain ⟨n, hn⟩ := ih _ _ h
        exact ⟨n + 1, by rw [afterRounds_succ]; exact hn⟩
  · rintro ⟨n, h⟩
    induction n generalizing worked m with
    | zero =>
      have hp : m.regs.pending = 0 := h
      exact ⟨1, by rw [rounds, if_pos hp]; rfl⟩
    | succ n ih =>
      by_cases hp : m.regs.pending = 0
      · exact ⟨1, by rw [rounds, if_pos hp]; rfl⟩
      · obtain ⟨worked', hround⟩ := rounds_succ worked hp
        rw [afterRounds_succ] at h
        obtain ⟨fuel, hfuel⟩ := ih worked' _ h
        exact ⟨fuel + 1, by rw [hround]; exact hfuel⟩

theorem notify_isSome (dev : Device ω) (index : Nat) (m : Machine ω) :
    (∃ fuel, (dev.write fuel 0x050 index m).isSome) ↔
      dev.queues ≤ index ∨ m.regs.engine = true ∨
      ∃ n, (dev.afterRounds n (((m.note (.wrote 0x050 index m.regs.state.queueSel)).record
        index).setEngine true)).regs.pending = 0 := by
  have hwrite : ∀ fuel, dev.write fuel 0x050 index m =
      dev.notify fuel index (m.note (.wrote 0x050 index m.regs.state.queueSel)) := fun _ => rfl
  simp only [hwrite]
  unfold notify
  by_cases hindex : dev.queues ≤ index
  · simp [hindex]
  simp only [if_neg hindex, or_iff_right hindex]
  by_cases hengine : ((m.note (.wrote 0x050 index m.regs.state.queueSel)).record
      index).regs.engine = true
  · simp only [if_pos hengine]
    exact ⟨fun _ => .inl hengine, fun _ => ⟨0, rfl⟩⟩
  simp only [if_neg hengine]
  refine ((exists_congr fun fuel => ?_).trans (rounds_isSome false _)).trans
    (or_iff_right hengine).symm
  rcases dev.rounds fuel false _ with _ | r
  · exact Iff.rfl
  · exact Iff.rfl

/-! ## A queue laid out so that its doorbell is answered -/

section LaidOut

variable {ρ : Type}

/-- A store of `n` bytes at `a`, as a number or byte by byte. -/
inductive Store {σ : Type} (g : Guest σ) (a n : Nat) : (σ → Bool × σ) → Prop where
  | number (value : Nat) : Store g a n (g.write a n value)
  | bytes (bs : Bytes) (hlen : bs.length = n) : Store g a n (g.writeBytes a bs)

/-- **A block device and the space it masters.** Its doorbell is at the addresses `bell` and its
other registers are at `others`. Anywhere else is what `view` says, until it is stored to. -/
structure Hosts (dev : Device (ρ × μ)) (view : ρ → Nat → UInt8) (bell others : Nat → Prop) :
    Prop where
  handle : ∃ blk : VirtioBlk μ, ∀ index layout ds m,
    dev.handle index layout ds m = blk.handleOn dev.guest ds m
  queues : dev.queues = 1
  read : ∀ m m' a n, (∀ x, a ≤ x → x < a + n →
    ¬ bell x ∧ ¬ others x ∧ view m.world.1 x = view m'.world.1 x) →
    dev.guest.read m a n = dev.guest.read m' a n
  elsewhere : ∀ a n f, Store dev.guest a n f → ∀ m x, ¬ (a ≤ x ∧ x < a + n) →
    view (f m).2.world.1 x = view m.world.1 x
  /-- Only the doorbell rings. -/
  quiet : ∀ a n f, Store dev.guest a n f → (∀ x, a ≤ x → x < a + n → ¬ bell x) →
    ∀ m, m.regs.pending = 0 → (f m).2.regs.pending = 0
  /-- The doorbell does nothing else. -/
  still : ∀ a n f, Store dev.guest a n f → (∀ x, a ≤ x → x < a + n → ¬ others x) →
    ∀ m, (f m).2.regs = m.regs ∨ (f m).2.regs = (m.record 0).regs

/-- The chains that a pass over `fuel` heads from `last` on finds in a memory. -/
def Offers (mem : Reads) (layout : Layout) (last fuel : Nat) (ds : List Descriptor) : Prop :=
  ∃ k < fuel, ∃ head, availHead mem layout ((wrappingAdd 16 · 1)^[k] last) = .ok head ∧
    chain mem layout head = .ok ds

/-- The addresses that the pass may store to: the used ring, and the buffers of these chains. -/
def Aims (mem : Reads) (layout : Layout) (last fuel x : Nat) : Prop :=
  layout.InUsed x ∨ ∃ ds, Offers mem layout last fuel ds ∧
    ∃ d ∈ ds, d.isWrite = true ∧ d.addr ≤ x ∧ x < d.addr + d.len

/-- **What a driver lays out so that its doorbell is answered**, in the memory that it rings it
over. -/
structure LaidOut (dev : Device (ρ × μ)) (bell others : Nat → Prop) (mem : Reads)
    (q : QueueState) (avail : Nat) : Prop where
  /-- No chain is read from the device's own registers. -/
  memory : ∀ x, q.layout.Walked mem x → ¬ bell x ∧ ¬ others x
  /-- Nothing that the pass stores goes to where chains are read from. -/
  apart : ∀ x, Aims mem q.layout q.lastAvail (wrappingSub 16 avail q.lastAvail) x →
    ¬ q.layout.Walked mem x
  /-- Nothing is stored to the doorbell; or nothing is stored to any other register, and the
  used ring takes what is stored there. -/
  answered : (∀ x, Aims mem q.layout q.lastAvail (wrappingSub 16 avail q.lastAvail) x →
      ¬ bell x) ∨
    (∀ x, Aims mem q.layout q.lastAvail (wrappingSub 16 avail q.lastAvail) x → ¬ others x) ∧
      ∀ a n f, Store dev.guest a n f → (∀ x, a ≤ x → x < a + n → q.layout.InUsed x) →
        ∀ m, (f m).1 = true
  /-- No sum of addresses outgrows 64 bits: neither build of the device goes astray. -/
  sums : (∀ x, q.layout.Walked mem x ∨ q.layout.InUsed x → x < 2 ^ 64) ∧
    ∀ ds, Offers mem q.layout q.lastAvail (wrappingSub 16 avail q.lastAvail) ds →
      ∀ d ∈ ds, d.addr + d.len ≤ 2 ^ 64

/-- What the registers keep of themselves while nothing is stored at `V`. -/
structure Law (g : Guest (Machine (ρ × μ))) (V : Nat → Prop)
    (Q : Registers → Registers → Prop) : Prop where
  refl : ∀ r, Q r r
  trans : ∀ r r' r'', Q r r' → Q r' r'' → Q r r''
  store : ∀ a n f, Store g a n f → (∀ x, a ≤ x → x < a + n → ¬ V x) →
    ∀ m, Q m.regs (f m).2.regs

/-- The registers follow a law, and memory at `W` stays. -/
structure Calm (view : ρ → Nat → UInt8) (W : Nat → Prop) (Q : Registers → Registers → Prop)
    (m m' : Machine (ρ × μ)) : Prop where
  regs : Q m.regs m'.regs
  view : ∀ x, W x → view m'.world.1 x = view m.world.1 x

/-- A pass that begins here serves nothing. -/
def Stuck (mem : Reads) (layout : Layout) (avail last : Nat) : Prop :=
  wrappingSub 16 avail last = 0 ∨ (∃ e, availHead mem layout last = .error e) ∨
    ∃ head e, availHead mem layout last = .ok head ∧ chain mem layout head = .error e

variable {dev : Device (ρ × μ)} {view : ρ → Nat → UInt8} {bell others V W : Nat → Prop}
  {Q : Registers → Registers → Prop} {layout : Layout} {m m' m₀ : Machine (ρ × μ)}

theorem Calm.trans {m'' : Machine (ρ × μ)} (hlaw : Law dev.guest V Q) (h : Calm view W Q m m')
    (h' : Calm view W Q m' m'') : Calm view W Q m m'' :=
  ⟨hlaw.trans _ _ _ h.regs h'.regs, fun x hx => (h'.view x hx).trans (h.view x hx)⟩

section

variable (hs : Hosts dev view bell others)
include hs

theorem Calm.store (hlaw : Law dev.guest V Q) {a n : Nat}
    {f : Machine (ρ × μ) → Bool × Machine (ρ × μ)} (hf : Store dev.guest a n f)
    (h : ∀ x, a ≤ x → x < a + n → ¬ W x ∧ ¬ V x) (m : Machine (ρ × μ)) : Calm view W Q m (f m).2 :=
  ⟨hlaw.store a n f hf (fun x hlo hhi => (h x hlo hhi).2) m,
    fun x hx => hs.elsewhere a n f hf m x fun hin => (h x hin.1 hin.2).1 hx⟩

theorem Calm.handle (hlaw : Law dev.guest V Q) (index : Nat)
    (layout : Layout) {ds : List Descriptor} (h : ∀ d ∈ ds, d.isWrite = true → ∀ x, d.addr ≤ x →
      x < d.addr + d.len → ¬ W x ∧ ¬ V x) (m : Machine (ρ × μ)) :
    Calm view W Q m (dev.handle index layout ds m).2 := by
  obtain ⟨blk, hblk⟩ := hs.handle
  have hkeeps : VirtioBlk.Keeps dev.guest ds (Calm view W Q) := by
    refine ⟨fun m => ⟨hlaw.refl _, fun _ _ => rfl⟩, fun _ _ _ h h' => h.trans hlaw h',
      fun _ at_ bs hin => ?_⟩
    obtain ⟨d, hd, hwrite, hlo, hhi⟩ := hin
    exact .store hs hlaw (.bytes bs rfl)
      (fun x hx hx' => h d hd hwrite x (by omega) (by omega)) _
  have hcalm := VirtioBlk.handle_keeps blk hkeeps (m, m.world.2)
  rw [hblk]
  exact ⟨hcalm.regs, hcalm.view⟩

theorem Calm.publish (hlaw : Law dev.guest V Q)
    (h : ∀ x, layout.InUsed x → ¬ W x ∧ ¬ V x) (used head written : Nat)
    (m : Machine (ρ × μ)) :
    Calm view W Q m (Virtio.publish dev.guest layout used head written m).2 :=
  publish_keeps layout (fun _ => ⟨hlaw.refl _, fun _ _ => rfl⟩)
    (fun _ _ _ h h' => h.trans hlaw h')
    (fun _ _ _ value hin => .store hs hlaw (.number value) (fun x hlo hhi => h x (hin x hlo hhi)) _)
    used head written m

omit hs in
theorem publish_taken {g : Guest (Machine (ρ × μ))} (hfit : ∀ x, layout.InUsed x → x < 2 ^ 64)
    (h : ∀ a n f, Store g a n f → (∀ x, a ≤ x → x < a + n → layout.InUsed x) →
      ∀ m, (f m).1 = true) (used head written : Nat) (m : Machine (ρ × μ)) :
    ∃ next m', publish g layout used head written m = (.ok next, m') := by
  have hslot := Nat.mod_lt used (ringLen_pos layout)
  have hlast := hfit (layout.used + 4 + layout.ringLen * 8 - 1) ⟨by omega, by omega⟩
  have hat : (do add64 (← add64 layout.used 4) (used % layout.ringLen * 8)) =
      Except.ok (layout.used + 4 + used % layout.ringLen * 8) := by
    rw [add64_of_lt (by omega)]
    exact add64_of_lt (by omega)
  unfold publish
  rw [Dma.ofExcept_bind_ok hat,
    Dma.store_bind_ok (h _ _ _ (.number head) (fun x hlo hhi => ⟨by omega, by omega⟩) m),
    Dma.ofExcept_bind_ok (add64_of_lt (by omega)),
    Dma.store_bind_ok (h _ _ _ (.number written) (fun x hlo hhi => ⟨by omega, by omega⟩) _),
    Dma.ofExcept_bind_ok (add64_of_lt (by omega)),
    Dma.store_bind_ok (h _ _ _ (.number _) (fun x hlo hhi => ⟨by omega, by omega⟩) _)]
  exact ⟨_, _, rfl⟩

theorem Hosts.agree
    (hmemory : ∀ x, layout.Walked (dev.guest.read m₀) x → ¬ bell x ∧ ¬ others x)
    (hview : ∀ x, layout.Walked (dev.guest.read m₀) x → view m.world.1 x = view m₀.world.1 x) :
    Agree layout (dev.guest.read m₀) (dev.guest.read m) := fun a n h =>
  hs.read m m₀ a n fun x hlo hhi =>
    ⟨(hmemory x (h x hlo hhi)).1, (hmemory x (h x hlo hhi)).2, hview x (h x hlo hhi)⟩

theorem drain_calm (hlaw : Law dev.guest V Q)
    (hmemory : ∀ x, layout.Walked (dev.guest.read m₀) x → ¬ bell x ∧ ¬ others x)
    (index avail fuel last used : Nat) (didWork : Bool)
    (haims : ∀ x, Aims (dev.guest.read m₀) layout last fuel x →
      ¬ layout.Walked (dev.guest.read m₀) x ∧ ¬ V x)
    (hview : ∀ x, layout.Walked (dev.guest.read m₀) x → view m.world.1 x = view m₀.world.1 x) :
    ∃ r m', dev.drain index layout avail fuel last used didWork m = (r, m') ∧
      Q m.regs m'.regs ∧
      (∀ x, layout.Walked (dev.guest.read m₀) x → view m'.world.1 x = view m₀.world.1 x) ∧
      (fuel = wrappingSub 16 avail last → (∀ used head written m, ∃ next m',
          publish dev.guest layout used head written m = (.ok next, m')) →
        Stuck (dev.guest.read m₀) layout avail r.1) := by
  induction fuel generalizing last used didWork m with
  | zero => exact ⟨_, m, rfl, hlaw.refl _, hview, fun hfuel _ => .inl hfuel.symm⟩
  | succ fuel ih =>
    by_cases hlast : last = avail
    · refine ⟨_, m, if_pos hlast, hlaw.refl _, hview, fun _ _ => .inl ?_⟩
      rw [hlast]
      unfold wrappingSub
      omega
    have hagree := hs.agree hmemory hview
    rcases hread : availHead (dev.guest.read m₀) layout last with e | head
    · exact ⟨(last, used, didWork), m,
        drain_unread hlast ((availHead_congr hagree last).trans hread), hlaw.refl _, hview,
        fun _ _ => .inr (.inl ⟨e, hread⟩)⟩
    have hread' := (availHead_congr hagree last).trans hread
    rcases hchain : chain (dev.guest.read m₀) layout head with e | ds
    · exact ⟨_, _, drain_stalled hlast hread' ((chain_congr hagree head).trans hchain),
        hlaw.refl _, hview, fun _ _ => .inr (.inr ⟨head, e, hread, hchain⟩)⟩
    have hchain' := (chain_congr hagree head).trans hchain
    have hoffers : Offers (dev.guest.read m₀) layout last (fuel + 1) ds :=
      ⟨0, Nat.succ_pos fuel, head, hread, hchain⟩
    have hhandle : Calm view (layout.Walked (dev.guest.read m₀)) Q
        (m.note (.handing index head ds)) _ := .handle hs hlaw index layout
      (fun d hd hwrite x hlo hhi => haims x (.inr ⟨ds, hoffers, d, hd, hwrite, hlo, hhi⟩)) _
    rcases hhandled : dev.handle index layout ds (m.note (.handing index head ds)) with
      ⟨written, m₁⟩
    rw [hhandled] at hhandle
    have hpublish : Calm view (layout.Walked (dev.guest.read m₀)) Q _ _ := .publish hs hlaw
      (fun x hx => haims x (.inl hx)) used head written (m₁.note (.served index head written))
    have hregs := hlaw.trans _ _ _ hhandle.regs hpublish.regs
    have hkept : ∀ x, layout.Walked (dev.guest.read m₀) x → _ := fun x hx =>
      (hpublish.view x hx).trans ((hhandle.view x hx).trans (hview x hx))
    rcases hrun : publish dev.guest layout used head written
      (m₁.note (.served index head written)) with ⟨e | next, m₂⟩
    · rw [hrun] at hregs hkept
      refine ⟨_, m₂, drain_refused hlast hread' hchain' hhandled hrun, hregs, hkept,
        fun _ htaken => ?_⟩
      obtain ⟨next, m', hok⟩ := htaken used head written (m₁.note (.served index head written))
      rw [hrun] at hok
      cases hok
    · rw [hrun] at hregs hkept
      -- what is offered to the rest of the pass is offered to the whole of it
      have hrest : ∀ x, Aims (dev.guest.read m₀) layout (wrappingAdd 16 last 1) fuel x →
          Aims (dev.guest.read m₀) layout last (fuel + 1) x := fun x hx =>
        hx.imp_right fun ⟨ds', ⟨k, hk, hoffered⟩, hd⟩ =>
          ⟨ds', ⟨k + 1, Nat.succ_lt_succ hk, hoffered⟩, hd⟩
      obtain ⟨r, m', hdrain, hregs', hkept', hstuck⟩ :=
        @ih m₂ (wrappingAdd 16 last 1) next true (fun x hx => haims x (hrest x hx)) hkept
      refine ⟨r, m', (drain_published hlast hread' hchain' hhandled hrun).trans hdrain,
        hlaw.trans _ _ _ hregs hregs', hkept', fun hfuel => hstuck ?_⟩
      unfold wrappingSub wrappingAdd at *
      omega

end

theorem settle_world (index : Nat) (layout : Layout) (last used : Nat) (didWork : Bool)
    (m : Machine ω) : (settle index layout last used didWork m).2.world = m.world := by
  unfold settle
  split
  · rfl
  · split <;> split <;> rfl

theorem settle_pending (index : Nat) (layout : Layout) (last used : Nat) (didWork : Bool)
    (m : Machine ω) : (settle index layout last used didWork m).2.regs.pending = m.regs.pending := by
  unfold settle
  split
  · rfl
  · split <;> split <;> rfl

theorem settle_live {index : Nat} {q : QueueState}
    (hlive : m.regs.state.liveQueue index = some q) (last used : Nat) (didWork : Bool) :
    (settle index q.layout last used didWork m).2.regs.state.liveQueue index =
      some ⟨q.layout, last, used⟩ := by
  have hslot := State.live_slot hlive
  obtain ⟨hlt, -⟩ := List.getElem?_eq_some_iff.mp hslot
  unfold State.liveQueue at hlive
  have hstatus : ¬ m.regs.state.status &&& statusDriverOk = 0 := fun h => by
    rw [if_pos h] at hlive
    cases hlive
  rw [if_neg hstatus] at hlive
  have hisLive := (Option.filter_eq_some_iff.mp hlive).2
  have hset : (m.regs.state.queues.set index ⟨q.layout, last, used⟩)[index]? =
      some ⟨q.layout, last, used⟩ := List.getElem?_set_self hlt
  unfold settle
  rw [hslot]
  dsimp only
  rw [if_pos rfl]
  split
  all_goals
    unfold State.liveQueue
    exact (if_neg hstatus).trans (Option.filter_eq_some_iff.mpr ⟨hset, hisLive⟩)

theorem runQueue_stuck {index avail : Nat} {q : QueueState}
    (hlive : m.regs.state.liveQueue index = some q)
    (havail : availIdx (dev.guest.read m) q.layout = .ok avail)
    (hstuck : Stuck (dev.guest.read m) q.layout avail q.lastAvail) :
    (dev.runQueue index m).2.regs.pending = m.regs.pending := by
  obtain ⟨m', hdrain, hregs⟩ : ∃ m', dev.drain index q.layout avail
      (wrappingSub 16 avail q.lastAvail) q.lastAvail q.usedIdx false
      (m.note (.pass index q.layout avail)) = ((q.lastAvail, q.usedIdx, false), m') ∧
      m'.regs = m.regs := by
    have hread : dev.guest.read (m.note (.pass index q.layout avail)) = dev.guest.read m :=
      dev.read_visible _ _ rfl rfl
    rcases hfuel : wrappingSub 16 avail q.lastAvail with _ | fuel
    · exact ⟨_, rfl, rfl⟩
    by_cases hlast : q.lastAvail = avail
    · exact ⟨_, if_pos hlast, rfl⟩
    rcases hstuck with hzero | ⟨e, he⟩ | ⟨head, e, hhead, he⟩
    · rw [hzero] at hfuel
      cases hfuel
    · exact ⟨_, drain_unread hlast (by rw [hread, he]), rfl⟩
    · exact ⟨_, drain_stalled hlast (by rw [hread, hhead]) (by rw [hread, he]), rfl⟩
  rw [runQueue_eq hlive havail hdrain]
  exact (settle_pending index q.layout _ _ _ m').trans (congrArg Registers.pending hregs)

theorem round_first {m : Machine ω} {dev : Device ω} (h : m.regs.pending = 1) :
    dev.round m = (dev.runQueue 0 (m.setPending 0)).2 := by
  have hrange : List.range maxQueues = 0 :: (List.range 63).map (· + 1) := by decide
  have hrest : ∀ index ∈ (List.range 63).map (· + 1), (1 : Nat).testBit index = false := by decide
  unfold round
  rw [h, hrange]
  rcases hrun : dev.runQueue 0 (m.setPending 0) with ⟨didWork, m'⟩
  rw [serveMask_run (by decide) hrun, serveMask_none hrest]

theorem round_none {m : Machine ω} {dev : Device ω} (h : m.regs.pending = 0) :
    (dev.round m).regs.pending = 0 := by
  unfold round
  rw [h, serveMask_none fun index _ => Nat.zero_testBit index]
  rfl

theorem rounds_answered (hs : Hosts dev view bell others) (hpending : m.regs.pending = 1)
    (hlaid : ∀ q avail, m.regs.state.liveQueue 0 = some q →
      availIdx (dev.guest.read m) q.layout = .ok avail →
      LaidOut dev bell others (dev.guest.read m) q avail) :
    (dev.afterRounds 2 m).regs.pending = 0 := by
  obtain ⟨m₀, hm₀⟩ : ∃ m₀, m₀ = m.setPending 0 := ⟨_, rfl⟩
  have hzero : m₀.regs.pending = 0 := by rw [hm₀]; rfl
  have hstate : m₀.regs.state = m.regs.state := by rw [hm₀]; rfl
  have hread : dev.guest.read m₀ = dev.guest.read m := by
    rw [hm₀]
    exact dev.read_visible _ _ rfl rfl
  rw [← hstate, ← hread] at hlaid
  have hround : dev.afterRounds 2 m = dev.round (dev.runQueue 0 m₀).2 := by
    rw [afterRounds_succ, round_first hpending, ← hm₀]
    rfl
  rw [hround]
  -- one round is enough when it rings nothing
  have hdone : (dev.runQueue 0 m₀).2.regs.pending = 0 →
      (dev.round (dev.runQueue 0 m₀).2).regs.pending = 0 := round_none
  rcases hlive : m₀.regs.state.liveQueue 0 with _ | q
  · refine hdone ?_
    rw [runQueue, hlive]
    exact hzero
  rcases havail : availIdx (dev.guest.read m₀) q.layout with e | avail
  · refine hdone ?_
    rw [runQueue, hlive]
    dsimp only
    rw [havail]
    exact hzero
  have hl := hlaid q avail hlive havail
  rcases hl.answered with hbell | ⟨hothers, htaken⟩
  · have hlaw : Law dev.guest bell fun r r' => r.pending = 0 → r'.pending = 0 :=
      ⟨fun _ h => h, fun _ _ _ h h' hp => h' (h hp), hs.quiet⟩
    obtain ⟨r, m', hdrain, hregs, -, -⟩ := drain_calm (m := m₀.note (.pass 0 q.layout avail)) hs
      hlaw hl.memory 0 avail _ q.lastAvail q.usedIdx false
      (fun x hx => ⟨hl.apart x hx, hbell x hx⟩) fun _ _ => rfl
    refine hdone ?_
    rw [runQueue_eq hlive havail hdrain]
    exact (settle_pending 0 q.layout _ _ _ m').trans (hregs hzero)
  · have hlaw : Law dev.guest others fun r r' =>
        r'.state = r.state ∧ (r.pending ≤ 1 → r'.pending ≤ 1) := by
      refine ⟨fun _ => ⟨rfl, id⟩, fun _ _ _ h h' => ⟨h'.1.trans h.1, fun hp => h'.2 (h.2 hp)⟩,
        fun a n f hf hout m => ?_⟩
      rcases hs.still a n f hf hout m with hsame | hrung
      · rw [hsame]
        exact ⟨rfl, id⟩
      · rw [hrung]
        refine ⟨rfl, fun hp => ?_⟩
        show m.regs.pending ||| 2 ^ 0 ≤ 1
        rcases Nat.le_one_iff_eq_zero_or_eq_one.mp hp with hp | hp
        · rw [hp]
          decide
        · rw [hp]
          decide
    obtain ⟨⟨last, used, didWork⟩, m', hdrain, ⟨hstate', hle⟩, hview, hstuck⟩ :=
      drain_calm (m := m₀.note (.pass 0 q.layout avail)) hs hlaw hl.memory 0 avail _ q.lastAvail
        q.usedIdx false (fun x hx => ⟨hl.apart x hx, hothers x hx⟩) fun _ _ => rfl
    have hstuck := hstuck rfl (publish_taken (fun x hx => hl.sums.1 x (.inr hx)) htaken)
    rw [runQueue_eq hlive havail hdrain]
    obtain ⟨m₁, hm₁⟩ : ∃ m₁, m₁ =
        (settle 0 q.layout last used didWork m').2.note (.done 0) := ⟨_, rfl⟩
    rw [← hm₁]
    have hpending₁ : m₁.regs.pending ≤ 1 := by
      rw [hm₁]
      exact (settle_pending 0 q.layout last used didWork m').trans_le
        (hle (hzero.trans_le (Nat.zero_le 1)))
    rcases Nat.le_one_iff_eq_zero_or_eq_one.mp hpending₁ with hnone | hone
    · exact round_none hnone
    -- the pass that was rung for finds the queue where this one left it
    have hlive₁ : (m₁.setPending 0).regs.state.liveQueue 0 = some ⟨q.layout, last, used⟩ := by
      rw [hm₁]
      refine settle_live (q := q) ?_ last used didWork
      rw [hstate']
      exact hlive
    have hagree : Agree q.layout (dev.guest.read m₀) (dev.guest.read (m₁.setPending 0)) := by
      refine hs.agree hl.memory fun x hx => ?_
      rw [← hview x hx, hm₁]
      exact congrArg (view · x) (congrArg Prod.fst (settle_world 0 q.layout last used didWork m'))
    rw [round_first hone]
    refine runQueue_stuck hlive₁ ((availIdx_congr hagree).trans havail) ?_
    refine hstuck.imp_right (Or.imp ?_ ?_)
    · rintro ⟨e, he⟩
      exact ⟨e, (availHead_congr hagree last).trans he⟩
    · rintro ⟨head, e, hhead, he⟩
      exact ⟨head, e, (availHead_congr hagree last).trans hhead,
        (chain_congr hagree head).trans he⟩

end LaidOut

end Device

/-! ## On the board -/

/-- The addresses of `QueueNotify`. -/
def onBell (x : Nat) : Prop := window + 0x050 ≤ x ∧ x < window + 0x054

/-- The addresses of the other registers. -/
def onOthers (x : Nat) : Prop := window ≤ x ∧ x < window + 0x100 ∧ ¬ onBell x

theorem board_store {a n : Nat} {f : Machine ((Nat → UInt8) × μ) → Bool × Machine _}
    (hf : Device.Store board a n f) : ∃ bs : Bytes, bs.length = n ∧ f = boardWrite a bs := by
  cases hf with
  | number value => exact ⟨leBytes n value, length_leBytes n value, rfl⟩
  | bytes bs hlen => exact ⟨bs, hlen, rfl⟩

theorem VirtioBlk.hosts_board (blk : VirtioBlk μ) :
    Device.Hosts blk.onBoard (fun mem => mem) onBell onOthers := by
  refine ⟨⟨blk, fun _ _ _ _ => rfl⟩, rfl, fun m m' a n h => ?_, fun a n f hf m x hx => ?_,
    fun a n f hf hout m hpending => ?_, fun a n f hf hout m => ?_⟩
  · show (if a + n ≤ ramLen then some (fromLe (get m.world.1 a n)) else none) =
      if a + n ≤ ramLen then some (fromLe (get m'.world.1 a n)) else none
    rw [get_congr fun x hlo hhi => (h x hlo hhi).2.2]
  · obtain ⟨bs, hlen, rfl⟩ := board_store hf
    exact boardWrite_elsewhere (hlen ▸ hx)
  · obtain ⟨bs, hlen, rfl⟩ := board_store hf
    unfold boardWrite
    split
    · exact hpending
    split
    · exact hpending
    split
    · obtain ⟨offset, hoffset⟩ : ∃ offset, offset = a - window := ⟨_, rfl⟩
      have hbell : offset ≠ 0x050 := fun h =>
        hout a (Nat.le_refl a) (by omega) ⟨by omega, by omega⟩
      rw [← hoffset]
      by_cases hreset : offset = 0x070 ∧ fromLe bs = 0
      · obtain ⟨rfl, hvalue⟩ := hreset
        rw [hvalue]
        rfl
      · obtain ⟨line, hquiet⟩ := writeRegister_quiet (blkBackend ((Nat → UInt8) × μ)) id
          (fun index m => if (blkBackend _).queues ≤ index then m else m.record index) m hbell
          hreset
        rw [Machine.writeBusy, hquiet]
        exact hpending
    · exact hpending
  · obtain ⟨bs, hlen, rfl⟩ := board_store hf
    unfold boardWrite
    split
    · exact .inl rfl
    split
    · exact .inl rfl
    split
    · have hbell : onBell a := by
        by_contra hno
        exact hout a (Nat.le_refl a) (by omega) ⟨by omega, by omega, hno⟩
      obtain ⟨hlo, hhi⟩ := hbell
      have hoffset : a - window = 0x050 := by
        unfold window at *
        omega
      rw [hoffset]
      show (if (blkBackend ((Nat → UInt8) × μ)).queues ≤ fromLe bs then _
        else Machine.record (fromLe bs) _).regs = _ ∨ _
      split
      · exact .inl rfl
      · have hzero : fromLe bs = 0 := by
          have : (blkBackend ((Nat → UInt8) × μ)).queues = 1 := rfl
          omega
        rw [hzero]
        exact .inr rfl
    · exact .inl rfl

/-! ## A chain that rings its own doorbell -/

def bellChain : List Descriptor :=
  [⟨0x3000, 16, descFNext, 1⟩, ⟨window + 0x050, 4, descFNext + descFWrite, 2⟩,
    ⟨0x3100, 1, descFWrite, 0⟩]

def bellMemory : Nat → UInt8 :=
  put (put (fun _ => 0) 0x1000 (bellChain.flatMap descriptorBytes)) 0x2002 [1]

def bellLayout : Layout := ⟨4, 0x1000, 0x2000, 0x15000, true⟩

def bellState : State := { State.new 1 with status := 15, queues := [⟨bellLayout, 0, 0⟩] }

def bellMachine (pending : Nat) (engine : Bool) (trace : List Event) :
    Machine ((Nat → UInt8) × (Nat → UInt8)) :=
  ⟨⟨bellState, pending, engine, false⟩, (bellMemory, fun _ => 0), trace⟩

theorem bell_writes (m : Machine ((Nat → UInt8) × (Nat → UInt8))) :
    writeChain board bellChain 0 [0, 0, 0, 0] m =
        (.ok 4, m.writeBusy (blkBackend _) 0x050 0) ∧
      writeChain board bellChain 4 [0] m =
        (.ok 1, { m with world := (put m.world.1 0x3100 [0], m.world.2) }) :=
  ⟨rfl, rfl⟩

theorem bell_status : put bellMemory 0x3100 [0] = bellMemory := by
  funext x
  unfold put
  split
  · have hx : x = 0x3100 := by
      simp only [List.length_singleton] at *
      omega
    subst hx
    decide
  · rfl

theorem bell_handled (pending : Nat) (trace : List Event) :
    zeroDisk.handle 0 bellLayout bellChain (bellMachine pending true trace) =
      (5, bellMachine (pending ||| 1) true (.wrote 0x050 0 0 :: trace)) := by
  obtain ⟨m, hm⟩ : ∃ m, m = bellMachine pending true trace := ⟨_, rfl⟩
  have hheader : readChain board m bellChain 0 headerLen = .ok (List.replicate 16 0) := by
    rw [hm]
    rfl
  have hrange : (sectorDisk false).range (fromLe ((List.replicate 16 (0 : UInt8)).drop 8)) 4 =
      some 0 := by decide
  have hserve : (sectorDisk false).serve board bellChain (m, fun _ => 0) =
      ((sOk, 4), (m.writeBusy (blkBackend _) 0x050 0, fun _ => 0)) := by
    unfold VirtioBlk.serve
    rw [if_neg (by decide)]
    rw [hheader]
    dsimp only
    rw [if_neg (by decide), if_pos (by decide)]
    have hpayload : writableLen bellChain - 1 = 4 := by decide
    unfold VirtioBlk.readIn
    rw [hpayload, hrange]
    dsimp only
    unfold VirtioBlk.readInFrom
    rw [if_neg (by decide)]
    have hread : (sectorDisk false).media.readAt (0 + 0) (min chunk (4 - 0)) (fun _ => 0) =
        some [0, 0, 0, 0] := by decide
    dsimp only
    rw [hread]
    dsimp only
    rw [(bell_writes m).1]
    dsimp only
    rw [if_neg (by decide)]
    unfold VirtioBlk.readInFrom
    rw [if_pos (by decide)]
  change (sectorDisk false).handleOn board bellChain (bellMachine pending true trace) = _
  rw [← hm]
  have hworld : m.world.2 = fun _ => 0 := by rw [hm]; rfl
  unfold VirtioBlk.handleOn VirtioBlk.handle
  rw [hworld, hserve]
  dsimp only
  have hlast : writableLen bellChain - 1 = 4 := by decide
  rw [hlast]
  have hstatus : ([sOk] : Bytes) = [0] := rfl
  rw [hstatus, (bell_writes _).2, hm]
  change (5, Machine.mk _ (put bellMemory 0x3100 [0], fun _ => 0) _) = _
  rw [bell_status]
  rfl

theorem bell_round (trace : List Event) : ∃ trace',
    zeroDisk.round (bellMachine 1 true trace) = bellMachine 1 true trace' := by
  -- what the pass reads does not depend on the trace
  have hsee : ∀ trace, zeroDisk.guest.read (bellMachine 0 true trace) =
      zeroDisk.guest.read (bellMachine 0 true []) := fun trace =>
    zeroDisk.read_visible _ _ rfl rfl
  have hqueue : ∀ trace, (bellMachine 0 true trace).regs.state.liveQueue 0 =
      some ⟨bellLayout, 0, 0⟩ := by
    intro trace
    have h : bellState.liveQueue 0 = some ⟨bellLayout, 0, 0⟩ := by decide
    exact h
  have havail : availIdx (zeroDisk.guest.read (bellMachine 0 true [])) bellLayout = .ok 1 := by
    decide
  have hhead : availHead (zeroDisk.guest.read (bellMachine 0 true [])) bellLayout 0 =
      .ok 0 := by
    decide
  have hchain : chain (zeroDisk.guest.read (bellMachine 0 true [])) bellLayout 0 =
      .ok bellChain := by
    decide +kernel
  have hpublish : ∀ trace, publish zeroDisk.guest bellLayout 0 0 5 (bellMachine 1 true trace) =
      (.error .bus, bellMachine 1 true trace) := fun _ => rfl
  have hdrain : ∀ trace, ∃ trace', zeroDisk.drain 0 bellLayout 1 1 0 0 false
      (bellMachine 0 true trace) = ((0, 0, false), bellMachine 1 true trace') := by
    intro trace
    refine ⟨.served 0 0 5 :: .wrote 0x050 0 0 :: .handing 0 0 bellChain :: trace, ?_⟩
    exact Device.drain_refused (by decide) (by rw [hsee, hhead]) (by rw [hsee, hchain])
      (bell_handled 0 (.handing 0 0 bellChain :: trace)) (hpublish _)
  have hpass : ∃ trace', zeroDisk.runQueue 0 (bellMachine 0 true trace) =
      (false, bellMachine 1 true trace') := by
    obtain ⟨trace', hrun⟩ := hdrain (.pass 0 bellLayout 1 :: trace)
    have hsettle : Device.settle 0 bellLayout 0 0 false (bellMachine 1 true trace') =
        (false, bellMachine 1 true (.position 0 :: trace')) := rfl
    refine ⟨.done 0 :: .position 0 :: trace', ?_⟩
    rw [Device.runQueue_eq (hqueue trace) (by rw [hsee]; exact havail) hrun, hsettle]
    rfl
  obtain ⟨trace', hrun⟩ := hpass
  refine ⟨trace', ?_⟩
  rw [Device.round_first rfl]
  exact congrArg Prod.snd hrun

/-- A machine set up as on the board, with the chain offered. -/
structure Rung (m : Machine ((Nat → UInt8) × (Nat → UInt8))) : Prop where
  live : m.regs.state.liveQueue 0 = some ⟨boardLayout, 0, 0⟩
  avail : availIdx (board.read m) boardLayout = .ok 1
  head : availHead (board.read m) boardLayout 0 = .ok 0
  chain : chain (board.read m) boardLayout 0 = .ok bellChain
  direct : ∀ i < 4, (descriptor (board.read m) boardLayout i).toOption.join.any
    (·.has descFIndirect) = false

instance (m : Machine ((Nat → UInt8) × (Nat → UInt8))) : Decidable (Rung m) :=
  decidable_of_iff (_ ∧ _ ∧ _ ∧ _ ∧ _) ⟨fun h => ⟨h.1, h.2.1, h.2.2.1, h.2.2.2.1, h.2.2.2.2⟩,
    fun h => ⟨h.live, h.avail, h.head, h.chain, h.direct⟩⟩

theorem Rung.laidOut {m : Machine ((Nat → UInt8) × (Nat → UInt8))} (h : Rung m) :
    Device.LaidOut zeroDisk onBell onOthers (board.read m) ⟨boardLayout, 0, 0⟩ 1 := by
  have hwalked : ∀ x, boardLayout.Walked (board.read m) x → 0x1000 ≤ x ∧ x < 0x200c := by
    rintro x (⟨hlo, hhi⟩ | ⟨hlo, hhi⟩ | ⟨i, d, hd, hindirect, -⟩)
    · exact ⟨le_trans (by decide) hlo, hhi⟩
    · exact ⟨hlo, hhi.trans (by decide)⟩
    · by_cases hi : i < 4
      · have := h.direct i hi
        rw [hd] at this
        cases hindirect.symm.trans this
      · have hnone : descriptor (board.read m) boardLayout i = .ok none :=
          if_pos (Nat.le_of_not_lt hi)
        cases hnone.symm.trans hd
  have hused : ∀ x, boardLayout.InUsed x → 0x4000 ≤ x ∧ x < 0x4024 := by
    rintro x ⟨hlo, hhi⟩
    exact ⟨hlo, hhi⟩
  have hoffers : ∀ ds, Device.Offers (board.read m) boardLayout 0 (wrappingSub 16 1 0) ds →
      ds = bellChain := by
    rintro ds ⟨k, hk, head, hhead, hchain⟩
    obtain rfl : k = 0 := Nat.lt_one_iff.mp hk
    obtain rfl := Except.ok.inj (h.head.symm.trans hhead)
    exact Except.ok.inj (hchain.symm.trans h.chain)
  have haims : ∀ x, Device.Aims (board.read m) boardLayout 0 (wrappingSub 16 1 0) x →
      0x4000 ≤ x ∧ x < 0x4024 ∨ onBell x ∨ x = 0x3100 := by
    rintro x (hx | ⟨ds, hds, d, hd, hwrite, hlo, hhi⟩)
    · exact .inl (hused x hx)
    · rw [hoffers ds hds] at hd
      simp only [bellChain, List.mem_cons, List.not_mem_nil, or_false] at hd
      rcases hd with rfl | rfl | rfl
      · cases hwrite
      · exact .inr (.inl ⟨hlo, hhi⟩)
      · exact .inr (.inr (Nat.le_antisymm (Nat.le_of_lt_succ hhi) hlo))
  refine ⟨fun x hx => ?_, fun x hx hx' => ?_, .inr ⟨fun x hx => ?_, fun a n f hf hin m => ?_⟩,
    fun x hx => ?_, fun ds hds => ?_⟩
  · have := hwalked x hx
    unfold onBell onOthers onBell window
    omega
  · have := hwalked x hx'
    have := haims x hx
    unfold onBell window at this
    omega
  · have := haims x hx
    unfold onOthers
    unfold onBell window at *
    omega
  · obtain ⟨bs, hbs, rfl⟩ := board_store hf
    unfold boardWrite
    split
    · rfl
    · have := hused (a + (n - 1)) (hin _ (by omega) (by omega))
      rw [if_pos (by unfold ramLen; omega)]
  · rcases hx with hx | hx
    · have := hwalked x hx
      omega
    · have := hused x hx
      omega
  · rw [hoffers ds hds]
    decide

end Rsemu.Virtio
