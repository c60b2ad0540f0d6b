import Rsemu.Nvme.Controller
import Rsemu.Nvme.Rings

/-!
# Nothing is left while the controller is disabled

With `EN` clear there are no queues, no held events and no ready or shutdown bits. Everything
that makes a queue or holds an event happens in a command, and a command is only taken off a
queue of an enabled controller; a doorbell and a completion need a queue as well.

A register write by the host is a run of the actions that are done under the controller's lock
(`World.hostWrite_leads`), the writes that its own accesses come back with included.
-/

namespace Rsemu.Nvme

open Codec (Bytes)

/-- No queues, no held events, no status but the fatal one. -/
structure State.Idle (s : State) : Prop where
  sq : s.sq = fun _ => none
  cq : s.cq = fun _ => none
  aer : s.aer = 0
  csts : s.csts &&& (cstsRdy ||| cstsShstMask) = 0

/-- **A disabled controller is idle**, and its status has no bits but the known ones. -/
structure State.Settled (s : State) : Prop where
  idle : ¬ s.Enabled → s.Idle
  csts : s.csts &&& 0xf = s.csts

section

variable {s t : State}

theorem State.Settled.new : State.new.Settled where
  idle _ := ⟨rfl, rfl, rfl, by decide⟩
  csts := by decide

theorem State.Enabled.settled (h : s.Enabled) (hcsts : s.csts &&& 0xf = s.csts) : s.Settled :=
  ⟨fun hnot => absurd h hnot, hcsts⟩

theorem State.Enabled.congr (h : s.Enabled) (hcc : t.cc = s.cc) : t.Enabled := by
  unfold State.Enabled at h ⊢
  rwa [hcc]

theorem State.Settled.enabled (h : s.Settled) (hready : s.Ready) : s.Enabled := by
  by_contra hnot
  have hidle := (h.idle hnot).csts
  have hrdy : s.csts &&& cstsRdy = s.csts &&& (cstsRdy ||| cstsShstMask) &&& cstsRdy := by
    rw [UInt32.and_assoc]
    rfl
  rw [hidle] at hrdy
  exact hready (hrdy.trans (by decide))

theorem State.Settled.enabled_of_cq (h : s.Settled) {qid : Slot} {cq : CompQueue}
    (hcq : cq ∈ s.cq qid) : s.Enabled := by
  by_contra hnot
  rw [(h.idle hnot).cq] at hcq
  cases hcq

theorem State.ready_of_rdy (h : s.csts &&& (cstsRdy ||| cstsCfs) = cstsRdy) : s.Ready := by
  have hrdy : s.csts &&& cstsRdy = s.csts &&& (cstsRdy ||| cstsCfs) &&& cstsRdy := by
    rw [UInt32.and_assoc]
    rfl
  rw [h] at hrdy
  unfold State.Ready
  rw [hrdy]
  decide

theorem State.Settled.fatal (h : s.Settled) : s.fatal.Settled where
  idle hnot := by
    obtain ⟨hsq, hcq, haer, hcsts⟩ := h.idle hnot
    refine ⟨hsq, hcq, haer, ?_⟩
    change (s.csts ||| cstsCfs) &&& (cstsRdy ||| cstsShstMask) = 0
    rw [or_and_distrib, hcsts]
    rfl
  csts := masked_or h.csts (by decide)

theorem State.shutDown_cc (s : State) (durable : Bool) : (s.shutDown durable).cc = s.cc := by
  unfold State.shutDown
  split <;> rfl

theorem State.Settled.shutDown (h : s.Settled) (henabled : s.Enabled) (durable : Bool) :
    (s.shutDown durable).Settled := by
  refine State.Enabled.settled (henabled.congr (s.shutDown_cc durable)) ?_
  have hdone := masked_or (masked_and h.csts (~~~cstsShstMask))
    (show cstsShstComplete &&& 0xf = cstsShstComplete by decide)
  unfold State.shutDown
  split
  · exact hdone
  · exact masked_or hdone (by decide)

theorem State.Settled.enable (h : s.Settled) (henabled : s.Enabled) : s.enable.Settled := by
  unfold State.enable
  split
  · exact State.Enabled.settled (henabled.congr rfl) (masked_or h.csts (by decide))
  · exact h.fatal

theorem enabled_kept (cc value : UInt32) :
    (cc &&& ~~~shnMask ||| value &&& shnMask) &&& ccEn = cc &&& ccEn := by
  rw [or_and_distrib, UInt32.and_assoc, UInt32.and_assoc]
  have hkept : ~~~shnMask &&& ccEn = ccEn := by decide
  have hnone : shnMask &&& ccEn = 0 := by decide
  rw [hkept, hnone, UInt32.and_zero, UInt32.or_zero]

theorem State.Settled.writeRegister (h : s.Settled) (offset : Nat) (value : UInt32) :
    (s.writeRegister offset value).2.Settled ∧
      ((s.writeRegister offset value).1 = .shutdown →
        (s.writeRegister offset value).2.Enabled) := by
  obtain ⟨-, heq⟩ | ⟨-, t, heq, hsq, hcq, hcc, hcsts, haer, -⟩ := s.writeRegister_cases offset value
  · rw [heq]
    obtain ⟨-, -, heq⟩ | ⟨henabled, -, after, heq⟩ | ⟨hnot, -, heq⟩ | ⟨hnot, hen, heq⟩ :=
      s.writeCc_cases value
    · rw [heq]
      refine ⟨⟨fun _ => ⟨rfl, rfl, rfl, ?_⟩, masked_and h.csts _⟩, fun h => nomatch h⟩
      change s.csts &&& ~~~(cstsRdy ||| cstsShstMask) &&& (cstsRdy ||| cstsShstMask) = 0
      rw [UInt32.and_assoc, UInt32.not_and_self, UInt32.and_zero]
    · rw [heq]
      have hstill : { s with cc := s.cc &&& ~~~shnMask ||| value &&& ccMask &&& shnMask }.Enabled := by
        unfold State.Enabled
        rw [enabled_kept]
        exact henabled
      exact ⟨hstill.settled h.csts, fun _ => hstill⟩
    · rw [heq]
      obtain ⟨hsq, hcq, haer, hcsts⟩ := h.idle hnot
      exact ⟨⟨fun _ => ⟨hsq, hcq, haer, hcsts⟩, h.csts⟩, fun h => nomatch h⟩
    · rw [heq]
      have hset : { s with cc := value &&& ccMask }.Enabled := hen
      exact ⟨(hset.settled h.csts).enable hset, fun h => nomatch h⟩
  · rw [heq]
    refine ⟨⟨fun hnot => ?_, hcsts ▸ h.csts⟩, fun h => nomatch h⟩
    obtain ⟨hsq', hcq', haer', hcsts'⟩ := h.idle fun henabled => hnot (henabled.congr hcc)
    exact ⟨hsq.trans hsq', hcq.trans hcq', haer.trans haer', hcsts.symm ▸ hcsts'⟩

theorem State.Settled.doorbell (h : s.Settled) {offset : Nat} {value : UInt32} {after : After}
    (hring : s.doorbell offset value = some (after, t)) : t.Settled ∧ t.Enabled := by
  obtain ⟨hready, hcases⟩ := State.doorbell_cases hring
  have henabled := h.enabled hready
  rcases hcases with rfl | ⟨qid, cq, -, -, rfl⟩ | ⟨qid, sq, -, -, rfl⟩
  · exact ⟨h.fatal, henabled⟩
  · exact ⟨State.Enabled.settled henabled h.csts, henabled⟩
  · exact ⟨State.Enabled.settled henabled h.csts, henabled⟩

theorem State.Settled.nextJob (h : s.Settled) {job : Job} (hnext : s.nextJob = some (job, t)) :
    t.Settled ∧ t.Enabled := by
  obtain ⟨hrdy, sq, -, -, -, -, -, rfl⟩ := State.nextJob_cases hnext
  have henabled := h.enabled (State.ready_of_rdy hrdy)
  exact ⟨State.Enabled.settled henabled h.csts, henabled⟩

theorem State.Settled.place (h : s.Settled) {cqid : Nat} {at_ : Nat × Bool}
    (hplace : s.place cqid = some (at_, t)) : t.Settled := by
  obtain ⟨slot, -, cq, hcq, -, -, rfl⟩ := State.place_cases hplace
  exact State.Enabled.settled (h.enabled_of_cq hcq) h.csts

end

section

variable {s t : State} {params : Params}

theorem State.createCq_kept (params : Params) (page : Nat) (cmd : Command) :
    (s.createCq params page cmd).2.cc = s.cc ∧ (s.createCq params page cmd).2.csts = s.csts := by
  obtain heq | ⟨slot, -, -, -, heq⟩ := s.createCq_cases params page cmd
  · rw [heq]
    exact ⟨rfl, rfl⟩
  · rw [heq]
    exact ⟨rfl, rfl⟩

theorem State.createSq_kept (params : Params) (page : Nat) (cmd : Command) :
    (s.createSq params page cmd).2.cc = s.cc ∧ (s.createSq params page cmd).2.csts = s.csts := by
  obtain heq | ⟨slot, -, -, -, heq⟩ := s.createSq_cases params page cmd
  · rw [heq]
    exact ⟨rfl, rfl⟩
  · rw [heq]
    exact ⟨rfl, rfl⟩

theorem State.deleteCq_kept (cmd : Command) :
    (s.deleteCq cmd).2.cc = s.cc ∧ (s.deleteCq cmd).2.csts = s.csts := by
  obtain heq | ⟨slot, -, -, heq⟩ := s.deleteCq_cases cmd
  · rw [heq]
    exact ⟨rfl, rfl⟩
  · rw [heq]
    exact ⟨rfl, rfl⟩

theorem State.deleteSq_kept (cmd : Command) :
    (s.deleteSq cmd).2.cc = s.cc ∧ (s.deleteSq cmd).2.csts = s.csts := by
  obtain heq | ⟨slot, -, heq⟩ := s.deleteSq_cases cmd
  · rw [heq]
    exact ⟨rfl, rfl⟩
  · rw [heq]
    exact ⟨rfl, rfl⟩

theorem State.asyncEvent_kept : s.asyncEvent.2.cc = s.cc ∧ s.asyncEvent.2.csts = s.csts := by
  unfold State.asyncEvent
  split
  · exact ⟨rfl, rfl⟩
  · exact ⟨rfl, rfl⟩

/-- Commands and shutdowns come to a controller that is enabled, and no snapshot is loaded. -/
def Action.Due (s : State) : Action → Prop
  | .shutDown _ | .createCq _ _ | .createSq _ _ | .deleteSq _ | .deleteCq _ | .asyncEvent => s.Enabled
  | .load _ => False
  | _ => True

theorem State.Settled.apply (h : s.Settled) {a : Action} (hdue : a.Due s) :
    (a.apply params s).Settled := by
  have hcommand : ∀ t : State, s.Enabled → t.cc = s.cc ∧ t.csts = s.csts → t.Settled :=
    fun t henabled hkept => (henabled.congr hkept.1).settled (hkept.2 ▸ h.csts)
  have htaken : ∀ {α : Type} (o : Option (α × State)), (∀ x t, o = some (x, t) → t.Settled) →
      ((o.map (·.2)).getD s).Settled := by
    intro α o ho
    cases o with
    | none => exact h
    | some x => exact ho x.1 x.2 rfl
  cases a with
  | write offset value => exact (h.writeRegister offset value).1
  | doorbell offset value =>
    exact htaken (s.doorbell offset value) fun _ _ hring => (h.doorbell hring).1
  | shutDown durable => exact h.shutDown hdue durable
  | nextJob => exact htaken s.nextJob fun _ _ hnext => (h.nextJob hnext).1
  | place cqid => exact htaken (s.place cqid) fun _ _ hplace => h.place hplace
  | fatal => exact h.fatal
  | createCq page cmd => exact hcommand _ hdue (s.createCq_kept params page cmd)
  | createSq page cmd => exact hcommand _ hdue (s.createSq_kept params page cmd)
  | deleteSq cmd => exact hcommand _ hdue (s.deleteSq_kept cmd)
  | deleteCq cmd => exact hcommand _ hdue (s.deleteCq_kept cmd)
  | asyncEvent => exact hcommand _ hdue s.asyncEvent_kept
  | reset => exact .new
  | load bytes => cases hdue

/-- One state leads to another by actions that are due. -/
def State.Leads (params : Params) : State → State → Prop :=
  Relation.ReflTransGen fun s t => ∃ a : Action, a.Due s ∧ t = a.apply params s

theorem State.Leads.settled (h : State.Leads params s t) (hs : s.Settled) : t.Settled := by
  induction h with
  | refl => exact hs
  | tail _ hstep ih =>
    obtain ⟨a, hdue, rfl⟩ := hstep
    exact ih.apply hdue

theorem State.Leads.run (h : State.Leads params s t) : ∃ actions, t = run params s actions := by
  induction h with
  | refl => exact ⟨[], rfl⟩
  | tail _ hstep ih =>
    obtain ⟨a, -, rfl⟩ := hstep
    obtain ⟨actions, rfl⟩ := ih
    refine ⟨actions ++ [a], ?_⟩
    unfold Nvme.run
    rw [List.foldl_append]
    rfl

theorem State.Leads.of_doorbell {offset : Nat} {value : UInt32} {after : After}
    (hring : s.doorbell offset value = some (after, t)) : State.Leads params s t :=
  .single ⟨.doorbell offset value, trivial, by rw [Action.apply, hring]; rfl⟩

theorem State.Leads.of_nextJob {job : Job} (hnext : s.nextJob = some (job, t)) :
    State.Leads params s t :=
  .single ⟨.nextJob, trivial, by rw [Action.apply, hnext]; rfl⟩

theorem State.Leads.of_place {cqid : Nat} {at_ : Nat × Bool}
    (hplace : s.place cqid = some (at_, t)) : State.Leads params s t :=
  .single ⟨.place cqid, trivial, by rw [Action.apply, hplace]; rfl⟩

end

section

variable {σ μ : Type} {b : Board σ μ} {w : World σ μ}

/-- The controller's state of one world leads to that of the other. -/
def World.Leads (b : Board σ μ) (w v : World σ μ) : Prop := State.Leads b.params w.state v.state

theorem World.Leads.trans {u v : World σ μ} (h : w.Leads b v) (h' : v.Leads b u) : w.Leads b u :=
  Relation.ReflTransGen.trans h h'

theorem World.Leads.refl (w : World σ μ) : w.Leads b w := Relation.ReflTransGen.refl

theorem World.after_leads {run : World σ μ → World σ μ}
    (hrun : ∀ w : World σ μ, w.state.Settled → w.Leads b (run w)) (h : w.state.Settled) {after : After}
    (hshutdown : after = .shutdown → w.state.Enabled) : w.Leads b (w.after b run after) := by
  cases after with
  | irq => exact .refl w
  | run => exact hrun w h
  | shutdown => exact .single ⟨.shutDown _, hshutdown rfl, rfl⟩

theorem World.writeDword_leads {r : World σ μ → World σ μ}
    (hrun : ∀ w : World σ μ, w.state.Settled → w.Leads b (r w)) (h : w.state.Settled) (offset : Nat)
    (value : UInt32) : w.Leads b (w.writeDword b r offset value) := by
  unfold World.writeDword
  split
  · cases hring : w.state.doorbell offset value with
    | none => exact .refl w
    | some rung =>
      obtain ⟨hsettled, henabled⟩ := h.doorbell hring
      refine World.Leads.trans (v := { w with state := rung.2 }) (.of_doorbell hring) ?_
      exact World.after_leads hrun hsettled fun _ => henabled
  · obtain ⟨hsettled, hshutdown⟩ := h.writeRegister offset value
    refine World.Leads.trans (v := { w with state := (w.state.writeRegister offset value).2 })
      (.single ⟨.write offset value, trivial, rfl⟩) ?_
    exact World.after_leads hrun hsettled hshutdown

theorem World.writeGuest_leads (h : w.state.Settled) (at_ : Nat) (bytes : Bytes) :
    w.Leads b (w.writeGuest b at_ bytes).2 := by
  have hrings : ∀ (rings : List (Nat × UInt32)) (w : World σ μ), w.state.Settled →
      w.Leads b (rings.foldl (fun w ring => w.writeBusy b ring.1 ring.2) w) := by
    intro rings
    induction rings with
    | nil => exact fun w _ => .refl w
    | cons ring rings ih =>
      intro w h
      have hfirst := World.writeDword_leads (b := b) (r := id) (fun w _ => .refl w) h ring.1 ring.2
      exact hfirst.trans (ih _ (hfirst.settled h))
  exact hrings (b.guest.rings w.guest at_ bytes)
    { w with guest := (b.guest.write w.guest at_ bytes).2 } h

theorem World.scatterChunks_leads {cs : List Chunk} {data : Bytes} (h : w.state.Settled) :
    w.Leads b (w.scatterChunks b cs data).2 := by
  induction cs generalizing w data with
  | nil => exact .refl w
  | cons c cs ih =>
    have hwritten := World.writeGuest_leads (b := b) h c.1 (data.take c.2)
    rw [World.scatterChunks]
    split
    · exact hwritten.trans (ih (hwritten.settled h))
    · exact hwritten

variable {cmd : Command}

section

variable (h : w.state.Settled)
include h

theorem World.scatter_leads {data : Bytes} {page : Nat} :
    w.Leads b (w.scatter b cmd data page).2 := by
  unfold World.scatter
  split
  · exact .refl w
  · exact World.scatterChunks_leads h

theorem World.readChunks_leads {cs : List Chunk} {at_ : Nat} :
    w.Leads b (w.readChunks b cs at_).2 := by
  induction cs generalizing w at_ with
  | nil => exact .refl w
  | cons c cs ih =>
    rw [World.readChunks]
    cases b.media.readAt w.medium at_ c.2 with
    | none => exact .refl w
    | some bytes =>
      have hwritten := World.writeGuest_leads (b := b) h c.1 bytes
      dsimp only
      split
      · exact hwritten.trans (ih (hwritten.settled h))
      · exact hwritten

omit h in
theorem World.writeChunks_state {cs : List Chunk} {at_ : Nat} :
    (w.writeChunks b cs at_).2.state = w.state := by
  induction cs generalizing w at_ with
  | nil => rfl
  | cons c cs ih =>
    rw [World.writeChunks]
    cases b.guest.read w.guest c.1 c.2 with
    | none => rfl
    | some bytes =>
      dsimp only
      split
      · exact ih
      · rfl

omit h in
theorem World.zeroPieces_state {offset len pieces at_ : Nat} :
    (World.zeroPieces b offset len pieces w at_).2.state = w.state := by
  induction pieces generalizing w at_ with
  | zero => rfl
  | succ pieces ih =>
    rw [World.zeroPieces]
    dsimp only
    split
    · rfl
    split
    · exact ih
    · rfl

theorem World.transfer_leads {offset len : Nat} {write : Bool} :
    w.Leads b (w.transfer b cmd offset len write).2 := by
  unfold World.transfer
  split
  · exact .refl w
  split
  · unfold World.Leads
    rw [World.writeChunks_state]
    exact .refl
  · exact World.readChunks_leads h

theorem World.read_leads : w.Leads b (w.read b cmd).2 := by
  unfold World.read
  split
  · exact .refl w
  split
  · exact .refl w
  split
  · exact .refl w
  · exact World.transfer_leads h

theorem World.write_leads : w.Leads b (w.write b cmd).2 := by
  unfold World.write
  split
  · exact .refl w
  split
  · exact .refl w
  split
  · exact .refl w
  split
  · exact .refl w
  · exact World.transfer_leads h

omit h in
theorem World.writeZeroes_leads : w.Leads b (w.writeZeroes b cmd).2 := by
  unfold World.writeZeroes
  split
  · exact .refl w
  split
  · exact .refl w
  · unfold World.Leads
    rw [World.zeroPieces_state]
    exact .refl

theorem World.nvm_leads : w.Leads b (w.nvm b cmd).2 := by
  have hread : w.Leads b (w.read b cmd).2 := World.read_leads h
  have hwrite : w.Leads b (w.write b cmd).2 := World.write_leads h
  have hzeroes : w.Leads b (w.writeZeroes b cmd).2 := World.writeZeroes_leads
  unfold World.nvm
  split
  · exact .refl w
  split
  · exact .refl w
  split
  · exact hread
  split
  · exact hwrite
  split
  · exact hzeroes
  · exact .refl w

theorem World.identify_leads : w.Leads b (w.identify b cmd).2 := by
  unfold World.identify
  dsimp only
  split
  · exact .refl w
  split
  · split
    · exact .refl w
    · exact World.scatter_leads h
  split
  · exact World.scatter_leads h
  split
  · exact World.scatter_leads h
  split
  · split
    · exact .refl w
    · exact World.scatter_leads h
  · exact .refl w

theorem World.getLogPage_leads : w.Leads b (w.getLogPage b cmd).2 := by
  unfold World.getLogPage
  dsimp only
  split
  · exact .refl w
  split
  · exact .refl w
  split
  · exact .refl w
  · exact World.scatter_leads h

theorem World.admin_leads (henabled : w.state.Enabled) : w.Leads b (w.admin b cmd).2 := by
  have hact : ∀ a : Action, a.Due w.state →
      w.Leads b { w with state := a.apply b.params w.state } := fun a hdue => .single ⟨a, hdue, rfl⟩
  have hidentify : w.Leads b (w.identify b cmd).2 := World.identify_leads h
  have hlog : w.Leads b (w.getLogPage b cmd).2 := World.getLogPage_leads h
  have hor : ∀ {c : Prop} [Decidable c] {r t : Option Status × World σ μ},
      w.Leads b r.2 → w.Leads b t.2 → w.Leads b (if c then r else t).2 := by
    intro c _ r t hr ht
    split
    · exact hr
    · exact ht
  exact hor (hact (.createCq w.state.page cmd) henabled) <|
    hor (hact (.createSq w.state.page cmd) henabled) <| hor (hact (.deleteCq cmd) henabled) <|
    hor (hact (.deleteSq cmd) henabled) <| hor hidentify <| hor (.refl w) <| hor (.refl w) <|
    hor hlog <| hor (.refl w) <| hor (hact .asyncEvent henabled) (.refl w)

omit h in
theorem World.fatal_leads : w.Leads b w.fatal := .single ⟨.fatal, trivial, rfl⟩

theorem World.complete_leads {job : Job} {cid : UInt16} {done : Status} :
    w.Leads b (w.complete b job cid done) := by
  unfold World.complete
  cases hplace : w.state.place job.cqid with
  | none => exact .refl w
  | some placed =>
    have hplaced : w.Leads b { w with state := placed.2 } := .of_place hplace
    have hwritten := fun bytes => hplaced.trans
      (World.writeGuest_leads (hplaced.settled h) placed.1.1 bytes)
    dsimp only
    split
    · exact hwritten _
    · exact (hwritten _).trans World.fatal_leads

theorem World.execute_leads {j : Job} (henabled : w.state.Enabled) : w.Leads b (w.execute b j) := by
  unfold World.execute
  split
  · exact World.fatal_leads
  dsimp only
  have hdone : ∀ cmd, w.Leads b (if j.sqid = adminSlot then w.admin b cmd
      else w.nvm b cmd).2 := by
    intro cmd
    split
    · exact World.admin_leads h henabled
    · exact World.nvm_leads h
  split
  · exact hdone _
  · exact (hdone _).trans (World.complete_leads ((hdone _).settled h))

theorem World.drain_leads {budget : Nat} : w.Leads b (w.drain b budget) := by
  induction budget generalizing w with
  | zero => exact .refl w
  | succ budget ih =>
    rw [World.drain]
    cases hnext : w.state.nextJob with
    | none => exact .refl w
    | some next =>
      obtain ⟨hsettled, henabled⟩ := h.nextJob hnext
      have htaken : w.Leads b { w with state := next.2 } := .of_nextJob hnext
      have hdone := htaken.trans (World.execute_leads (j := next.1) hsettled henabled)
      exact hdone.trans (ih (hdone.settled h))

theorem World.run_leads : w.Leads b (w.run b) := by
  unfold World.run
  split
  · exact World.drain_leads h
  · exact .refl w

theorem World.hostWrite_leads (offset : Nat) (value : UInt32) :
    w.Leads b (w.hostWrite b offset value) :=
  World.writeDword_leads (fun _ h => World.run_leads h) h offset value

end

end

end Rsemu.Nvme
