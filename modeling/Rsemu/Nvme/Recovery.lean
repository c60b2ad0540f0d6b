import Rsemu.Nvme.Blocks
import Rsemu.Nvme.Settled

/-!
# Disable, program the admin queues, enable

What a driver does with a controller that it has lost track of. A controller reset forgets the
queues and clears `RDY` and `SHST`, and a disabled controller has nothing else left (`Settled`),
so the sequence comes to what it comes to on a controller fresh from power-on, with one
exception. `CFS` is among the bits that neither a controller reset nor an enable clears, and
commands are only taken off a queue while it is clear: a controller that failed leaves memory and
medium alone until it is powered up again (`failed_stops`).
-/

namespace Rsemu.Nvme

variable {σ μ : Type}

/-! ## Histories -/

/-- What can happen to a controller. -/
inductive Event (σ : Type) where
  /-- A register write: a doorbell too, and with it the commands that it runs. -/
  | write (offset : Nat) (value : UInt32)
  /-- The guest's memory is changed, in whatever way. -/
  | memory (guest : σ)
  | setMaster (enabled : Bool)
  /-- Power-on, or the machine's reset. -/
  | reset

def World.event (b : Board σ μ) (w : World σ μ) : Event σ → World σ μ
  | .write offset value => w.hostWrite b offset value
  | .memory guest => { w with guest := guest }
  | .setMaster enabled => { w with master := enabled }
  | .reset => { w with state := State.new, master := false }.refreshIrq

def World.events (b : Board σ μ) (w : World σ μ) (es : List (Event σ)) : World σ μ :=
  es.foldl (World.event b) w

/-- The world of some run of events from power-up. -/
def World.Reached (b : Board σ μ) (w : World σ μ) : Prop :=
  ∃ w₀ es, w₀.state = State.new ∧ w = World.events b w₀ es

section

variable {b : Board σ μ} {w : World σ μ}

theorem World.event_leads (h : w.state.Settled) (e : Event σ) : w.Leads b (w.event b e) := by
  cases e with
  | write offset value => exact World.hostWrite_leads h offset value
  | memory guest => exact .refl w
  | setMaster enabled => exact .refl w
  | reset => exact .single ⟨.reset, trivial, rfl⟩

theorem World.events_leads (es : List (Event σ)) (h : w.state.Settled) :
    w.Leads b (w.events b es) := by
  induction es generalizing w with
  | nil => exact .refl w
  | cons e es ih =>
    have hfirst := World.event_leads (b := b) h e
    exact hfirst.trans (ih (hfirst.settled h))

theorem World.Reached.run (h : w.Reached b) :
    ∃ actions, w.state = Nvme.run b.params State.new actions := by
  obtain ⟨w₀, es, hnew, rfl⟩ := h
  have hleads := World.events_leads (b := b) es (hnew ▸ State.Settled.new)
  exact hnew ▸ hleads.run

theorem World.Reached.settled (h : w.Reached b) : w.state.Settled := by
  obtain ⟨w₀, es, hnew, rfl⟩ := h
  have hsettled : w₀.state.Settled := hnew ▸ State.Settled.new
  exact (World.events_leads es hsettled).settled hsettled

end

/-! ## The sequence -/

/-- What the driver writes to the admin queue registers, and the configuration it enables. -/
structure Config where
  aqa : UInt32
  asqLow : UInt32
  asqHigh : UInt32
  acqLow : UInt32
  acqHigh : UInt32
  cc : UInt32

def Config.writes (off : UInt32) (c : Config) : List (Nat × UInt32) :=
  [(regCc, off), (regAqa, c.aqa), (regAsq, c.asqLow), (regAsqHigh, c.asqHigh),
    (regAcq, c.acqLow), (regAcqHigh, c.acqHigh), (regCc, c.cc)]

def Config.recover (off : UInt32) (c : Config) : List (Event σ) :=
  (c.writes off).map fun write => .write write.1 write.2

def Config.state (c : Config) (intms : UInt32) : State :=
  { State.new with
    intms := intms
    cc := c.cc &&& ccMask
    aqa := c.aqa &&& aqaMask
    asq := setHigh (setLow 0 c.asqLow) c.asqHigh
    acq := setHigh (setLow 0 c.acqLow) c.acqHigh }

/-- Writing these registers enables the controller. -/
def Config.Accepted (c : Config) : Prop := (c.state 0).Enabled ∧ (c.state 0).Accepts

instance (c : Config) : Decidable c.Accepted :=
  inferInstanceAs (Decidable ((c.state 0).Enabled ∧ (c.state 0).Accepts))

def World.fresh (w : World σ μ) : World σ μ :=
  { w with state := { State.new with intms := w.state.intms }, irq := false }

theorem setHigh_setLow (reg : UInt64) (lo hi : UInt32) :
    setHigh (setLow reg lo) hi = setHigh (setLow 0 lo) hi := by
  have hgone : (0xffffffff00000000 : UInt64) &&& 0xffffffff = 0 := by decide
  unfold setHigh setLow
  congr 1
  apply UInt64.toBitVec_inj.mp
  have hleft : ∀ x : UInt64, ((x &&& 0xffffffff00000000 ||| lo.toUInt64) &&& 0xffffffff).toBitVec
      = ((x &&& (0xffffffff00000000 &&& 0xffffffff)) ||| lo.toUInt64 &&& 0xffffffff).toBitVec := by
    intro x
    rw [← UInt64.and_assoc]
    exact BitVec.and_or_distrib_right
  rw [hleft, hleft, hgone, UInt64.and_zero, UInt64.and_zero]

theorem and_not_of_and {x m : UInt32} (h : x &&& m = 0) : x &&& ~~~m = x := by
  calc x &&& ~~~m = x &&& ~~~m ||| x &&& m := by rw [h, UInt32.or_zero]
    _ = ~~~m &&& x ||| m &&& x := by rw [UInt32.and_comm x, UInt32.and_comm x]
    _ = (m ||| ~~~m) &&& x := by rw [← or_and_distrib, UInt32.or_comm]
    _ = x := by rw [UInt32.or_not_self, UInt32.neg_one_and]

section

variable {s : State}

def State.left (s : State) : UInt32 := s.csts &&& ~~~(cstsRdy ||| cstsShstMask)

theorem State.Settled.disable (h : s.Settled) {off : UInt32} (hoff : off &&& ccEn = 0) :
    s.writeRegister regCc off = (.irq,
      { s with sq := fun _ => none, cq := fun _ => none, aer := 0, cc := off &&& ccMask,
               csts := s.left }) := by
  have hclear : off &&& ccMask &&& ccEn = 0 := by
    rw [UInt32.and_assoc, UInt32.and_comm ccMask, ← UInt32.and_assoc, hoff, UInt32.zero_and]
  obtain ⟨-, heq⟩ | ⟨hne, -⟩ := s.writeRegister_cases regCc off
  · rw [heq]
    obtain ⟨-, -, heq⟩ | ⟨-, hen, -⟩ | ⟨hnot, -, heq⟩ | ⟨-, hen, -⟩ := s.writeCc_cases off
    · exact heq
    · exact absurd hclear hen
    · obtain ⟨hsq, hcq, haer, hcsts⟩ := h.idle hnot
      have hleft : s.left = s.csts := and_not_of_and hcsts
      rw [heq, hleft, ← hsq, ← hcq, ← haer]
    · exact absurd hclear hen
  · exact absurd rfl hne

theorem State.program (hnot : ¬ s.Enabled) (value : UInt32) :
    s.writeRegister regAqa value = (.irq, { s with aqa := value &&& aqaMask }) ∧
    s.writeRegister regAsq value = (.irq, { s with asq := setLow s.asq value }) ∧
    s.writeRegister regAsqHigh value = (.irq, { s with asq := setHigh s.asq value }) ∧
    s.writeRegister regAcq value = (.irq, { s with acq := setLow s.acq value }) ∧
    s.writeRegister regAcqHigh value = (.irq, { s with acq := setHigh s.acq value }) := by
  refine ⟨?_, ?_, ?_, ?_, ?_⟩
  all_goals
    unfold State.writeRegister
    rw [if_neg (by decide), if_neg (by decide), if_neg (by decide), if_neg hnot]
    rfl

def Config.ready (c : Config) (s : State) : State :=
  { c.state s.intms with
    sq := Function.update (fun _ => none) adminSlot (some (c.state s.intms).adminSq)
    cq := Function.update (fun _ => none) adminSlot (some (c.state s.intms).adminCq)
    csts := s.left ||| cstsRdy }

theorem Config.Accepted.ready {c : Config} (h : c.Accepted)
    (hs : s.sq = (fun _ => none) ∧ s.cq = (fun _ => none) ∧ s.aer = 0 ∧
      s.aqa = c.aqa &&& aqaMask ∧ s.asq = setHigh (setLow 0 c.asqLow) c.asqHigh ∧
      s.acq = setHigh (setLow 0 c.acqLow) c.acqHigh) (hnot : ¬ s.Enabled) :
    s.writeRegister regCc c.cc = (.irq, { c.ready s with csts := s.csts ||| cstsRdy }) := by
  obtain ⟨hen, haccepts⟩ := h
  obtain ⟨hsq, hcq, haer, haqa, hasq, hacq⟩ := hs
  obtain ⟨-, heq⟩ | ⟨hne, -⟩ := s.writeRegister_cases regCc c.cc
  · rw [heq]
    obtain ⟨henabled, -⟩ | ⟨henabled, -⟩ | ⟨-, hoff, -⟩ | ⟨-, -, heq⟩ := s.writeCc_cases c.cc
    · exact absurd henabled hnot
    · exact absurd henabled hnot
    · exact absurd hoff hen
    · have hsame : { s with cc := c.cc &&& ccMask } =
          { c.state s.intms with csts := s.csts } := by
        rw [hsq, hcq, haer, haqa, hasq, hacq]
        rfl
      have hok : { c.state s.intms with csts := s.csts }.Accepts := haccepts
      rw [heq, hsame]
      unfold State.enable
      rw [if_pos hok]
      rfl
  · exact absurd rfl hne

end

/-! ## What the sequence comes to -/

section

variable {b : Board σ μ} {w : World σ μ} {c : Config} {off : UInt32}

def World.became (w : World σ μ) (s : State) : World σ μ := { w with state := s }.refreshIrq

theorem World.hostWrite_irq {s t : State} {offset : Nat} {value : UInt32}
    (hlt : ¬ doorbellBase ≤ offset) (h : s.writeRegister offset value = (.irq, t)) :
    (w.became s).hostWrite b offset value = w.became t := by
  have hwritten : (w.became s).state.writeRegister offset value = (.irq, t) := h
  unfold World.hostWrite World.writeDword
  rw [if_neg hlt, hwritten]
  rfl

theorem World.recover_eq (hs : w.state.Settled) (hoff : off &&& ccEn = 0) (hc : c.Accepted) :
    w.events b (c.recover off) = w.became (c.ready w.state) := by
  have hclear : off &&& ccMask &&& ccEn = 0 := by
    rw [UInt32.and_assoc, UInt32.and_comm ccMask, ← UInt32.and_assoc, hoff, UInt32.zero_and]
  have hdisabled : ∀ s : State, s.cc = off &&& ccMask → ¬ s.Enabled := fun s hcc henabled =>
    henabled (hcc ▸ hclear)
  have hfirst : w.hostWrite b regCc off = (w.became w.state).hostWrite b regCc off := by
    unfold World.hostWrite World.writeDword
    have hdisable := hs.disable hoff
    have hdisable' : (w.became w.state).state.writeRegister regCc off = _ := hdisable
    rw [hdisable, hdisable']
    rfl
  change ((((((w.hostWrite b regCc off).hostWrite b regAqa c.aqa).hostWrite b regAsq
    c.asqLow).hostWrite b regAsqHigh c.asqHigh).hostWrite b regAcq c.acqLow).hostWrite b regAcqHigh
    c.acqHigh).hostWrite b regCc c.cc = _
  rw [hfirst, World.hostWrite_irq (by decide) (hs.disable hoff),
    World.hostWrite_irq (by decide) (State.program (hdisabled _ rfl) _).1,
    World.hostWrite_irq (by decide) (State.program (hdisabled _ rfl) _).2.1,
    World.hostWrite_irq (by decide) (State.program (hdisabled _ rfl) _).2.2.1,
    World.hostWrite_irq (by decide) (State.program (hdisabled _ rfl) _).2.2.2.1,
    World.hostWrite_irq (by decide) (State.program (hdisabled _ rfl) _).2.2.2.2,
    World.hostWrite_irq (by decide) (hc.ready ⟨rfl, rfl, rfl, rfl, setHigh_setLow _ _ _,
      setHigh_setLow _ _ _⟩ (hdisabled _ rfl))]
  rfl

end

/-! ## The admin queue at work -/

/-- No data of a command is written to the controller's own registers. -/
def Command.Quiet (b : Board σ μ) (w : World σ μ) (cmd : Command) : Prop :=
  ∀ len cs, cmd.chunks b w len = .ok cs → ∀ c ∈ cs, ∀ m bytes, b.guest.rings m c.1 bytes = []

/-- Guest memory answers what the command of an admin queue's entry asks of it: the entry can be
read, and its completion written where it goes. -/
def World.Answers (b : Board σ μ) (w : World σ μ) (job : Job) : Prop :=
  ∃ raw, b.guest.read w.guest job.addr sqeLen = some raw ∧ (Command.parse raw).Quiet b w ∧
    ∀ placed, (w.admin b (Command.parse raw)).2.state.place job.cqid = some placed →
      ∀ bytes : Codec.Bytes, bytes.length = cqeLen →
        (b.guest.write (w.admin b (Command.parse raw)).2.guest placed.1.1 bytes).1 = true ∧
        b.guest.rings (w.admin b (Command.parse raw)).2.guest placed.1.1 bytes = []

/-- Guest memory answers for every command that is come to, and the entries of the admin queues
have addresses below `2 ^ 64`. -/
structure World.Open (b : Board σ μ) (w : World σ μ) (c : Config) : Prop where
  fits : (c.state 0).adminSq.Fits ∧ (c.state 0).adminCq.Fits
  answers : ∀ n next, (w.drain b n).state.nextJob = some next →
    { w.drain b n with state := next.2 }.Answers b next.1

/-- So many of the commands up to `tail` have been taken off the admin queue, each of them is
completed or held, and the other queues are empty. -/
structure State.Serving (s : State) (tail taken : Nat) : Prop where
  csts : s.csts &&& (cstsRdy ||| cstsCfs) = cstsRdy
  sq : ∃ sq ∈ s.sq adminSlot, sq.head = taken ∧ sq.tail = tail ∧ tail < sq.entries ∧ sq.cqid = 0
  cq : ∃ cq ∈ s.cq adminSlot, cq.head = 0 ∧ tail < cq.entries ∧ cq.tail + s.aer = taken
  others : ∀ slot ≠ adminSlot, ∀ sq ∈ s.sq slot, sq.head = sq.tail

/-- What an admin command leaves alone; a queue that it makes is empty. -/
structure State.Spares (s t : State) : Prop where
  csts : t.csts = s.csts
  sq : t.sq adminSlot = s.sq adminSlot
  cq : t.cq adminSlot = s.cq adminSlot
  others : ∀ slot ≠ adminSlot, ∀ sq ∈ t.sq slot, sq ∈ s.sq slot ∨ sq.head = sq.tail

section

variable {s t : State}

theorem State.Spares.refl (s : State) : s.Spares s :=
  ⟨rfl, rfl, rfl, fun _ _ _ h => .inl h⟩

theorem State.Spares.update_sq {slot : Slot} (hslot : slot ≠ adminSlot) {new : Option SubQueue}
    (hnew : ∀ sq ∈ new, sq.head = sq.tail) :
    s.Spares { s with sq := Function.update s.sq slot new } := by
  refine ⟨rfl, Function.update_of_ne hslot.symm _ _, rfl, fun other _ sq hsq => ?_⟩
  change sq ∈ Function.update s.sq slot new other at hsq
  by_cases heq : other = slot
  · subst heq
    rw [Function.update_self] at hsq
    exact .inr (hnew sq hsq)
  · rw [Function.update_of_ne heq] at hsq
    exact .inl hsq

theorem State.Spares.update_cq {slot : Slot} (hslot : slot ≠ adminSlot)
    (new : Option CompQueue) : s.Spares { s with cq := Function.update s.cq slot new } :=
  ⟨rfl, rfl, Function.update_of_ne hslot.symm _ _, fun _ _ _ h => .inl h⟩

theorem State.createCq_spares (params : Params) (page : Nat) (cmd : Command) :
    s.Spares (s.createCq params page cmd).2 ∧ (s.createCq params page cmd).2.aer = s.aer := by
  obtain heq | ⟨slot, hslot, -, -, heq⟩ := s.createCq_cases params page cmd
  · rw [heq]
    exact ⟨.refl s, rfl⟩
  · rw [heq]
    exact ⟨.update_cq hslot _, rfl⟩

theorem State.createSq_spares (params : Params) (page : Nat) (cmd : Command) :
    s.Spares (s.createSq params page cmd).2 ∧ (s.createSq params page cmd).2.aer = s.aer := by
  obtain heq | ⟨slot, hslot, -, -, heq⟩ := s.createSq_cases params page cmd
  · rw [heq]
    exact ⟨.refl s, rfl⟩
  · rw [heq]
    refine ⟨.update_sq hslot fun sq hsq => ?_, rfl⟩
    cases hsq
    rfl

theorem State.deleteCq_spares (cmd : Command) :
    s.Spares (s.deleteCq cmd).2 ∧ (s.deleteCq cmd).2.aer = s.aer := by
  obtain heq | ⟨slot, hslot, -, heq⟩ := s.deleteCq_cases cmd
  · rw [heq]
    exact ⟨.refl s, rfl⟩
  · rw [heq]
    exact ⟨.update_cq hslot _, rfl⟩

theorem State.deleteSq_spares (cmd : Command) :
    s.Spares (s.deleteSq cmd).2 ∧ (s.deleteSq cmd).2.aer = s.aer := by
  obtain heq | ⟨slot, hslot, heq⟩ := s.deleteSq_cases cmd
  · rw [heq]
    exact ⟨.refl s, rfl⟩
  · rw [heq]
    exact ⟨.update_sq hslot fun _ hsq => (nomatch hsq), rfl⟩

theorem State.Serving.nextJob {tail taken : Nat} (h : s.Serving tail taken) (hlt : taken < tail) :
    ∃ job t, s.nextJob = some (job, t) ∧ job.sqid = adminSlot ∧ job.cqid = 0 ∧
      t.csts = s.csts ∧ t.cq = s.cq ∧ t.aer = s.aer ∧
      (∃ sq ∈ t.sq adminSlot, sq.head = taken + 1 ∧ sq.tail = tail ∧ tail < sq.entries ∧
        sq.cqid = 0) ∧ ∀ slot ≠ adminSlot, t.sq slot = s.sq slot := by
  obtain ⟨sq, hsq, hhead, htail, hentries, hcqid⟩ := h.sq
  obtain ⟨cq, hcq, hcqHead, hcqEntries, hcqTail⟩ := h.cq
  have hroom : cq.HasRoom := by
    refine ⟨by omega, ?_⟩
    rw [Nat.mod_eq_of_lt (by omega), hcqHead]
    omega
  have hwork : s.HasWork sq := by
    refine ⟨by omega, cq, ?_, hroom⟩
    rw [hcqid]
    exact hcq
  have hpick : s.pick = some (adminSlot, sq) := by
    unfold State.pick
    rw [if_neg (not_not.mpr h.csts)]
    change (adminSlot :: _).findSome? _ = _
    rw [List.findSome?_cons, Option.mem_def.mp hsq, Option.bind_some, if_pos hwork]
  have hnext : (sq.head + 1) % sq.entries = taken + 1 := by
    rw [Nat.mod_eq_of_lt (by omega), hhead]
  refine ⟨_, _, congrArg (Option.map _) hpick, rfl, hcqid, rfl, rfl, rfl,
    ⟨{ sq with head := (sq.head + 1) % sq.entries }, ?_, hnext, htail, hentries, hcqid⟩,
    fun slot hslot => Function.update_of_ne hslot _ _⟩
  exact Function.update_self adminSlot _ s.sq

theorem State.Serving.nextJob_none {tail : Nat} (h : s.Serving tail tail) : s.nextJob = none := by
  cases hnext : s.nextJob with
  | none => rfl
  | some next =>
    obtain ⟨-, sq, hsq, ⟨hwaiting, -⟩, -⟩ := State.nextJob_cases hnext
    by_cases hslot : next.1.sqid = adminSlot
    · obtain ⟨sq', hsq', hhead, htail, -⟩ := h.sq
      rw [hslot] at hsq
      obtain rfl := Option.mem_unique hsq hsq'
      exact absurd (.inl (hhead.trans htail.symm)) hwaiting
    · exact absurd (.inl (h.others _ hslot sq hsq)) hwaiting

theorem State.place_of_room {cq : CompQueue} (hcq : cq ∈ s.cq adminSlot) (hroom : cq.HasRoom) :
    s.place 0 = some ((cq.base + cq.tail * cqeLen, cq.phase),
      { s with cq := Function.update s.cq adminSlot (some cq.advance) }) := by
  unfold State.place
  have hslot : slot? 0 = some adminSlot := by decide
  rw [hslot]
  dsimp only
  rw [Option.mem_def.mp hcq]
  exact if_pos hroom

end

section

variable {b : Board σ μ} {w : World σ μ}

theorem World.writeGuest_quiet {at_ : Nat} {bytes : Codec.Bytes}
    (hquiet : ∀ m bytes, b.guest.rings m at_ bytes = []) :
    (w.writeGuest b at_ bytes).2.state = w.state := by
  unfold World.writeGuest
  rw [hquiet]
  rfl

theorem World.scatterChunks_quiet {cs : List Chunk} {data : Codec.Bytes}
    (hquiet : ∀ c ∈ cs, ∀ m bytes, b.guest.rings m c.1 bytes = []) :
    (w.scatterChunks b cs data).2.state = w.state := by
  induction cs generalizing w data with
  | nil => rfl
  | cons c cs ih =>
    obtain ⟨hfirst, hrest⟩ := List.forall_mem_cons.mp hquiet
    have hstate : (w.writeGuest b c.1 (data.take c.2)).2.state = w.state :=
      World.writeGuest_quiet hfirst
    rw [World.scatterChunks]
    split
    · rw [ih hrest, hstate]
    · exact hstate

theorem World.scatter_quiet {cmd : Command} (hquiet : cmd.Quiet b w) {data : Codec.Bytes} :
    (w.scatter b cmd data w.state.page).2.state = w.state := by
  unfold World.scatter
  cases hchunks : prpChunks (w.entries b) cmd.prp1.toNat cmd.prp2.toNat data.length w.state.page with
  | error status => rfl
  | ok cs => exact World.scatterChunks_quiet (hquiet _ cs hchunks)

theorem World.identify_quiet {cmd : Command} (hquiet : cmd.Quiet b w) :
    (w.identify b cmd).2.state = w.state := by
  unfold World.identify
  dsimp only
  split
  · rfl
  split
  · split
    · rfl
    · exact World.scatter_quiet hquiet
  split
  · exact World.scatter_quiet hquiet
  split
  · exact World.scatter_quiet hquiet
  split
  · split
    · rfl
    · exact World.scatter_quiet hquiet
  · rfl

theorem World.getLogPage_quiet {cmd : Command} (hquiet : cmd.Quiet b w) :
    (w.getLogPage b cmd).2.state = w.state := by
  unfold World.getLogPage
  dsimp only
  split
  · rfl
  split
  · rfl
  split
  · rfl
  · exact World.scatter_quiet hquiet

/-- The queues are as they were, and a command unanswered is one kept for an event. -/
def Replies (s : State) (done : Option Status × World σ μ) : Prop :=
  s.Spares done.2.state ∧ done.2.state.aer = s.aer + (if done.1.isSome then 0 else 1)

theorem Replies.or {s : State} {c : Prop} [Decidable c] {x y : Option Status × World σ μ}
    (hx : Replies s x) (hy : Replies s y) : Replies s (if c then x else y) := by
  split
  · exact hx
  · exact hy

theorem Replies.of_state {status : Status} {v : World σ μ} (h : v.state = w.state) :
    Replies w.state (some status, v) := by
  unfold Replies
  rw [h]
  exact ⟨.refl _, rfl⟩

theorem World.admin_replies {cmd : Command} (hquiet : cmd.Quiet b w) :
    Replies w.state (w.admin b cmd) := by
  have hasync : Replies w.state (w.state.asyncEvent.1.map fun status => (status, (0 : UInt32)),
      { w with state := w.state.asyncEvent.2 }) := by
    unfold State.asyncEvent
    split
    · exact ⟨.refl _, rfl⟩
    · exact ⟨⟨rfl, rfl, rfl, fun _ _ _ h => .inl h⟩, rfl⟩
  exact .or (State.createCq_spares b.params w.state.page cmd) <|
    .or (State.createSq_spares b.params w.state.page cmd) <|
    .or (State.deleteCq_spares cmd) <| .or (State.deleteSq_spares cmd) <|
    .or (.of_state (World.identify_quiet hquiet)) <| .or (.of_state rfl) <|
    .or (.of_state rfl) <| .or (.of_state (World.getLogPage_quiet hquiet)) <|
    .or (.of_state rfl) <| .or hasync (.of_state rfl)

theorem length_completion (job : Job) (phase : Bool) (cid status : UInt16) (dw0 : UInt32) :
    (completion job phase cid status dw0).length = cqeLen := by
  rfl

theorem World.complete_posted {job : Job} {placed : (Nat × Bool) × State}
    (hplace : w.state.place job.cqid = some placed)
    (hpost : ∀ bytes : Codec.Bytes, bytes.length = cqeLen →
      (b.guest.write w.guest placed.1.1 bytes).1 = true ∧
        b.guest.rings w.guest placed.1.1 bytes = []) (cid : UInt16) (done : Status) :
    (w.complete b job cid done).state = placed.2 := by
  obtain ⟨hok, hrings⟩ := hpost _ (length_completion job placed.1.2 cid done.1 done.2)
  unfold World.complete
  rw [hplace]
  dsimp only
  unfold World.writeGuest
  rw [hrings, if_pos hok]
  rfl

theorem World.execute_serving {c : Config} {tail taken : Nat} (hopen : w.Open b c)
    (h : w.state.Serving tail taken) (hlt : taken < tail) :
    ∃ next, w.state.nextJob = some next ∧
      ({ w with state := next.2 }.execute b next.1).state.Serving tail (taken + 1) := by
  obtain ⟨job, t, hnext, hsqid, hcqid, hcsts, hcq, haer, hsq, hothers⟩ := h.nextJob hlt
  refine ⟨_, hnext, ?_⟩
  obtain ⟨cq, hmem, hhead, hentries, htail⟩ := h.cq
  have hanswers : { w with state := t }.Answers b job := hopen.answers 0 _ hnext
  obtain ⟨raw, hraw, hquiet, hpost⟩ := hanswers
  dsimp only at hraw
  unfold World.execute
  dsimp only
  rw [hraw]
  dsimp only
  rw [if_pos hsqid]
  obtain ⟨hspares, hheld⟩ := World.admin_replies hquiet
  generalize World.admin b { w with state := t } (Command.parse raw) = done at hspares hheld hpost ⊢
  have hthere : cq ∈ done.2.state.cq adminSlot := by
    rw [hspares.cq]
    exact hcq ▸ hmem
  have hdone : done.2.state.csts &&& (cstsRdy ||| cstsCfs) = cstsRdy :=
    (congrArg (· &&& _) (hspares.csts.trans hcsts)).trans h.csts
  have hqueue : ∃ sq ∈ done.2.state.sq adminSlot, sq.head = taken + 1 ∧ sq.tail = tail ∧
      tail < sq.entries ∧ sq.cqid = 0 := by
    rw [hspares.sq]
    exact hsq
  have hempty : ∀ slot ≠ adminSlot, ∀ sq ∈ done.2.state.sq slot, sq.head = sq.tail := by
    intro slot hslot sq hsq
    obtain hold | hnew := hspares.others slot hslot sq hsq
    · rw [hothers slot hslot] at hold
      exact h.others slot hslot sq hold
    · exact hnew
  cases hstatus : done.1 with
  | none =>
    rw [hstatus] at hheld
    refine ⟨hdone, hqueue, ⟨cq, hthere, hhead, hentries, ?_⟩, hempty⟩
    rw [hheld, haer]
    exact congrArg (· + 1) htail
  | some status =>
    rw [hstatus] at hheld
    have hroom : cq.HasRoom := by
      refine ⟨by omega, ?_⟩
      rw [Nat.mod_eq_of_lt (by omega), hhead]
      omega
    have hadvance : cq.advance = { cq with tail := cq.tail + 1 } :=
      if_neg (by omega)
    have hplace := State.place_of_room hthere hroom
    rw [← hcqid] at hplace
    rw [World.complete_posted hplace (hpost _ hplace), hadvance]
    refine ⟨hdone, hqueue, ⟨{ cq with tail := cq.tail + 1 }, ?_, hhead, hentries, ?_⟩, hempty⟩
    · exact Function.update_self adminSlot _ done.2.state.cq
    rw [hheld, haer]
    simp only [Option.isSome_some, if_true]
    omega

theorem World.Open.next {c : Config} (h : w.Open b c) {next : Job × State}
    (hnext : w.state.nextJob = some next) :
    ({ w with state := next.2 }.execute b next.1).Open b c where
  fits := h.fits
  answers n next' hnext' := by
    have hdrain : w.drain b (n + 1) =
        World.drain b n ({ w with state := next.2 }.execute b next.1) := by
      rw [World.drain, hnext]
    exact hdrain ▸ h.answers (n + 1) next' (hdrain ▸ hnext')

theorem World.drain_serving {c : Config} {tail taken budget : Nat} (hopen : w.Open b c)
    (h : w.state.Serving tail taken) (hle : taken ≤ tail) (hbudget : tail ≤ taken + budget) :
    (w.drain b budget).state.Serving tail tail := by
  induction budget generalizing w taken with
  | zero =>
    obtain rfl : taken = tail := by omega
    exact h
  | succ budget ih =>
    rw [World.drain]
    by_cases hlt : taken < tail
    · obtain ⟨next, hnext, hserving⟩ := World.execute_serving hopen h hlt
      rw [hnext]
      exact ih (hopen.next hnext) hserving hlt (by omega)
    · obtain rfl : taken = tail := by omega
      rw [h.nextJob_none]
      exact h

end

/-! ## Recovery -/

section

variable {b : Board σ μ} {w : World σ μ} {c : Config} {off : UInt32}

/-- The sequence recovers the controller: the world is the one that it leads to on a controller
fresh from power-on, also after whatever happens next, and what is rung on the admin queue is
executed and completed. -/
structure World.Recovers (b : Board σ μ) (w : World σ μ) (off : UInt32) (c : Config) : Prop where
  behaves : ∀ es, w.events b (c.recover off ++ es) = w.fresh.events b (c.recover off ++ es)
  serves : w.master = true → ∀ tail : UInt32,
    tail.toNat < (c.state 0).asqs → tail.toNat < (c.state 0).acqs →
    ∃ rung, (w.events b (c.recover off)).state.doorbell doorbellBase tail = some rung ∧
      ({ w.events b (c.recover off) with state := rung.2 }.Open b c →
        ((w.events b (c.recover off)).hostWrite b doorbellBase tail).state.Serving
          tail.toNat tail.toNat)

theorem World.events_append (b : Board σ μ) (w : World σ μ) (es es' : List (Event σ)) :
    w.events b (es ++ es') = (w.events b es).events b es' := List.foldl_append

theorem State.Settled.left_eq {s : State} (h : s.Settled) : s.left = s.csts &&& cstsCfs := by
  unfold State.left
  rw [← h.csts, UInt32.and_assoc, UInt32.and_assoc]
  rfl

theorem State.ring_admin {s : State} (hready : s.Ready) {sq : SubQueue}
    (hsq : sq ∈ s.sq adminSlot) {tail : UInt32} (htail : tail.toNat < sq.entries) :
    s.doorbell doorbellBase tail = some (.run,
      { s with sq := Function.update s.sq adminSlot (some { sq with tail := tail.toNat }) }) := by
  unfold State.doorbell
  have hslot : slot? ((doorbellBase - doorbellBase) / doorbellStride / 2) = some adminSlot := by
    decide
  dsimp only
  rw [if_neg (by decide), hslot]
  dsimp only
  rw [if_neg (not_not.mpr hready), if_neg (by decide), Option.mem_def.mp hsq]
  exact if_neg (Nat.not_le.mpr htail)

theorem World.run_serving {tail : Nat} (hopen : w.Open b c) (hmaster : w.master = true)
    (h : w.state.Serving tail 0) (htail : tail < maxAdminEntries) :
    (w.run b).state.Serving tail tail := by
  have hbudget : maxAdminEntries ≤ maxCommandsPerRun := by decide
  unfold World.run
  rw [if_pos hmaster]
  exact World.drain_serving hopen h (Nat.zero_le _) (by omega)

theorem World.serves_of_clear (hs : w.state.left = 0) (hmaster : w.master = true)
    (hc : c.Accepted) {tail : UInt32} (hasqs : tail.toNat < (c.state 0).asqs)
    (hacqs : tail.toNat < (c.state 0).acqs) :
    ∃ rung, (w.became (c.ready w.state)).state.doorbell doorbellBase tail = some rung ∧
      ({ w.became (c.ready w.state) with state := rung.2 }.Open b c →
        ((w.became (c.ready w.state)).hostWrite b doorbellBase tail).state.Serving
          tail.toNat tail.toNat) := by
  have hcsts : (c.ready w.state).csts = cstsRdy := by
    change w.state.left ||| cstsRdy = _
    rw [hs, UInt32.zero_or]
  have hready : (c.ready w.state).Ready := by
    unfold State.Ready
    rw [hcsts]
    decide
  have hsq : (c.ready w.state).sq adminSlot = some (c.state w.state.intms).adminSq := rfl
  have hcq : (c.ready w.state).cq adminSlot = some (c.state w.state.intms).adminCq := rfl
  have hring : (w.became (c.ready w.state)).state.doorbell doorbellBase tail = some (.run, _) :=
    State.ring_admin hready hsq hasqs
  have hmost : (c.state 0).asqs ≤ maxAdminEntries := hc.2.2.2.2.2.2.2.2.1
  have htail := Nat.lt_of_lt_of_le hasqs hmost
  refine ⟨_, hring, fun hopen => ?_⟩
  unfold World.hostWrite World.writeDword
  rw [if_pos (Nat.le_refl _), hring]
  refine World.run_serving hopen hmaster ?_ htail
  refine ⟨?_, ⟨{ (c.state w.state.intms).adminSq with tail := tail.toNat }, rfl, rfl, rfl, hasqs,
    rfl⟩, ⟨_, hcq, rfl, hacqs, rfl⟩, ?_⟩
  · rw [hcsts]
    decide
  · intro slot hslot sq hsq
    change sq ∈ Function.update (Function.update (fun _ => none) adminSlot _) adminSlot _ slot
      at hsq
    rw [Function.update_of_ne hslot, Function.update_of_ne hslot] at hsq
    cases hsq

/-- **A controller recovers exactly if `CFS` is clear**, from every state it can be in. -/
theorem recovers_iff (hw : w.Reached b) (hoff : off &&& ccEn = 0) (hc : c.Accepted) :
    w.Recovers b off c ↔ w.state.csts &&& cstsCfs = 0 := by
  have hfresh : w.fresh.state.Settled :=
    ⟨fun _ => ⟨rfl, rfl, rfl, UInt32.zero_and⟩, UInt32.zero_and⟩
  have hnone : w.fresh.state.left = 0 := UInt32.zero_and
  have hrecovered := World.recover_eq (b := b) hw.settled hoff hc
  have hrecoveredFresh := World.recover_eq (b := b) hfresh hoff hc
  rw [← hw.settled.left_eq]
  constructor
  · intro h
    have hsame := h.behaves []
    rw [List.append_nil, hrecovered, hrecoveredFresh] at hsame
    have hcsts : w.state.left ||| cstsRdy = w.fresh.state.left ||| cstsRdy :=
      congrArg (fun w => w.state.csts) hsame
    have hcut : (w.state.left ||| cstsRdy) &&& cstsCfs = w.state.left := by
      rw [or_and_distrib, hw.settled.left_eq, masked_self]
      exact UInt32.or_zero
    rw [← hcut, hcsts, hnone]
    decide
  · intro hclear
    have hsame : w.events b (c.recover off) = w.fresh.events b (c.recover off) := by
      rw [hrecovered, hrecoveredFresh]
      unfold World.became Config.ready
      rw [hclear, hnone]
      rfl
    refine ⟨fun es => ?_, fun hmaster tail hasqs hacqs => ?_⟩
    · rw [World.events_append, World.events_append, hsame]
    · rw [hrecovered]
      exact World.serves_of_clear hclear hmaster hc hasqs hacqs

end

def twoEntries : Config where
  aqa := 0x00010001
  asqLow := 0x1000
  asqHigh := 0
  acqLow := 0x2000
  acqHigh := 0
  cc := 0x00460001

/-- The controller that a command has been rung on, after the sequence. -/
def rungWorld : World Memory Memory :=
  let w := idleWorld.events oneBlock (twoEntries.recover 0)
  { w with state := ((w.state.doorbell doorbellBase 1).map (·.2)).getD w.state }

theorem rungWorld_open : rungWorld.Open oneBlock twoEntries := by
  have hread : ∀ first ∈ rungWorld.state.nextJob,
      (rungWorld.guest.read first.1.addr sqeLen).isSome = true := by decide +kernel
  have hpost : ∀ first ∈ rungWorld.state.nextJob,
      ∀ raw ∈ rungWorld.guest.read first.1.addr sqeLen, ∀ placed ∈
        (World.admin oneBlock { rungWorld with state := first.2 }
          (Command.parse raw)).2.state.place first.1.cqid,
        ((World.admin oneBlock { rungWorld with state := first.2 }
          (Command.parse raw)).2.guest.read placed.1.1 cqeLen).isSome = true := by decide +kernel
  have hdone : ∀ first ∈ rungWorld.state.nextJob,
      ({ rungWorld with state := first.2 }.execute oneBlock first.1).state.nextJob = none := by
    decide +kernel
  refine ⟨by decide, fun n next hnext => ?_⟩
  cases n with
  | zero =>
    obtain ⟨raw, hraw⟩ := Option.isSome_iff_exists.mp (hread next hnext)
    refine ⟨raw, hraw, fun _ _ _ _ _ _ _ => rfl, fun placed hplaced bytes hlen => ⟨?_, rfl⟩⟩
    have hcell := hpost next hnext raw hraw placed hplaced
    rw [← hlen] at hcell
    exact congrArg Prod.fst (if_pos hcell)
  | succ n =>
    -- nothing is left behind the first
    cases hfirst : rungWorld.state.nextJob with
    | none =>
      rw [World.drain, hfirst] at hnext
      cases hfirst.symm.trans hnext
    | some first =>
      have hstuck := hdone first hfirst
      rw [World.drain, hfirst] at hnext
      dsimp only at hnext
      cases n with
      | zero => cases hstuck.symm.trans hnext
      | succ n =>
        rw [World.drain, hstuck] at hnext
        cases hstuck.symm.trans hnext

/-- A command that is rung after it is completed. -/
theorem recovers_iff_idle : idleWorld.Recovers oneBlock 0 twoEntries ∧
    ((idleWorld.events oneBlock (twoEntries.recover 0)).hostWrite oneBlock doorbellBase
      1).state.Serving 1 1 := by
  have hrecovers : idleWorld.Recovers oneBlock 0 twoEntries :=
    (recovers_iff ⟨idleWorld, [], rfl, rfl⟩ rfl (by decide)).mpr (by decide)
  obtain ⟨rung, hrung, hserves⟩ := hrecovers.serves rfl 1 (by decide) (by decide)
  have hopen := rungWorld_open
  unfold rungWorld at hopen
  dsimp only at hopen
  rw [hrung] at hopen
  exact ⟨hrecovers, hserves hopen⟩

def refusedEnable : World Memory Memory := idleWorld.events oneBlock [.write regCc 1]

/-- The refusal outlives the sequence: the status says so, and a command that is rung stays where
it is. -/
theorem refusedEnable_not_recovered :
    twoEntries.Accepted ∧ refusedEnable.Reached oneBlock ∧
    (refusedEnable.events oneBlock (twoEntries.recover 0)).state.csts = cstsRdy ||| cstsCfs ∧
    (refusedEnable.fresh.events oneBlock (twoEntries.recover 0)).state.csts = cstsRdy ∧
    ((refusedEnable.events oneBlock (twoEntries.recover 0)).hostWrite oneBlock doorbellBase
      1).state.sq adminSlot = some ⟨0x1000, 2, 0, 1, 0⟩ ∧
    ¬ refusedEnable.Recovers oneBlock 0 twoEntries := by
  have hfatal : (refusedEnable.events oneBlock (twoEntries.recover 0)).state.csts =
      cstsRdy ||| cstsCfs := by decide +kernel
  have hready : (refusedEnable.fresh.events oneBlock (twoEntries.recover 0)).state.csts =
      cstsRdy := by decide +kernel
  refine ⟨by decide, ⟨idleWorld, _, rfl, rfl⟩, hfatal, hready, by decide +kernel, fun h => ?_⟩
  have hsame := congrArg (fun w => w.state.csts) (h.behaves [])
  cases hsame

/-! ## A controller that failed -/

/-- `CFS` is set. -/
def State.Failed (s : State) : Prop := s.csts.toBitVec.getLsbD 1 = true

/-- What an event leaves in guest memory when the controller writes nothing. -/
def Event.leaves (guest : σ) : Event σ → σ
  | .memory guest => guest
  | _ => guest

section

variable {b : Board σ μ} {w : World σ μ} {s : State}

theorem State.Failed.fatal (h : s.Failed) : s.fatal.Failed := by
  simp_all [State.Failed, State.fatal]

theorem State.Failed.writeCc (h : s.Failed) (value : UInt32) : (s.writeCc value).2.Failed := by
  have hreset : ∀ cc, ({ s with cc := cc } : State).controllerReset.Failed := by
    simp_all [State.Failed, State.controllerReset, cstsRdy, cstsShstMask]
  have henable : ∀ cc, ({ s with cc := cc } : State).enable.Failed := by
    intro cc
    unfold State.enable
    split
    · simp_all [State.Failed]
    · exact State.Failed.fatal h
  unfold State.writeCc
  dsimp only
  split
  · split
    · exact hreset _
    · exact h
  · split
    · exact h
    · exact henable _

theorem State.Failed.writeRegister (h : s.Failed) (offset : Nat) (value : UInt32) :
    (s.writeRegister offset value).2.Failed := by
  obtain ⟨-, heq⟩ | ⟨-, t, heq, -, -, -, hcsts, -⟩ := s.writeRegister_cases offset value
  · rw [heq]
    exact h.writeCc value
  · rw [heq]
    unfold State.Failed
    rwa [hcsts]

theorem State.Failed.doorbell (h : s.Failed) {offset : Nat} {value : UInt32} {after : After}
    {t : State} (hring : s.doorbell offset value = some (after, t)) : t.Failed := by
  obtain ⟨-, rfl | ⟨qid, cq, -, -, rfl⟩ | ⟨qid, sq, -, -, rfl⟩⟩ := State.doorbell_cases hring
  · exact h.fatal
  · exact h
  · exact h

theorem State.Failed.nextJob (h : s.Failed) : s.nextJob = none := by
  have hcsts : s.csts &&& (cstsRdy ||| cstsCfs) ≠ cstsRdy := by
    intro heq
    have hbit := congrArg (fun c : UInt32 => c.toBitVec.getLsbD 1) heq
    clear heq
    simp_all [State.Failed, cstsRdy, cstsCfs]
  rw [State.nextJob, State.pick, if_pos hcsts]
  rfl

/-- Failed, with nothing moved between memory and medium on the way there. -/
structure World.Stopped (b : Board σ μ) (w v : World σ μ) : Prop where
  failed : v.state.Failed
  guest : v.guest = w.guest
  medium : ∃ n, v.medium = (fun m => (b.media.flush m).2)^[n] w.medium

theorem World.run_failed (h : w.state.Failed) : w.run b = w := by
  unfold World.run
  split
  · unfold maxCommandsPerRun World.drain
    split
    · rfl
    · rw [h.nextJob]
  · rfl

theorem World.after_stopped (h : w.state.Failed) (a : After) :
    w.Stopped b (w.after b (World.run b) a) := by
  cases a with
  | irq => exact ⟨h, rfl, 0, rfl⟩
  | run =>
    change w.Stopped b (w.run b).refreshIrq
    rw [World.run_failed h]
    exact ⟨h, rfl, 0, rfl⟩
  | shutdown =>
    refine ⟨?_, rfl, 1, rfl⟩
    change (w.state.shutDown (b.media.flush w.medium).1).Failed
    unfold State.shutDown
    split <;> simp_all [State.Failed, State.fatal, cstsShstMask]

theorem World.hostWrite_stopped (h : w.state.Failed) (offset : Nat) (value : UInt32) :
    w.Stopped b (w.hostWrite b offset value) := by
  have hafter : ∀ (s : State) (a : After), s.Failed →
      w.Stopped b ({ w with state := s }.after b (World.run b) a) := fun s a hs =>
    let stopped := World.after_stopped (w := { w with state := s }) hs a
    ⟨stopped.failed, stopped.guest, stopped.medium⟩
  unfold World.hostWrite World.writeDword
  split
  · split
    · exact ⟨h, rfl, 0, rfl⟩
    · rename_i hring
      exact hafter _ _ (h.doorbell hring)
  · exact hafter _ _ (h.writeRegister offset value)

/-- **A controller that failed is out of the machine's way**: whatever is written to it, until it
is powered up again it writes no guest memory and asks nothing of its medium but to flush. -/
theorem failed_stops (h : w.state.Failed) {es : List (Event σ)} (hes : Event.reset ∉ es) :
    (w.events b es).state.Failed ∧ (w.events b es).guest = es.foldl Event.leaves w.guest ∧
    ∃ n, (w.events b es).medium = (fun m => (b.media.flush m).2)^[n] w.medium := by
  induction es generalizing w with
  | nil => exact ⟨h, rfl, 0, rfl⟩
  | cons e es ih =>
    have hes' : Event.reset ∉ es := fun hmem => hes (List.mem_cons_of_mem _ hmem)
    cases e with
    | write offset value =>
      obtain ⟨hfailed, hguest, n, hmedium⟩ := World.hostWrite_stopped (b := b) h offset value
      obtain ⟨hfailed', hguest', n', hmedium'⟩ := ih hfailed hes'
      refine ⟨hfailed', hguest'.trans (congrArg (es.foldl Event.leaves) hguest), n' + n, ?_⟩
      rw [Function.iterate_add_apply, ← hmedium]
      exact hmedium'
    | memory guest => exact ih h hes'
    | setMaster enabled => exact ih h hes'
    | reset => exact absurd List.mem_cons_self hes

end

/-- The refused enable, then the whole recovery sequence and a doorbell. -/
theorem failed_stops_refused :
    (refusedEnable.events oneBlock (twoEntries.recover 0 ++ [.write doorbellBase 1])).guest =
      refusedEnable.guest :=
  (failed_stops (w := refusedEnable) (show refusedEnable.state.csts.toBitVec.getLsbD 1 = true by
    decide +kernel) (by simp [Config.recover, Config.writes])).2.1

end Rsemu.Nvme
