import Rsemu.Pic.Cascade

/-!
# What strands a request

Between operations the master's IR2 pin is the slave's `INT`. `Wired` is that, with the few
registers the wiring rests on, and every later operation keeps it. A request is then lost in
one way: the master takes IR2, which consumes the latch, and the slave keeps the wire up, so
that no edge follows.
-/

namespace Rsemu.Pic

open Arbiter State

namespace Pair

/-- **The pair is wired and initialised.** -/
structure Wired (p : Pair) : Prop where
  /-- ICW3 names the slave's input. -/
  icw3 : Byte.has p.master.icw3 2 = true
  /-- The input senses edges. -/
  edge : p.master.lineIsLevel 2 = false
  /-- Its pin is the slave's output. -/
  pin : Byte.has p.master.pinLevel 2 = p.slave.int
  masterReady : p.master.initStep = 0
  slaveReady : p.slave.initStep = 0
  masterUnarmed : p.master.pollArmed = false
  slaveUnarmed : p.slave.pollArmed = false
  /-- Under automatic EOI nothing is ever in service. -/
  idle : p.slave.autoEoi = true → p.slave.isr = 0

/-- While the slave interrupts, the master holds a request on line 2. -/
def Latched (p : Pair) : Prop := p.slave.int = true → Byte.has p.master.irr 2 = true

theorem requested_iff (p : Pair) : p.Requested ↔ p.Latched := by
  constructor
  · intro h hint
    rcases h hint with hirr | ⟨_, heoi⟩
    · exact hirr
    · -- the specific EOI of level 2
      have := heoi 0x62 (by unfold IsEoi; decide)
      have hcmd : p.master.writeCommand 0x62 = p.master.retire 2 := rfl
      rw [hcmd] at this
      exact this (by simp [retire])
  · exact fun h hint => Or.inl (h hint)

variable {p : Pair}

theorem drive_wired {s : State} (h : Byte.has p.master.icw3 2 = true)
    (hedge : p.master.lineIsLevel 2 = false) (hmaster : p.master.initStep = 0)
    (hunarmed : p.master.pollArmed = false) (hslave : s.initStep = 0)
    (hslaveUnarmed : s.pollArmed = false) (hidle : s.autoEoi = true → s.isr = 0) :
    (drive { p with slave := s }).Wired where
  icw3 := h
  edge := hedge
  pin := by simp [drive, has_setPin_pinLevel]
  masterReady := hmaster
  slaveReady := hslave
  masterUnarmed := hunarmed
  slaveUnarmed := hslaveUnarmed
  idle := hidle

theorem drive_latched {s : State} (h : p.Wired) (hl : p.Latched) :
    (drive { p with slave := s }).Latched := by
  intro hint
  have hint' : s.int = true := hint
  have hirr := has_setPin_irr_of_edge p.master 2 s.int h.edge
  unfold drive
  rw [hirr, hint']
  cases hwas : p.slave.int with
  | true => simp [hl hwas]
  | false => simp [h.pin, hwas]

theorem Wired.slave {s : State} (h : p.Wired) (hinit : s.initStep = 0) (hpoll : s.pollArmed = false)
    (hidle : s.autoEoi = true → s.isr = 0) : (drive { p with slave := s }).Wired :=
  drive_wired h.icw3 h.edge h.masterReady h.masterUnarmed hinit hpoll hidle

theorem Wired.master {m : State} (h : p.Wired) (hicw3 : m.icw3 = p.master.icw3)
    (hlevel : m.lineIsLevel 2 = p.master.lineIsLevel 2)
    (hpin : Byte.has m.pinLevel 2 = Byte.has p.master.pinLevel 2)
    (hinit : m.initStep = p.master.initStep) (hpoll : m.pollArmed = p.master.pollArmed) :
    ({ p with master := m } : Pair).Wired where
  icw3 := hicw3.symm ▸ h.icw3
  edge := hlevel.trans h.edge
  pin := hpin.trans h.pin
  masterReady := hinit.trans h.masterReady
  slaveReady := h.slaveReady
  masterUnarmed := hpoll.trans h.masterUnarmed
  slaveUnarmed := h.slaveUnarmed
  idle := h.idle

theorem latched_master {m : State} (hl : p.Latched)
    (hirr : Byte.has m.irr 2 = Byte.has p.master.irr 2) :
    ({ p with master := m } : Pair).Latched := fun hint => hirr.trans (hl hint)

section Taking

variable {s : State}

theorem takeRequest_eq_taken {line : Level} (h : s.resolve = some line) :
    s.takeRequest.1 = s.taken line := by
  unfold takeRequest
  rw [h]
  rfl

theorem takeRequest_eq_self (h : s.resolve = none) : s.takeRequest.1 = s := by
  unfold takeRequest
  rw [h]
  rfl

theorem takeRequest_frame (s : State) :
    s.takeRequest.1 =
      { s with
        irr := s.takeRequest.1.irr, isr := s.takeRequest.1.isr
        priorityBase := s.takeRequest.1.priorityBase } := by
  cases hr : s.resolve with
  | none => rw [takeRequest_eq_self hr]
  | some line => rw [takeRequest_eq_taken hr, taken_eq]

theorem takeRequest_idle (h : s.autoEoi = true → s.isr = 0) :
    s.takeRequest.1.autoEoi = true → s.takeRequest.1.isr = 0 := by
  cases hr : s.resolve with
  | none => rwa [takeRequest_eq_self hr]
  | some line =>
    rw [takeRequest_eq_taken hr, taken_eq]
    intro hauto
    have hauto' : s.autoEoi = true := hauto
    exact (if_pos hauto').trans (h hauto')

theorem takeRequest_irr_of_ne (hne : s.resolve ≠ some 2) :
    Byte.has s.takeRequest.1.irr 2 = Byte.has s.irr 2 := by
  cases hr : s.resolve with
  | none => rw [takeRequest_eq_self hr]
  | some line =>
    have hline : (2 : Level) ≠ line := fun h => hne (hr.trans (congrArg some h.symm))
    rw [takeRequest_eq_taken hr, taken_eq]
    split
    · rfl
    · simp [hline]

theorem takeRequest_irr_of_eq (hr : s.resolve = some 2) (hedge : s.lineIsLevel 2 = false) :
    Byte.has s.takeRequest.1.irr 2 = false := by
  rw [takeRequest_eq_taken hr, taken_eq]
  simp [hedge]

end Taking

theorem acknowledge_of_delegated (h : p.Wired) (hr : p.master.resolve = some 2) :
    p.acknowledge =
      (drive ⟨p.master.takeRequest.1, p.slave.takeRequest.1⟩, p.slave.vector p.slave.resolve) := by
  unfold acknowledge
  rw [if_pos ⟨hr, by simp [cascades, h.icw3]⟩]
  rfl

theorem acknowledge_of_own (hr : p.master.resolve ≠ some 2) :
    p.acknowledge.1 = { p with master := p.master.takeRequest.1 } := by
  unfold acknowledge
  rw [if_neg (fun h => hr h.1)]

theorem int_of_takeRequest {s : State} (h : s.takeRequest.1.int = true) : s.int = true := by
  cases hr : s.resolve with
  | none => rwa [takeRequest_eq_self hr] at h
  | some line =>
    unfold int
    rw [hr]
    rfl

theorem step_inta (h : p.Wired) (hl : p.Latched) :
    (p.step .inta).Wired ∧ ((p.step .inta).Latched ↔ p.Spares .inta) := by
  have hstep : p.step .inta = p.acknowledge.1 := rfl
  by_cases hr : p.master.resolve = some 2
  · rw [hstep, acknowledge_of_delegated h hr]
    have hm := takeRequest_frame p.master
    have hs := takeRequest_frame p.slave
    have hedge : p.master.takeRequest.1.lineIsLevel 2 = false := by
      rw [hm]
      exact h.edge
    constructor
    · refine drive_wired (p := ⟨p.master.takeRequest.1, p.slave⟩) (s := p.slave.takeRequest.1)
        ?_ hedge ?_ ?_ ?_ ?_ (takeRequest_idle h.idle)
      · rw [hm]; exact h.icw3
      · rw [hm]; exact h.masterReady
      · rw [hm]; exact h.masterUnarmed
      · rw [hs]; exact h.slaveReady
      · rw [hs]; exact h.slaveUnarmed
    · have hspares : p.Spares .inta ↔ ¬ p.slave.Lingers :=
        ⟨fun hsp => hsp rfl hr, fun hsp _ _ => hsp⟩
      rw [hspares, ← int_takeRequest_iff h.idle]
      constructor
      · intro hlatched hint
        -- the wire was up and stays up: no edge, and the latch has just been consumed
        have hup : Byte.has p.master.takeRequest.1.pinLevel 2 = true := by
          rw [hm, h.pin]
          exact int_of_takeRequest hint
        have hirr := hlatched hint
        unfold drive at hirr
        rw [has_setPin_irr_of_edge _ _ _ hedge, takeRequest_irr_of_eq hr h.edge, hup] at hirr
        simp at hirr
      · exact fun hint hlatched => absurd hlatched hint
  · rw [hstep, acknowledge_of_own hr]
    have hm := takeRequest_frame p.master
    refine ⟨h.master ?_ ?_ ?_ ?_ ?_, fun _ _ he => absurd he hr, fun _ =>
      latched_master hl (takeRequest_irr_of_ne hr)⟩
    all_goals rw [hm]
    rfl

theorem step_pin {which : Which} {line : Level} {high : Bool} (hop : (Op.pin which line high).Later)
    (h : p.Wired) (hl : p.Latched) :
    (p.step (.pin which line high)).Wired ∧ (p.step (.pin which line high)).Latched := by
  cases which with
  | master =>
    have hne : (2 : Level) ≠ line := Ne.symm hop
    have hpin : Byte.has (p.master.setPin line high).pinLevel 2 = Byte.has p.master.pinLevel 2 := by
      rw [has_setPin_pinLevel, if_neg hne]
    exact ⟨h.master rfl rfl hpin rfl rfl, latched_master hl (has_setPin_irr_of_ne _ _ _ _ hne)⟩
  | slave =>
    have hw : (drive { p with slave := p.slave.setPin line high }).Wired :=
      h.slave h.slaveReady h.slaveUnarmed h.idle
    exact ⟨hw, drive_latched h hl⟩

theorem step_write {which : Which} {port : Nat} {value : Byte}
    (hop : (Op.write which port value).Later) (h : p.Wired) (hl : p.Latched) :
    (p.step (.write which port value)).Wired ∧ (p.step (.write which port value)).Latched := by
  have hlater : port = 0 → value &&& 0x10 = 0 ∧ (value &&& 0x08 ≠ 0 → value &&& 0x04 = 0) := by
    rintro rfl
    exact hop
  cases which with
  | master =>
    have hc := commanded_writePort h.masterReady hlater
    exact ⟨h.master hc.icw3 (hc.lineIsLevel 2) (congrArg (Byte.has · 2) hc.pinLevel) hc.initStep
      hc.pollArmed, latched_master hl (congrArg (Byte.has · 2) hc.irr)⟩
  | slave =>
    have hc := commanded_writePort h.slaveReady hlater
    have hw : (drive { p with slave := p.slave.writePort port value }).Wired :=
      h.slave (hc.initStep.trans h.slaveReady) (hc.pollArmed.trans h.slaveUnarmed)
        fun hauto => hc.idle (h.idle (hc.autoEoi.symm.trans hauto))
    exact ⟨hw, drive_latched h hl⟩

theorem step_read {which : Which} {port : Nat} {debug : Bool} (h : p.Wired) (hl : p.Latched) :
    (p.step (.read which port debug)).Wired ∧ (p.step (.read which port debug)).Latched := by
  cases which with
  | master =>
    have hs := readPort_of_unarmed h.masterUnarmed port debug
    have hstep : p.step (.read .master port debug) =
        { p with master := (p.master.readPort port debug).1 } := rfl
    rw [hstep, hs]
    exact ⟨h, hl⟩
  | slave =>
    have hs := readPort_of_unarmed h.slaveUnarmed port debug
    have hstep : p.step (.read .slave port debug) =
        drive { p with slave := (p.slave.readPort port debug).1 } := rfl
    rw [hstep, hs]
    exact ⟨h.slave h.slaveReady h.slaveUnarmed h.idle, drive_latched h hl⟩

theorem step_latched {op : Op} (hop : op.Later) (h : p.Wired) (hl : p.Latched) :
    (p.step op).Wired ∧ ((p.step op).Latched ↔ p.Spares op) := by
  by_cases hinta : op = .inta
  · rw [hinta]
    exact step_inta h hl
  · have hboth : (p.step op).Wired ∧ (p.step op).Latched := by
      cases op with
      | inta => exact absurd rfl hinta
      | pin which line high => exact step_pin hop h hl
      | write which port value => exact step_write hop h hl
      | read which port debug => exact step_read h hl
    exact ⟨hboth.1, fun _ he => absurd he hinta, fun _ => hboth.2⟩

theorem resolve_of_unopposed {m : State} (hreq : Byte.has m.candidates 2 = true)
    (h : m.Unopposed) : m.resolve = some 2 := by
  have hfirst : first m.priorityBase (Byte.has m.candidates) =
      some (position m.priorityBase 2) := by
    refine first_eq_some.mpr ⟨?_, fun i hi => (h.1 i hi).2⟩
    rwa [levelAt_position]
  refine resolve_eq_some.mpr ⟨_, hfirst, ?_, (levelAt_position _ _).symm⟩
  unfold blockedAt
  split
  · exact Or.inl (position m.priorityBase 2).isLt
  · rename_i hmask
    unfold inServicePriority
    cases hf : first m.priorityBase (Byte.has m.isr) with
    | none => exact Or.inl (position m.priorityBase 2).isLt
    | some j =>
      obtain ⟨hj, _⟩ := first_eq_some.mp hf
      have hle : ¬ j < position m.priorityBase 2 := fun hlt =>
        absurd hj (by rw [(h.1 j hlt).1]; decide)
      have hle' : (position m.priorityBase 2).val ≤ j.val := by
        have := Fin.not_lt.mp hle
        exact this
      rcases Nat.lt_or_eq_of_le hle' with hlt | heq
      · exact Or.inl hlt
      · refine Or.inr ⟨heq, ?_⟩
        rcases h.2 with hidle | hsfnm | hsmm
        · -- the level in service would be IR2 itself
          have hsame : j = position m.priorityBase 2 := Fin.ext heq.symm
          rw [hsame, levelAt_position, hidle] at hj
          cases hj
        · exact hsfnm
        · exact absurd hsmm hmask

theorem delivers_of_latched (h : p.Wired) (hl : p.Latched) : p.Delivers := by
  intro mask line hmask hline hclear
  have hlater : (Op.write .master 1 mask).Later := trivial
  have hw : (p.step (.write .master 1 mask)).Wired := (step_write hlater h hl).1
  have hmaster : (p.step (.write .master 1 mask)).master = { p.master with imr := mask } := by
    change p.master.writePort 1 mask = _
    unfold writePort
    rw [if_neg (by decide), if_neg (not_not_intro h.masterReady)]
  have hint : p.slave.int = true := by
    unfold int
    rw [hline]
    rfl
  have hr : (p.step (.write .master 1 mask)).master.resolve = some 2 := by
    refine resolve_of_unopposed ?_ hclear
    rw [hmaster]
    simp [candidates, hl hint, hmask]
  rw [acknowledge_of_delegated hw hr]
  change p.slave.vector p.slave.resolve = _
  rw [hline]

theorem mem_states_self (p : Pair) (ops : List Op) : p ∈ p.states ops := by
  cases ops <;> exact List.mem_cons_self

theorem latched_run_iff {ops : List Op} (hops : ∀ op ∈ ops, op.Later) (h : p.Wired)
    (hl : p.Latched) : (∀ q ∈ p.states ops, q.Wired ∧ q.Latched) ↔ p.Clean ops := by
  induction ops generalizing p with
  | nil => simp [states, Clean, h, hl]
  | cons op ops ih =>
    obtain ⟨hop, hrest⟩ := List.forall_mem_cons.mp hops
    obtain ⟨hw, hiff⟩ := step_latched hop h hl
    have hmem := mem_states_self (p.step op) ops
    rw [states, List.forall_mem_cons, Clean, ← hiff]
    constructor
    · rintro ⟨_, hall⟩
      have hnext := (hall _ hmem).2
      exact ⟨hnext, (ih hrest hw hnext).mp hall⟩
    · rintro ⟨hnext, hclean⟩
      exact ⟨⟨h, hl⟩, (ih hrest hw hnext).mpr hclean⟩

theorem latched_run_of_requested {ops : List Op} (hops : ∀ op ∈ ops, op.Later) (h : p.Wired)
    (hl : p.Latched) (hall : ∀ q ∈ p.states ops, q.Requested) :
    ∀ q ∈ p.states ops, q.Wired ∧ q.Latched := by
  induction ops generalizing p with
  | nil => simp [states, h, hl]
  | cons op ops ih =>
    obtain ⟨hop, hrest⟩ := List.forall_mem_cons.mp hops
    rw [states, List.forall_mem_cons] at hall ⊢
    have hmem := mem_states_self (p.step op) ops
    have hnext : (p.step op).Latched := (requested_iff _).mp (hall.2 _ hmem)
    exact ⟨⟨h, hl⟩, ih hrest (step_latched hop h hl).1 hnext hall.2⟩

end Pair

end Rsemu.Pic
