import Rsemu.Pic.Requests

/-!
# From the initialisation words to every run

Each chip is programmed once by its ICW sequence, the two sequences interleaved as the
firmware pleases. As long as the slave's `INT` stays low meanwhile, the wire never moves and
the chips come out as if each had been programmed alone: `initialises_wired`.
-/

namespace Rsemu.Pic

open Arbiter State

/-- The initialization words. -/
structure Icw where
  icw1 : Byte
  icw2 : Byte
  icw3 : Byte
  icw4 : Byte

def Icw.words (i : Icw) : List (Nat × Byte) :=
  [(0, i.icw1), (1, i.icw2)] ++ (if i.icw1 &&& 0x02 != 0 then [] else [(1, i.icw3)]) ++
    (if i.icw1 &&& 0x01 != 0 then [(1, i.icw4)] else [])

def Op.wordTo (which : Which) : Op → Option (Nat × Byte)
  | .write w port value => if w = which then some (port, value) else none
  | _ => none

namespace State

variable {s s' : State}

def program (s : State) (words : List (Nat × Byte)) : State :=
  words.foldl (fun s word => s.writePort word.1 word.2) s

/-- **What an initialisation sequence leaves**, whatever the chip was doing before: it is
ready, nothing is in service, and the pins are where they were. -/
structure Fresh (s s' : State) (i : Icw) : Prop where
  initStep : s'.initStep = 0
  pollArmed : s'.pollArmed = false
  isr : s'.isr = 0
  pinLevel : s'.pinLevel = s.pinLevel
  icw3 : i.icw1 &&& 0x02 = 0 → s'.icw3 = i.icw3
  elcr : s'.elcr = s.elcr
  elcrWritten : s'.elcrWritten = s.elcrWritten
  levelTriggered : s'.levelTriggered = (i.icw1 &&& 0x08 != 0)

theorem fresh_program (s : State) {i : Icw} (hinit : i.icw1 &&& 0x10 ≠ 0) :
    s.Fresh (s.program i.words) i := by
  have hfirst : s.writePort 0 i.icw1 = s.beginInit i.icw1 := by
    unfold writePort writeCommand
    rw [if_pos rfl, if_pos (by simpa using hinit)]
  unfold program Icw.words
  cases hsingle : (i.icw1 &&& 0x02 != 0) <;> cases hicw4 : (i.icw1 &&& 0x01 != 0)
  all_goals
    simp only [Bool.false_eq_true, if_false, if_true, List.cons_append, List.nil_append,
      List.append_nil, List.foldl_cons, List.foldl_nil, hfirst]
    constructor <;> simp_all [writePort, initWord, beginInit]

def forget (s : State) : State := { s with irr := 0 }

theorem forget_nonspecificEoi (s : State) :
    s.nonspecificEoi.1.forget = s.forget.nonspecificEoi.1.forget := by
  have hserving : s.forget.serving = s.serving := rfl
  unfold nonspecificEoi
  rw [hserving]
  cases s.serving <;> rfl

theorem forget_writeOcw2 (s : State) (value : Byte) :
    (s.writeOcw2 value).forget = (s.forget.writeOcw2 value).forget := by
  have hserving : s.forget.nonspecificEoi.2 = s.nonspecificEoi.2 := rfl
  unfold writeOcw2
  rw [hserving]
  split
  · exact forget_nonspecificEoi s
  · rfl
  · cases s.nonspecificEoi.2 with
    | none => exact forget_nonspecificEoi s
    | some line => exact congrArg (fun t => t.rotateTo line) (forget_nonspecificEoi s)
  all_goals rfl

theorem forget_writeOcw3 (s : State) (value : Byte) :
    (s.writeOcw3 value).forget = (s.forget.writeOcw3 value).forget := by
  unfold writeOcw3
  split <;> split <;> split <;> rfl

theorem forget_writePort (s : State) (port : Nat) (value : Byte) :
    (s.writePort port value).forget = (s.forget.writePort port value).forget := by
  have hstep : s.forget.initStep = s.initStep := rfl
  unfold writePort
  rw [hstep]
  split
  · unfold writeCommand
    split
    · rfl
    · split
      · exact forget_writeOcw3 s value
      · exact forget_writeOcw2 s value
  · split
    · unfold initWord
      rw [hstep]
      split
      · rfl
      · split <;> rfl
    · rfl

theorem forget_program (h : s.forget = s'.forget) (words : List (Nat × Byte)) :
    (s.program words).forget = (s'.program words).forget := by
  induction words generalizing s s' with
  | nil => exact h
  | cons word words ih =>
    refine ih ?_
    rw [forget_writePort s, h, ← forget_writePort s']

theorem pinLevel_writePort (s : State) (port : Nat) (value : Byte) :
    (s.writePort port value).pinLevel = s.pinLevel := by
  unfold writePort
  split
  · unfold writeCommand
    split
    · rfl
    · split
      · unfold writeOcw3
        split <;> split <;> split <;> rfl
      · exact (commanded_writeOcw2 s value).pinLevel
  · split
    · unfold initWord
      split
      · rfl
      · split <;> rfl
    · rfl

theorem forget_setPin_low {line : Level} (h : Byte.has s.pinLevel line = false) :
    (s.setPin line false).forget = s.forget := by
  have hpin : s.pinLevel &&& ~~~bit line = s.pinLevel := by
    refine BitVec.eq_of_getLsbD_eq fun i hi => ?_
    have hi' := getLsbD_bit line ⟨i, hi⟩
    rw [BitVec.getLsbD_and, BitVec.getLsbD_not, hi', decide_eq_true hi, Bool.true_and]
    by_cases heq : (⟨i, hi⟩ : Level) = line
    · rw [Byte.has_eq, ← heq] at h
      rw [h, Bool.false_and]
    · simp [heq]
  unfold setPin forget
  simp [hpin]

end State

namespace Pair

variable {p : Pair} {m s : Icw} {setup ops : List Op}

def wordsTo (which : Which) (ops : List Op) : List (Nat × Byte) := ops.filterMap (Op.wordTo which)

/-- **Both chips are initialised once, while the slave's `INT` is low.** The pair may have
been doing anything before; the master is told of a slave on IR2, and neither LTIM nor the
chipset's latch makes that input level-triggered. -/
structure Initialises (p : Pair) (setup : List Op) (m s : Icw) : Prop where
  writes : ∀ op ∈ setup, ∃ which port value, op = .write which port value
  master : wordsTo .master setup = m.words
  slave : wordsTo .slave setup = s.words
  masterInit : m.icw1 &&& 0x10 ≠ 0
  slaveInit : s.icw1 &&& 0x10 ≠ 0
  cascaded : m.icw1 &&& 0x02 = 0
  icw3 : Byte.has m.icw3 2 = true
  edge : (if p.master.elcrWritten then Byte.has p.master.elcr 2 else m.icw1 &&& 0x08 != 0) = false
  pin : Byte.has p.master.pinLevel 2 = false
  low : ∀ q ∈ p.states setup, q.slave.int = false

theorem run_mem_states (p : Pair) (ops : List Op) : p.run ops ∈ p.states ops := by
  induction ops generalizing p with
  | nil => exact List.mem_cons_self
  | cons op ops ih => exact List.mem_cons_of_mem _ (ih (p.step op))

theorem run_writes (hwrites : ∀ op ∈ ops, ∃ which port value, op = .write which port value)
    (hlow : ∀ q ∈ p.states ops, q.slave.int = false) (hpin : Byte.has p.master.pinLevel 2 = false) :
    (p.run ops).slave = p.slave.program (wordsTo .slave ops) ∧
      (p.run ops).master.forget = (p.master.program (wordsTo .master ops)).forget := by
  induction ops generalizing p with
  | nil => exact ⟨rfl, rfl⟩
  | cons op ops ih =>
    obtain ⟨⟨which, port, value, rfl⟩, hrest⟩ := List.forall_mem_cons.mp hwrites
    have hlow' : ∀ q ∈ (p.step (.write which port value)).states ops, q.slave.int = false :=
      fun q hq => hlow q (List.mem_cons_of_mem _ hq)
    cases which with
    | master =>
      refine ih hrest hlow' ?_
      change Byte.has (p.master.writePort port value).pinLevel 2 = false
      rw [pinLevel_writePort]
      exact hpin
    | slave =>
      have hint : (p.slave.writePort port value).int = false := hlow' _ (mem_states_self _ _)
      have hstep : p.step (.write .slave port value) =
          ⟨p.master.setPin 2 false, p.slave.writePort port value⟩ := by
        rw [← hint]
        rfl
      rw [hstep] at hlow'
      have hdown : Byte.has (p.master.setPin 2 false).pinLevel 2 = false := by
        rw [has_setPin_pinLevel, if_pos rfl]
      obtain ⟨hslave, hmaster⟩ := ih hrest hlow' hdown
      have hrun : p.run (.write .slave port value :: ops) =
          Pair.run ⟨p.master.setPin 2 false, p.slave.writePort port value⟩ ops := by
        rw [← hstep]
        rfl
      rw [hrun]
      exact ⟨hslave, hmaster.trans (forget_program (forget_setPin_low hpin) _)⟩

theorem Initialises.wired (h : p.Initialises setup m s) :
    (p.run setup).Wired ∧ (p.run setup).slave.int = false := by
  obtain ⟨hslave, hmaster⟩ := run_writes h.writes h.low h.pin
  rw [h.slave] at hslave
  rw [h.master] at hmaster
  have hm := fresh_program p.master h.masterInit
  have hs := fresh_program p.slave h.slaveInit
  have hint : (p.run setup).slave.int = false := h.low _ (run_mem_states p setup)
  -- whatever `forget` keeps, the master has from its own sequence
  have hfield : ∀ {α : Type} (f : State → α), (∀ t, f t.forget = f t) →
      f (p.run setup).master = f (p.master.program m.words) := by
    intro α f hf
    rw [← hf, hmaster, hf]
  refine ⟨⟨?_, ?_, ?_, ?_, ?_, ?_, ?_, ?_⟩, hint⟩
  · rw [hfield State.icw3 fun _ => rfl, hm.icw3 h.cascaded]
    exact h.icw3
  · rw [hfield (fun t => t.lineIsLevel 2) fun _ => rfl, lineIsLevel, hm.elcr, hm.elcrWritten,
      hm.levelTriggered]
    exact h.edge
  · rw [hfield State.pinLevel fun _ => rfl, hm.pinLevel, hint]
    exact h.pin
  · rw [hfield State.initStep fun _ => rfl]
    exact hm.initStep
  · rw [hslave]
    exact hs.initStep
  · rw [hfield State.pollArmed fun _ => rfl]
    exact hm.pollArmed
  · rw [hslave]
    exact hs.pollArmed
  · rw [hslave]
    exact fun _ => hs.isr

/-- **When a cascaded pair strands nothing.** In every run of an initialised pair the slave's
request stays latched in the master, and is delivered once the master lets it, exactly when
every acknowledge that is handed to the slave makes the slave let go of its output. -/
theorem cascade_keeps_requests_iff (h : p.Initialises setup m s)
    (hops : ∀ op ∈ ops, op.Later) :
    (∀ q ∈ (p.run setup).states ops, q.Requested ∧ q.Delivers) ↔ (p.run setup).Clean ops := by
  obtain ⟨hw, hlow⟩ := h.wired
  have hl : (p.run setup).Latched := fun hint => absurd hint (by rw [hlow]; decide)
  rw [← latched_run_iff hops hw hl]
  refine ⟨fun hall => ?_, fun hall q hq => ?_⟩
  · exact latched_run_of_requested hops hw hl fun q hq => (hall q hq).1
  · obtain ⟨hwq, hlq⟩ := hall q hq
    exact ⟨(requested_iff q).mpr hlq, delivers_of_latched hwq hlq⟩

def atIcw (icw3 icw4 : Byte) : Icw := ⟨0x11, 0x08, icw3, icw4⟩

def atSetup : List Op :=
  (atIcw 0x04 0x01).words.map (fun word => .write .master word.1 word.2) ++
    (atIcw 0x02 0x01).words.map (fun word => .write .slave word.1 word.2)

def powerUp : Pair := ⟨{}, {}⟩

def nested : List Op :=
  [.pin .slave 5 true, .inta, .pin .slave 3 true, .write .master 0 0x20, .inta]

theorem powerUp_initialises : powerUp.Initialises atSetup (atIcw 0x04 0x01) (atIcw 0x02 0x01) where
  writes := by simp [atSetup, atIcw, Icw.words]
  master := by decide
  slave := by decide
  masterInit := by decide
  slaveInit := by decide
  cascaded := by decide
  icw3 := by decide
  edge := by decide
  pin := by decide
  low := by decide

theorem nested_keeps_requests :
    (powerUp.run atSetup).Clean nested ∧
      ∀ q ∈ (powerUp.run atSetup).states nested, q.Requested ∧ q.Delivers :=
  have hclean : (powerUp.run atSetup).Clean nested := by decide
  ⟨hclean, (cascade_keeps_requests_iff powerUp_initialises (by simp [nested, Op.Later])).mpr hclean⟩

def unmasked : List Op :=
  [.write .slave 0 0x68, .pin .slave 3 true, .pin .slave 5 true, .inta]

/-- **The slave in special mask mode.** Two requests are up when the first is acknowledged;
the mode keeps the slave asserting, no edge follows, and IR2 is in service with nothing
requested behind it: its EOI leaves the second request stranded. -/
theorem special_mask_strands :
    powerUp.Initialises atSetup (atIcw 0x04 0x01) (atIcw 0x02 0x01) ∧
      (∀ op ∈ unmasked, op.Later) ∧ ¬ ((powerUp.run atSetup).run unmasked).Requested := by
  refine ⟨powerUp_initialises, by simp [unmasked, Op.Later], fun h => ?_⟩
  have := (requested_iff _).mp h
  exact absurd (this (by decide)) (by decide)

end Pair

end Rsemu.Pic
