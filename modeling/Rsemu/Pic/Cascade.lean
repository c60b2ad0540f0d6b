import Rsemu.Pic.Chip

/-!
# A cascaded pair

The slave's `INT` is a wire to the master's IR2, and an acknowledge the master resolves to IR2
is answered by the slave. The wire is a level that the slave drives again after every
operation, and the master's input senses its edges: a request the slave raises is latched
once, and an acknowledge consumes the latch. `Lingers` is when it does not, and
`cascade_keeps_requests_iff` says that nothing else strands a request.
-/

namespace Rsemu.Pic

open Arbiter State

/-- **A command leaves requests and wiring alone**: only the in-service register, the mask,
the rotation and the read and mask modes move, and an empty in-service register stays so. -/
structure State.Commanded (s s' : State) : Prop where
  irr : s'.irr = s.irr
  pinLevel : s'.pinLevel = s.pinLevel
  icw3 : s'.icw3 = s.icw3
  initStep : s'.initStep = s.initStep
  levelTriggered : s'.levelTriggered = s.levelTriggered
  elcr : s'.elcr = s.elcr
  elcrWritten : s'.elcrWritten = s.elcrWritten
  autoEoi : s'.autoEoi = s.autoEoi
  vectorBase : s'.vectorBase = s.vectorBase
  pollArmed : s'.pollArmed = s.pollArmed
  idle : s.isr = 0 → s'.isr = 0

namespace State

variable {s s' s'' : State}

theorem Commanded.refl (s : State) : s.Commanded s :=
  ⟨rfl, rfl, rfl, rfl, rfl, rfl, rfl, rfl, rfl, rfl, id⟩

theorem Commanded.trans (h : s.Commanded s') (h' : s'.Commanded s'') : s.Commanded s'' :=
  ⟨h'.irr.trans h.irr, h'.pinLevel.trans h.pinLevel, h'.icw3.trans h.icw3,
    h'.initStep.trans h.initStep, h'.levelTriggered.trans h.levelTriggered,
    h'.elcr.trans h.elcr, h'.elcrWritten.trans h.elcrWritten, h'.autoEoi.trans h.autoEoi,
    h'.vectorBase.trans h.vectorBase, h'.pollArmed.trans h.pollArmed, fun hi => h'.idle (h.idle hi)⟩

theorem Commanded.lineIsLevel (h : s.Commanded s') (line : Level) :
    s'.lineIsLevel line = s.lineIsLevel line := by
  unfold State.lineIsLevel
  rw [h.elcrWritten, h.elcr, h.levelTriggered]

theorem commanded_rotateTo (s : State) (line : Level) : s.Commanded (s.rotateTo line) :=
  ⟨rfl, rfl, rfl, rfl, rfl, rfl, rfl, rfl, rfl, rfl, id⟩

theorem commanded_retire (s : State) (line : Level) : s.Commanded (s.retire line) :=
  ⟨rfl, rfl, rfl, rfl, rfl, rfl, rfl, rfl, rfl, rfl, fun hi => by simp [retire, hi]⟩

theorem commanded_nonspecificEoi (s : State) : s.Commanded s.nonspecificEoi.1 := by
  unfold nonspecificEoi
  cases s.serving with
  | none => exact .refl s
  | some line => exact commanded_retire s line

theorem commanded_writeOcw2 (s : State) (value : Byte) : s.Commanded (s.writeOcw2 value) := by
  unfold writeOcw2
  split
  · exact commanded_nonspecificEoi s
  · exact commanded_retire s _
  · cases s.nonspecificEoi.2 with
    | none => exact commanded_nonspecificEoi s
    | some line => exact (commanded_nonspecificEoi s).trans (commanded_rotateTo _ line)
  · exact (commanded_retire s _).trans (commanded_rotateTo _ _)
  · exact commanded_rotateTo s _
  · exact ⟨rfl, rfl, rfl, rfl, rfl, rfl, rfl, rfl, rfl, rfl, id⟩
  · exact ⟨rfl, rfl, rfl, rfl, rfl, rfl, rfl, rfl, rfl, rfl, id⟩
  · exact .refl s

theorem commanded_writeOcw3 (s : State) {value : Byte} (hpoll : value &&& 0x04 = 0) :
    s.Commanded (s.writeOcw3 value) := by
  unfold writeOcw3
  simp only [hpoll, bne_self_eq_false, Bool.false_eq_true, if_false]
  split <;> split <;> exact ⟨rfl, rfl, rfl, rfl, rfl, rfl, rfl, rfl, rfl, rfl, id⟩

theorem commanded_writePort (hready : s.initStep = 0) {port : Nat} {value : Byte}
    (hlater : port = 0 → value &&& 0x10 = 0 ∧ (value &&& 0x08 ≠ 0 → value &&& 0x04 = 0)) :
    s.Commanded (s.writePort port value) := by
  unfold writePort
  split
  · rename_i hport
    obtain ⟨hinit, hpoll⟩ := hlater hport
    unfold writeCommand
    simp only [hinit, bne_self_eq_false, Bool.false_eq_true, if_false]
    split
    · rename_i hselect
      exact commanded_writeOcw3 s (hpoll (by simpa using hselect))
    · exact commanded_writeOcw2 s value
  · rw [if_neg (not_not_intro hready)]
    exact ⟨rfl, rfl, rfl, rfl, rfl, rfl, rfl, rfl, rfl, rfl, id⟩

theorem readPort_of_unarmed (hpoll : s.pollArmed = false) (port : Nat) (debug : Bool) :
    (s.readPort port debug).1 = s := by
  unfold readPort
  rw [hpoll, Bool.and_false, Bool.false_and, if_neg (by decide)]
  split
  · rfl
  · split <;> rfl

section Pins

variable (s : State) (line k : Level) (high : Bool)

theorem has_setPin_pinLevel :
    Byte.has (s.setPin line high).pinLevel k = if k = line then high else Byte.has s.pinLevel k := by
  unfold setPin
  cases high <;> by_cases h : k = line <;> simp [h]

theorem has_setPin_irr_of_ne (hne : k ≠ line) :
    Byte.has (s.setPin line high).irr k = Byte.has s.irr k := by
  unfold setPin
  dsimp only
  split
  · split <;> simp [hne]
  · split <;> simp [hne]

theorem has_setPin_irr_of_edge (hedge : s.lineIsLevel line = false) :
    Byte.has (s.setPin line high).irr line =
      (Byte.has s.irr line || (high && !Byte.has s.pinLevel line)) := by
  unfold setPin
  dsimp only
  rw [if_neg (by simp [hedge])]
  split
  · rename_i hrise
    simp [hrise]
  · rename_i hrise
    simp [Bool.eq_false_iff.mpr hrise]

end Pins

end State

/-- Two chips, the slave's output on the master's line 2. -/
structure Pair where
  master : State
  slave : State

/-- One of the two chips. -/
inductive Which where
  | master | slave
deriving DecidableEq

namespace Pair

def drive (p : Pair) : Pair := { p with master := p.master.setPin 2 p.slave.int }

def upon (p : Pair) (f : State → State) : Which → Pair
  | .master => { p with master := f p.master }
  | .slave => drive { p with slave := f p.slave }

/-- **The acknowledge cycle.** The master takes its winner; when that is IR2 and ICW3 says
there is a slave on it, the slave takes its own and drives the vector, which is the answer. -/
def acknowledge (p : Pair) : Pair × Byte :=
  let m := p.master.takeRequest
  if m.2 = some 2 ∧ p.master.cascades .master 2 = true then
    let t := p.slave.takeRequest
    (drive ⟨m.1, t.1⟩, p.slave.vector t.2)
  else ({ p with master := m.1 }, p.master.vector m.2)

end Pair

/-- What can happen to a pair. -/
inductive Op where
  | pin (which : Which) (line : Level) (high : Bool)
  | write (which : Which) (port : Nat) (value : Byte)
  | read (which : Which) (port : Nat) (debug : Bool)
  | inta
deriving DecidableEq

namespace Pair

def step (p : Pair) : Op → Pair
  | .pin which line high => p.upon (fun s => s.setPin line high) which
  | .write which port value => p.upon (fun s => s.writePort port value) which
  | .read which port debug => p.upon (fun s => (s.readPort port debug).1) which
  | .inta => p.acknowledge.1

def run (p : Pair) (ops : List Op) : Pair := ops.foldl step p

def states : Pair → List Op → List Pair
  | p, [] => [p]
  | p, op :: ops => p :: (p.step op).states ops

end Pair

/-- **An operation of a later run**: master IR2 is the slave's wire and nobody else's, and
nothing re-initialises a chip or polls it. -/
def Op.Later : Op → Prop
  | .pin .master line _ => line ≠ 2
  | .write _ 0 value => value &&& 0x10 = 0 ∧ (value &&& 0x08 ≠ 0 → value &&& 0x04 = 0)
  | _ => True

/-- An OCW2 that ends an interrupt. -/
def IsEoi (value : Byte) : Prop := value &&& 0x38 = 0x20

namespace Pair

/-- **The slave's request is not lost**: while the slave asserts, either the master has IR2
requested, or IR2 is in service and whatever EOI ends that leaves it requested. -/
def Requested (p : Pair) : Prop :=
  p.slave.int = true →
    Byte.has p.master.irr 2 = true ∨
      (Byte.has p.master.isr 2 = true ∧
        ∀ value, IsEoi value → Byte.has (p.master.writeCommand value).isr 2 = false →
          Byte.has (p.master.writeCommand value).irr 2 = true)

end Pair

/-- **Nothing stands in IR2's way**: no level of higher priority is in service or asks to be,
and IR2 itself is not in service or the chip lets a second request through. -/
def State.Unopposed (m : State) : Prop :=
  (∀ i < position m.priorityBase 2, Byte.has m.isr (levelAt m.priorityBase i) = false ∧
    Byte.has m.candidates (levelAt m.priorityBase i) = false) ∧
  (Byte.has m.isr 2 = false ∨ m.sfnm = true ∨ m.specialMask = true)

namespace Pair

/-- **The slave's request is delivered** once the master unmasks IR2 with nothing in its
way: the acknowledge is answered with the vector of the slave's winner. -/
def Delivers (p : Pair) : Prop :=
  ∀ mask line, Byte.has mask 2 = false → p.slave.resolve = some line →
    (p.step (.write .master 1 mask)).master.Unopposed →
    (p.step (.write .master 1 mask)).acknowledge.2 = p.slave.vector (some line)

/-- **The slave lets go of the wire**, should this be an acknowledge the master hands on. -/
def Spares (p : Pair) (op : Op) : Prop :=
  op = .inta → p.master.resolve = some 2 → ¬ p.slave.Lingers

/-- Every acknowledge of a run does. -/
def Clean : Pair → List Op → Prop
  | _, [] => True
  | p, op :: ops => p.Spares op ∧ (p.step op).Clean ops

instance (p : Pair) (op : Op) : Decidable (p.Spares op) := by unfold Spares; infer_instance

instance decidableClean : ∀ (p : Pair) (ops : List Op), Decidable (p.Clean ops)
  | _, [] => isTrue trivial
  | p, op :: ops =>
    have := decidableClean (p.step op) ops
    inferInstanceAs (Decidable (p.Spares op ∧ (p.step op).Clean ops))

end Pair

end Rsemu.Pic
