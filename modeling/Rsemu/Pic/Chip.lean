import Rsemu.Base.Arbiter

/-!
# One 8259A

The request, in-service and mask registers with the priority resolver over them, and the
command words that drive it. `takeRequest` is the acknowledge cycle's half of the chip:
it moves the winner from requested to in service, and `Lingers` says exactly when the chip
still has something to ask for afterwards.
-/

namespace Rsemu.Pic

open Arbiter

/-- A byte. -/
abbrev Byte := BitVec 8

/-- How many lines a chip has. -/
abbrev inputs : Nat := 8

scoped instance neZero_inputs : NeZero inputs := ⟨by decide⟩

/-- One of a chip's lines. -/
abbrev Level := Fin inputs

def bit (line : Level) : Byte := 1#8 <<< line.val

def Byte.has (b : Byte) (line : Level) : Bool := b &&& bit line != 0

theorem getLsbD_bit : ∀ line k : Level, (bit line).getLsbD k = decide (k = line) := by decide

theorem Byte.has_eq (b : Byte) (line : Level) : Byte.has b line = b.getLsbD line := by
  unfold Byte.has
  rw [Bool.eq_iff_iff, bne_iff_ne]
  constructor
  · intro hne
    by_contra hoff
    refine hne (BitVec.eq_of_getLsbD_eq fun i hi => ?_)
    rw [BitVec.getLsbD_and, getLsbD_bit line ⟨i, hi⟩]
    by_cases h : (⟨i, hi⟩ : Level) = line
    · have hoff' := Bool.eq_false_iff.mpr hoff
      rw [← h] at hoff'
      rw [hoff']
      simp
    · simp [h]
  · intro hon hzero
    have := congrArg (fun x => BitVec.getLsbD x line) hzero
    simp only [BitVec.getLsbD_and, hon, getLsbD_bit] at this
    simp at this

theorem Byte.eq_zero_iff (b : Byte) : b = 0 ↔ ∀ line, Byte.has b line = false := by
  constructor
  · intro h line
    rw [h]
    simp [Byte.has]
  · intro h
    refine BitVec.eq_of_getLsbD_eq fun i hi => ?_
    have := h ⟨i, hi⟩
    rw [Byte.has_eq] at this
    simpa using this

@[simp] theorem Byte.has_and (a b : Byte) (line : Level) :
    Byte.has (a &&& b) line = (Byte.has a line && Byte.has b line) := by
  simp [Byte.has_eq]

@[simp] theorem Byte.has_or (a b : Byte) (line : Level) :
    Byte.has (a ||| b) line = (Byte.has a line || Byte.has b line) := by
  simp [Byte.has_eq]

@[simp] theorem Byte.has_not (a : Byte) (line : Level) :
    Byte.has (~~~a) line = !Byte.has a line := by
  simp [Byte.has_eq]

@[simp] theorem Byte.has_bit (line k : Level) : Byte.has (bit line) k = decide (k = line) := by
  rw [Byte.has_eq, getLsbD_bit]

@[simp] theorem Byte.has_zero (line : Level) : Byte.has 0 line = false := by
  simp [Byte.has]

/-- Which chip of a cascade this one is: it selects the meaning of ICW3 and nothing else. -/
inductive Mode where
  | master | slave | single
deriving DecidableEq

/-- Everything the guest can see or change. -/
@[ext] structure State where
  irr : Byte := 0
  isr : Byte := 0
  imr : Byte := 0
  vectorBase : Byte := 0
  icw3 : Byte := 0
  /-- 0 = not initializing, otherwise the number of the control word before the one
  expected. -/
  initStep : Nat := 0
  expectIcw4 : Bool := false
  single : Bool := false
  levelTriggered : Bool := false
  autoEoi : Bool := false
  sfnm : Bool := false
  /-- The level that currently has the highest priority. -/
  priorityBase : Level := 0
  readIsr : Bool := false
  specialMask : Bool := false
  pollArmed : Bool := false
  rotateOnAeoi : Bool := false
  /-- What each IR pin is doing, which is not the same as `irr`. -/
  pinLevel : Byte := 0
  elcr : Byte := 0
  elcrWritten : Bool := false
deriving DecidableEq

namespace State

variable (s : State)

def lineIsLevel (line : Level) : Bool :=
  if s.elcrWritten then Byte.has s.elcr line else s.levelTriggered

/-- The priority position of the highest-priority in-service level, or 8 when nothing is in
service. -/
def inServicePriority : Nat :=
  ((first s.priorityBase (Byte.has s.isr)).map Fin.val).getD inputs

def candidates : Byte := s.irr &&& ~~~s.imr

def blockedAt : Nat := if s.specialMask then inputs else s.inServicePriority

/-- The level the priority resolver would offer the CPU, if any: only the first candidate
is looked at, for if it is blocked so is everything below it. -/
def resolve : Option Level :=
  if s.candidates = 0 then none
  else
    (first s.priorityBase (Byte.has s.candidates)).bind fun i =>
      if i.val < s.blockedAt ∨ (i.val = s.blockedAt ∧ s.sfnm = true) then
        some (levelAt s.priorityBase i)
      else none

def int : Bool := s.resolve.isSome

def rotateTo (line : Level) : State := { s with priorityBase := line + 1 }

def retire (line : Level) : State := { s with isr := s.isr &&& ~~~bit line }

def serving : Option Level :=
  (first s.priorityBase (Byte.has s.isr)).map (levelAt s.priorityBase)

def nonspecificEoi : State × Option Level :=
  (s.serving.elim s s.retire, s.serving)

def levelMask : Byte :=
  (List.finRange inputs).foldl (fun mask line => if s.lineIsLevel line then mask ||| bit line
    else mask) 0

/-- The first initialisation word. -/
def beginInit (icw1 : Byte) : State :=
  let expectIcw4 := icw1 &&& 0x01 != 0
  let single := icw1 &&& 0x02 != 0
  let s := { s with
    expectIcw4 := expectIcw4, single := single, levelTriggered := icw1 &&& 0x08 != 0
    imr := 0, isr := 0, readIsr := false, specialMask := false, pollArmed := false
    priorityBase := 0, rotateOnAeoi := false, autoEoi := false, sfnm := false }
  { s with irr := s.pinLevel &&& s.levelMask, initStep := 1 }

/-- Advance the initialization sequence by one control word. -/
def initWord (value : Byte) : State :=
  if s.initStep = 1 then
    { s with
      vectorBase := value &&& 0xf8
      initStep := if !s.single then 2 else if s.expectIcw4 then 3 else 0 }
  else if s.initStep = 2 then
    { s with icw3 := value, initStep := if s.expectIcw4 then 3 else 0 }
  else
    { s with autoEoi := value &&& 0x02 != 0, sfnm := value &&& 0x10 != 0, initStep := 0 }

/-- Record a pin's level and turn it into a request: a level-triggered request mirrors its
pin, an edge-triggered one latches on the rise. -/
def setPin (line : Level) (high : Bool) : State :=
  let wasHigh := Byte.has s.pinLevel line
  let pinLevel := if high then s.pinLevel ||| bit line else s.pinLevel &&& ~~~bit line
  let irr :=
    if s.lineIsLevel line then
      if high then s.irr ||| bit line else s.irr &&& ~~~bit line
    else if high && !wasHigh then s.irr ||| bit line
    else s.irr
  { s with pinLevel := pinLevel, irr := irr }

def cascades (mode : Mode) (line : Level) : Bool :=
  decide (mode = Mode.master) && Byte.has s.icw3 line

def consume (line : Level) : State :=
  if s.lineIsLevel line then s else { s with irr := s.irr &&& ~~~bit line }

def enter (line : Level) : State :=
  if s.autoEoi then
    if s.rotateOnAeoi then s.rotateTo line else s
  else { s with isr := s.isr ||| bit line }

def taken (line : Level) : State := (s.consume line).enter line

def takeRequest : State × Option Level := (s.resolve.elim s s.taken, s.resolve)

def vector (line : Option Level) : Byte := s.vectorBase ||| BitVec.ofNat 8 (line.getD 7).val

def pollByte : State × Byte :=
  let t := { s with pollArmed := false }.takeRequest
  (t.1, t.2.elim 0 fun line => 0x80 ||| BitVec.ofNat 8 line.val)

def readPort (port : Nat) (debug : Bool) : State × Byte :=
  if port = 0 && s.pollArmed && !debug then s.pollByte
  else if port = 0 && s.readIsr then (s, s.isr)
  else if port = 0 then (s, s.irr)
  else (s, s.imr)

def named (value : Byte) : Level := Fin.ofNat 8 value.toNat

/-- OCW2, by its top three bits. -/
def writeOcw2 (value : Byte) : State :=
  match (value >>> 5).toNat with
  | 0b001 => s.nonspecificEoi.1
  | 0b011 => s.retire (named value)
  | 0b101 => s.nonspecificEoi.2.elim s.nonspecificEoi.1 s.nonspecificEoi.1.rotateTo
  | 0b111 => (s.retire (named value)).rotateTo (named value)
  | 0b110 => s.rotateTo (named value)
  | 0b100 => { s with rotateOnAeoi := true }
  | 0b000 => { s with rotateOnAeoi := false }
  | _ => s

def writeOcw3 (value : Byte) : State :=
  let s := if value &&& 0x40 != 0 then { s with specialMask := value &&& 0x20 != 0 } else s
  let s := if value &&& 0x02 != 0 then { s with readIsr := value &&& 0x01 != 0 } else s
  if value &&& 0x04 != 0 then { s with pollArmed := true } else s

def writeCommand (value : Byte) : State :=
  if value &&& 0x10 != 0 then s.beginInit value
  else if value &&& 0x08 != 0 then s.writeOcw3 value
  else s.writeOcw2 value

def writePort (port : Nat) (value : Byte) : State :=
  if port = 0 then s.writeCommand value
  else if s.initStep ≠ 0 then s.initWord value
  else { s with imr := value }

def others (line : Level) : Byte :=
  (if s.lineIsLevel line then s.irr else s.irr &&& ~~~bit line) &&& ~~~s.imr

/-- **The chip keeps `INT` up across an acknowledge.** Where no in-service bit holds anything
off, every other request does that; where one does, only the request just taken can, and
only a level-triggered one under special fully nested mode. -/
def Lingers : Prop :=
  ∃ line, s.resolve = some line ∧
    if s.autoEoi = true ∨ s.specialMask = true then s.others line ≠ 0
    else s.sfnm = true ∧ s.lineIsLevel line = true

instance : Decidable s.Lingers := by unfold Lingers; infer_instance

variable {s} {line : Level}

theorem resolve_eq_some :
    s.resolve = some line ↔
      ∃ i, first s.priorityBase (Byte.has s.candidates) = some i ∧
        (i.val < s.blockedAt ∨ (i.val = s.blockedAt ∧ s.sfnm = true)) ∧
        line = levelAt s.priorityBase i := by
  unfold resolve
  split
  · rename_i hnone
    have hfirst : first s.priorityBase (Byte.has s.candidates) = none :=
      first_eq_none.mpr ((Byte.eq_zero_iff _).mp hnone)
    simp [hfirst]
  · constructor
    · intro h
      obtain ⟨i, hi, hpass⟩ := Option.bind_eq_some_iff.mp h
      split at hpass
      · rename_i hp
        exact ⟨i, hi, hp, (Option.some.inj hpass).symm⟩
      · cases hpass
    · rintro ⟨i, hi, hp, rfl⟩
      exact Option.bind_eq_some_iff.mpr ⟨i, hi, if_pos hp⟩

theorem int_iff :
    s.int = true ↔
      ∃ i, first s.priorityBase (Byte.has s.candidates) = some i ∧
        (i.val < s.blockedAt ∨ (i.val = s.blockedAt ∧ s.sfnm = true)) := by
  unfold int
  rw [Option.isSome_iff_exists]
  constructor
  · rintro ⟨line, hline⟩
    obtain ⟨i, hi, hp, _⟩ := resolve_eq_some.mp hline
    exact ⟨i, hi, hp⟩
  · rintro ⟨i, hi, hp⟩
    exact ⟨_, resolve_eq_some.mpr ⟨i, hi, hp, rfl⟩⟩

theorem int_iff_of_open (hopen : s.blockedAt = inputs) : s.int = true ↔ s.candidates ≠ 0 := by
  rw [int_iff, hopen]
  constructor
  · rintro ⟨i, hi, _⟩ hzero
    rw [first_eq_none.mpr ((Byte.eq_zero_iff _).mp hzero)] at hi
    cases hi
  · intro hne
    cases hf : first s.priorityBase (Byte.has s.candidates) with
    | none => exact absurd ((Byte.eq_zero_iff _).mpr (first_eq_none.mp hf)) hne
    | some i => exact ⟨i, rfl, Or.inl i.isLt⟩

theorem inServicePriority_of_idle (h : s.isr = 0) : s.inServicePriority = inputs := by
  unfold inServicePriority
  rw [first_eq_none.mpr ((Byte.eq_zero_iff _).mp h)]
  rfl

theorem consume_eq :
    s.consume line =
      { s with irr := if s.lineIsLevel line then s.irr else s.irr &&& ~~~bit line } := by
  unfold consume
  split <;> rfl

theorem enter_eq :
    s.enter line =
      { s with
        isr := if s.autoEoi then s.isr else s.isr ||| bit line
        priorityBase := if s.autoEoi && s.rotateOnAeoi then line + 1 else s.priorityBase } := by
  unfold enter rotateTo
  cases ha : s.autoEoi <;> cases hr : s.rotateOnAeoi <;> apply State.ext <;> simp [ha, hr]

theorem taken_eq :
    s.taken line =
      { s with
        irr := if s.lineIsLevel line then s.irr else s.irr &&& ~~~bit line
        isr := if s.autoEoi then s.isr else s.isr ||| bit line
        priorityBase := if s.autoEoi && s.rotateOnAeoi then line + 1 else s.priorityBase } := by
  unfold taken
  rw [enter_eq, consume_eq]

theorem taken_candidates : (s.taken line).candidates = s.others line := by
  simp [candidates, others, taken_eq]

theorem blockedAt_taken {i : Level} (hauto : s.autoEoi = false) (hmask : s.specialMask = false)
    (hpass : i.val < s.blockedAt ∨ (i.val = s.blockedAt ∧ s.sfnm = true)) :
    (s.taken (levelAt s.priorityBase i)).blockedAt = i.val := by
  have hfirst : first s.priorityBase (Byte.has (s.isr ||| bit (levelAt s.priorityBase i))) =
      some i := by
    have hother : ∀ line, line ≠ levelAt s.priorityBase i →
        Byte.has (s.isr ||| bit (levelAt s.priorityBase i)) line = Byte.has s.isr line := by
      intro line hne
      simp [hne]
    refine first_raise hother (by simp) ?_
    · intro j hj
      have hblocked : s.blockedAt = j.val := by
        unfold blockedAt inServicePriority
        rw [hmask, hj]
        rfl
      have : i.val ≤ j.val := by omega
      exact this
  unfold blockedAt inServicePriority
  simp [taken_eq, hmask, hauto, hfirst]

theorem int_taken_iff (hidle : s.autoEoi = true → s.isr = 0) (hline : s.resolve = some line) :
    (s.taken line).int = true ↔
      if s.autoEoi = true ∨ s.specialMask = true then s.others line ≠ 0
      else s.sfnm = true ∧ s.lineIsLevel line = true := by
  split
  · rename_i hfree
    rw [int_iff_of_open, taken_candidates]
    unfold blockedAt
    rcases hfree with hauto | hmask
    · rw [inServicePriority_of_idle (by simp [taken_eq, hauto, hidle hauto])]
      simp
    · rw [taken_eq]
      exact if_pos hmask
  · rename_i hheld
    obtain ⟨hauto, hmask⟩ := not_or.mp hheld
    rw [Bool.not_eq_true] at hauto hmask
    obtain ⟨i, hi, hpass, rfl⟩ := resolve_eq_some.mp hline
    have hbase : (s.taken (levelAt s.priorityBase i)).priorityBase = s.priorityBase := by
      simp [taken_eq, hauto]
    have hsfnm : (s.taken (levelAt s.priorityBase i)).sfnm = s.sfnm := by rw [taken_eq]
    rw [int_iff, blockedAt_taken hauto hmask hpass, taken_candidates, hsfnm, hbase]
    have hsub : ∀ line, Byte.has (s.others (levelAt s.priorityBase i)) line = true →
        Byte.has s.candidates line = true := by
      intro line
      unfold others candidates
      split
      · exact id
      · simp only [Byte.has_and, Bool.and_eq_true]
        exact fun h => ⟨h.1.1, h.2⟩
    cases hlevel : s.lineIsLevel (levelAt s.priorityBase i) with
    | true =>
      -- a level input is still requested, and first
      have hfirst : first s.priorityBase (Byte.has (s.others (levelAt s.priorityBase i))) =
          some i := by
        unfold others
        rw [if_pos hlevel]
        exact hi
      rw [hfirst]
      simp
    | false =>
      -- the edge latch is consumed, so what is left is behind the level in service
      have hgone : Byte.has (s.others (levelAt s.priorityBase i)) (levelAt s.priorityBase i) =
          false := by
        simp [others, hlevel]
      refine ⟨?_, fun h => absurd h.2 (by simp)⟩
      rintro ⟨j, hj, hjp⟩
      have hij : i.val < j.val := first_behind hsub hi hgone hj
      omega

theorem int_takeRequest_iff (hidle : s.autoEoi = true → s.isr = 0) :
    s.takeRequest.1.int = true ↔ s.Lingers := by
  unfold takeRequest Lingers
  cases hr : s.resolve with
  | none =>
    have hoff : s.int = false := by
      unfold int
      rw [hr]
      rfl
    simp [hoff]
  | some line => simpa using int_taken_iff hidle hr

end State

end Rsemu.Pic
