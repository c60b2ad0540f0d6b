import Mathlib.Algebra.Order.Ring.Nat
import Mathlib.Data.List.FinRange
import Mathlib.Logic.Function.Basic
import Rsemu.Base.Argmax

/-!
# The platform-level interrupt controller

Three bits for each source: the level of its line, whether the controller has a request to
offer, and whether a handler has claimed it. Around them stand the priorities, and for each
context its enables and its threshold.

An operation gives the state it leaves, or nothing where it returned before it changed
anything: the lines of the contexts are driven in the one case and left alone in the other.
`Board` adds those lines, and the pins: each source's pin keeps the levels of the drivers of
its net and resolves them. `Board.step` is everything that can happen to it.
-/

namespace Rsemu.Plic

/-- There is always source 0. -/
scoped instance (priority := 2000) neZero_sources (sources : Nat) : NeZero (sources + 1) :=
  ⟨Nat.succ_ne_zero sources⟩

/-- The registers. -/
structure State (sources contexts : Nat) where
  priority : Fin (sources + 1) → Nat
  /-- The gateway has a request the controller will offer. -/
  pending : Fin (sources + 1) → Bool
  /-- What the wire is doing. -/
  level : Fin (sources + 1) → Bool
  /-- A handler has claimed this source and not completed it. -/
  claimed : Fin (sources + 1) → Bool
  enable : Fin contexts → Fin (sources + 1) → Bool
  threshold : Fin contexts → Nat

def priorityMask : Nat := 7

/-- What an offset stands for. -/
inductive Reg (contexts : Nat) where
  | priority (source : Nat)
  | pending (word : Nat)
  | enable (context : Fin contexts) (word : Nat)
  | threshold (context : Fin contexts)
  | claim (context : Fin contexts)
  /-- Inside the window but not a register this block implements. -/
  | none

def pendingBase : Nat := 0x001000
def enableBase : Nat := 0x002000
def enableStride : Nat := 0x80
def contextBase : Nat := 0x200000
def contextStride : Nat := 0x1000

/-- Decode a register-relative offset. -/
def decode (offset contexts : Nat) : Reg contexts :=
  if offset < pendingBase then .priority (offset / 4)
  else if offset < enableBase then .pending ((offset - pendingBase) / 4)
  else if offset < contextBase then
    if h : (offset - enableBase) / enableStride < contexts then
      .enable ⟨(offset - enableBase) / enableStride, h⟩ ((offset - enableBase) % enableStride / 4)
    else .none
  else if h : (offset - contextBase) / contextStride < contexts then
    let context : Fin contexts := ⟨(offset - contextBase) / contextStride, h⟩
    if (offset - contextBase) % contextStride = 0 then .threshold context
    else if (offset - contextBase) % contextStride = 4 then .claim context
    else .none
  else .none

/-- How an access fails. -/
inductive BusError where
  | badAccess

namespace State

variable {sources contexts : Nat}

def new (sources contexts : Nat) : State sources contexts where
  priority _ := 0
  pending _ := false
  level _ := false
  claimed _ := false
  enable _ _ := false
  threshold _ := 0

def best (s : State sources contexts) (context : Fin contexts) : Fin (sources + 1) :=
  ((List.finRange (sources + 1)).tail.foldl
    (Argmax.step s.priority fun source => s.pending source && s.enable context source)
    (0, s.threshold context)).1

def evaluate (s : State sources contexts) (context : Fin contexts) : Bool :=
  decide (s.best context ≠ 0)

/-- A change of a source's level. -/
def setLevel (s : State sources contexts) (source : Fin (sources + 1)) (level : Bool) :
    Option (State sources contexts) :=
  if s.level source = level then none
  else some { s with
    level := Function.update s.level source level
    -- the gateway forwards a request on assertion, and no more while a claim is held
    pending := if source ≠ 0 ∧ level = true ∧ s.claimed source = false
      then Function.update s.pending source true else s.pending }

def take (s : State sources contexts) (source : Fin (sources + 1)) : State sources contexts :=
  { s with
    pending := Function.update s.pending source false
    claimed := Function.update s.claimed source true }

def claim (s : State sources contexts) (context : Fin contexts) :
    State sources contexts × Fin (sources + 1) :=
  (if s.best context ≠ 0 then s.take (s.best context) else s, s.best context)

def accepts (s : State sources contexts) (context : Fin contexts) (source : Nat) : Option
    (Fin (sources + 1)) :=
  if h : source < sources + 1 then
    if source = 0 ∨ s.enable context ⟨source, h⟩ = false then none else some ⟨source, h⟩
  else none

def finish (s : State sources contexts) (source : Fin (sources + 1)) : State sources contexts :=
  { s with
    claimed := Function.update s.claimed source false
    pending := if s.level source then Function.update s.pending source true else s.pending }

def complete (s : State sources contexts) (context : Fin contexts) (source : Nat) :
    Option (State sources contexts) :=
  (s.accepts context source).map s.finish

def word (bits : Fin (sources + 1) → Bool) (index : Nat) : Nat :=
  (List.range 32).foldl (fun w bit =>
    if h : index * 32 + bit < sources + 1 then
      if bits ⟨index * 32 + bit, h⟩ then w ||| 1 <<< bit else w
    else w) 0

def enableWord (enable : Fin (sources + 1) → Bool) (index value : Nat) :
    Fin (sources + 1) → Bool :=
  (List.range 32).foldl (fun e bit =>
    if h : index * 32 + bit = 0 ∨ sources + 1 ≤ index * 32 + bit then e
    else Function.update e ⟨index * 32 + bit, by omega⟩ (value.testBit bit)) enable

/-- What a register reads, and what reading it does. -/
def readReg (s : State sources contexts) (debug : Bool) : Reg contexts →
    Option (State sources contexts) × Except BusError Nat
  | .priority source =>
    (none, .ok (if h : source < sources + 1 then s.priority ⟨source, h⟩ else 0))
  | .pending index => (none, .ok (word s.pending index))
  | .enable context index => (none, .ok (word (s.enable context) index))
  | .threshold context => (none, .ok (s.threshold context))
  | .claim context =>
    -- a debugger that peeked here would steal the guest's interrupt
    if debug then (none, .error .badAccess)
    else (some (s.claim context).1, .ok (s.claim context).2.val)
  | .none => (none, .ok 0)

def read (s : State sources contexts) (offset length : Nat) (debug : Bool) :
    Option (State sources contexts) × Except BusError Nat :=
  if length ≠ 4 ∨ offset % 4 ≠ 0 then (none, .error .badAccess)
  else s.readReg debug (decode offset contexts)

/-- What storing a value in a register does. -/
def writeReg (s : State sources contexts) (value : Nat) :
    Reg contexts → Option (State sources contexts)
  | .priority source =>
    if h : 0 < source ∧ source ≤ sources then
      some { s with
        priority := Function.update s.priority ⟨source, by omega⟩ (value &&& priorityMask) }
    else none
  | .pending _ => none
  | .enable context index =>
    some { s with
      enable := Function.update s.enable context (enableWord (s.enable context) index value) }
  | .threshold context =>
    some { s with threshold := Function.update s.threshold context (value &&& priorityMask) }
  | .claim context => s.complete context value
  | .none => none

def write (s : State sources contexts) (offset length value : Nat) (debug : Bool) :
    Option (State sources contexts) × Except BusError Unit :=
  if length ≠ 4 ∨ offset % 4 ≠ 0 then (none, .error .badAccess)
  else if debug then (none, .error .badAccess)
  else (s.writeReg value (decode offset contexts), .ok ())

end State

/-- A wire's number. -/
abbrev WireId := Nat

/-- The levels of the drivers of one net, as a sink keeps them. -/
structure FanIn where
  drivers : List WireId
  high : WireId → Bool

namespace FanIn

def new (drivers : List WireId) : FanIn := ⟨drivers, fun _ => false⟩

def set (f : FanIn) (driver : WireId) (level : Bool) : FanIn :=
  if driver ∈ f.drivers then { f with high := Function.update f.high driver level } else f

def anyHigh (f : FanIn) : Bool := f.drivers.any f.high

end FanIn

/-- The controller with its pins and its lines. Pin `i` is that of source `i + 1`. -/
structure Board (sources contexts : Nat) where
  regs : State sources contexts
  pins : Fin sources → FanIn
  /-- The external line of each context, as it was last driven. -/
  lines : Fin contexts → Bool

/-- What can happen to a board. -/
inductive Op (sources : Nat) where
  | level (pin : Fin sources) (driver : WireId) (level : Bool)
  | read (offset length : Nat) (debug : Bool)
  | write (offset length value : Nat) (debug : Bool)
  | reset

namespace Board

variable {sources contexts : Nat}

def new (contexts : Nat) (nets : Fin sources → List WireId) : Board sources contexts :=
  ⟨.new sources contexts, fun i => .new (nets i), fun _ => false⟩

def drive (b : Board sources contexts) : Option (State sources contexts) → Board sources contexts
  | none => b
  | some regs => { b with regs := regs, lines := regs.evaluate }

def setLevel (b : Board sources contexts) (pin : Fin sources) (driver : WireId) (level : Bool) :
    Board sources contexts :=
  let net := (b.pins pin).set driver level
  { b with pins := Function.update b.pins pin net }.drive (b.regs.setLevel pin.succ net.anyHigh)

/-- Everything that can happen to a board. -/
def step (b : Board sources contexts) : Op sources → Board sources contexts
  | .level pin driver level => b.setLevel pin driver level
  | .read offset length debug => b.drive (b.regs.read offset length debug).1
  | .write offset length value debug => b.drive (b.regs.write offset length value debug).1
  | .reset => b.drive (some (.new sources contexts))

end Board

end Rsemu.Plic
