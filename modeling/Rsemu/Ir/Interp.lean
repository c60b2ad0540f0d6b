import Rsemu.Ir.Block

/-!
# The interpreter

The portable backend: it executes a block one instruction at a time against a host that owns
the guest's registers, its memory and its clock.

The host is a record of functions over a world of its own. Its slot storage stands beside the
world: the trait's contract is that accesses, fences, charges and boundaries neither read nor
write the guest's registers, and only a helper, which is arbitrary code, sees both.

A boundary only remembers its mapping from slots to temporaries; the mapping is written out
when a helper is called, when a slot that it binds is read, and when the run ends.
-/

namespace Rsemu.Ir.Interp

/-- How an access fails. -/
inductive BusError where
  | unassigned | badAccess | protect | retry
  deriving DecidableEq

/-- What an execution can fail with: a malformed block, a retry that came too late,
whatever a helper returns, or a panic of the arithmetic. -/
inductive Error where
  | ir (message : String)
  | bus (error : BusError)
  | helper (message : String)
  | panic (message : String)
  deriving DecidableEq

/-- The Rust would stop with a panic. -/
def Error.IsPanic : Error → Prop
  | .panic _ => True
  | _ => False

/-- A fault, and where the block stood. -/
structure Fault where
  error : BusError
  index : Nat
  mark : Option Nat
  pc : Nat
  retiredTicks : BitVec 64
  chargedTicks : BitVec 64
  restartable : Bool
  deriving DecidableEq

/-- How a block ends. -/
inductive Outcome where
  | exit
  | goto (pc : BitVec 64)
  | lookup (pc : BitVec 64)
  | spent (pc : Nat)
  | fault (f : Fault)
  | unsupported (op : Opcode) (index : Nat)
  deriving DecidableEq

/-- Where control goes after an instruction. -/
inductive Step where
  | next
  | jump (target : Nat)
  | done (outcome : Outcome)
  deriving DecidableEq

/-- The architectural registers. -/
abbrev Slots := RegSlot → Val

/-- What a block is run on. -/
structure IrHost (W : Type) where
  /-- What a slot keeps of a value written to it. -/
  keep : RegSlot → Val → Val
  load : MemOp → BitVec 64 → W → Except BusError (BitVec 64) × W
  store : MemOp → BitVec 64 → BitVec 64 → W → Except BusError Unit × W
  charge : BitVec 64 → W → W
  insnStart : InsnStart → W → W
  spent : W → Bool
  rmw : Opcode → MemOp → BitVec 64 → BitVec 64 → BitVec 64 → W → Except BusError (BitVec 64) × W
  fence : W → W
  callHelper : Nat → List Val → Slots → W → Except Error (Val × Val) × Slots × W

/-- The interpreter's own state with the host's world: everything but the guest's slots
and whether they are up to date. -/
structure Core (W : Type) where
  temps : List Val
  ticks : BitVec 64
  mark : Option Nat
  boundaries : BitVec 64
  boundaryPc : Nat
  retired : BitVec 64
  committed : Bool
  world : W

/-- The state of a run. -/
structure Exec (W : Type) where
  core : Core W
  /-- Whether the mapping of the last boundary has been written out. -/
  published : Bool
  slots : Slots

variable {W : Type}

/-- A computation over the state that can end the run. -/
abbrev CoreM (W : Type) := ExceptT Error (StateM (Core W))

namespace Checked

def overflow {α : Type} (what : String) : Except Error α :=
  .error (.panic ("attempt to " ++ what ++ " with overflow"))

def byZero {α : Type} (what : String) : Except Error α := .error (.panic ("attempt to " ++ what))

def add (a b : Nat) : Except Error Nat := if a + b < 2 ^ 32 then .ok (a + b) else overflow "add"

def sub (a b : Nat) : Except Error Nat := if b ≤ a then .ok (a - b) else overflow "subtract"

def mul (a b : Nat) : Except Error Nat :=
  if a * b < 2 ^ 32 then .ok (a * b) else overflow "multiply"

def rem (a b : Nat) : Except Error Nat :=
  if b = 0 then byZero "calculate the remainder with a divisor of zero" else .ok (a % b)

def shl (x : Val) (n : Nat) : Except Error Val :=
  if n < 128 then .ok (x <<< n) else overflow "shift left"

def shr (x : Val) (n : Nat) : Except Error Val :=
  if n < 128 then .ok (x >>> n) else overflow "shift right"

def sar (x : Val) (n : Nat) : Except Error Val :=
  if n < 128 then .ok (x.sshiftRight n) else overflow "shift right"

/-- A mask with `bits` low bits set, saturating at 128. -/
def maskBits (bits : Nat) : Except Error Val :=
  if 128 ≤ bits then .ok (BitVec.allOnes 128)
  else do pure (BitVec.ofNat 128 (← sub (← shl 1#128 bits).toNat 1))

/-- Sign-extend the low `bits` of `value`. -/
def sext (value : Val) (bits : Nat) : Except Error Val :=
  if 128 ≤ bits then .ok value
  else do
    let shift ← sub 128 bits
    sar (← shl value shift) shift

/-- The mask of a `len`-bit field at `pos`, or `none` if it leaves the type. -/
def fieldMask (pos len width : Nat) : Except Error (Option Val) :=
  if len = 0 then .ok none
  else do
    if width < (← add pos len) then pure none
    else pure (some (← shl (← maskBits len) pos))

def swapLane (piece : Val) (bytes : Nat) : Except Error Val :=
  (List.range bytes).foldlM (fun out k => do
    let byte := (← shr piece (← mul 8 k)) &&& 0xff#128
    pure (out ||| (← shl byte (← mul 8 (← sub (← sub bytes 1) k))))) 0#128

/-- Reverse the byte order within each `lane`-bit lane of a `width`-bit value. -/
def bswap (value : Val) (width lane : Nat) : Except Error Val := do
  let laneMask ← maskBits lane
  (List.range ((width + lane - 1) / lane)).foldlM (fun out k => do
    let piece := (← shr value (lane * k)) &&& laneMask
    let out := out ||| (← shl (← swapLane piece (lane / 8)) (lane * k))
    let _next ← add (lane * k) lane
    pure out) 0#128

/-- Evaluate a comparison at `width` bits. -/
def compare (cond : Cond) (width : Nat) (a b : Val) : Except Error Bool :=
  match cond with
  | .eq => .ok (decide (a = b))
  | .ne => .ok (decide (a ≠ b))
  | .ltU => .ok (a.ult b)
  | .leU => .ok (a.ule b)
  | .gtU => .ok (b.ult a)
  | .geU => .ok (b.ule a)
  | .ltS => do pure ((← sext a width).slt (← sext b width))
  | .leS => do pure ((← sext a width).sle (← sext b width))
  | .gtS => do
    let a ← sext a width
    pure ((← sext b width).slt a)
  | .geS => do
    let a ← sext a width
    pure ((← sext b width).sle a)

def sextIf (signed : Prop) [Decidable signed] (x : Val) (w : Nat) : Except Error Val :=
  if signed then sext x w else .ok x

/-- A division or a remainder, which panics at zero. -/
def quotient (op : Opcode) (x y : Val) : Except Error Val :=
  if op = .divS ∨ op = .divU then
    if y = 0#128 then byZero "divide by zero" else .ok (if op = .divS then x.sdiv y else x / y)
  else if y = 0#128 then byZero "calculate the remainder with a divisor of zero"
  else .ok (if op = .remS then x.srem y else x % y)

/-- Division and remainder. The signed ones divide by the low bits of `y`. -/
def divide (op : Opcode) (w : Nat) (x y : Val) : Except Error Val := do
  let x ← sextIf (op = .divS ∨ op = .remS) x w
  let y ← sextIf (op = .divS ∨ op = .remS) y w
  pure ((← quotient op x y) &&& (← maskBits w))

/-- The carry out of a sum of three: the bit that fell off the top of the width. -/
def carryOut (w : Nat) (x y c : Val) : Except Error Bool :=
  if 128 ≤ w then
    .ok (decide (2 ^ 128 ≤ x.toNat + y.toNat) || decide (2 ^ 128 ≤ (x + y).toNat + c.toNat))
  else do pure ((← shr (x + y + c) w).getLsbD 0)

/-- A sum or a difference, and the carry or the borrow out. -/
def addc (op : Opcode) (w : Nat) (x y c : Val) : Except Error (Val × Bool) := do
  let m ← maskBits w
  if op = .addc then pure ((x + y + c) &&& m, ← carryOut w x y c)
  else pure ((x - y - c) &&& m, decide (2 ^ 128 ≤ y.toNat + c.toNat) || x.ult (y + c))

/-- The two halves of a product. -/
def mul2 (op : Opcode) (w : Nat) (x y : Val) : Except Error (Val × Val) := do
  let m ← maskBits w
  let product := (← sextIf (op ≠ .mulu2) x w) * (← sextIf (op = .muls2) y w)
  pure (product &&& m, (← shr product w) &&& m)

/-- A shift by any amount, in a type's width. -/
def shiftValue (op : Opcode) (w : Nat) (m x amount : Val) : Except Error Val :=
  if w ≤ amount.toNat then
    if op = .sar then do pure (if (← sext x w).msb then m else 0#128) else .ok 0#128
  else if op = .shl then shl x (amount.toNat % 2 ^ 32)
  else if op = .shr then shr x (amount.toNat % 2 ^ 32)
  else do sar (← sext x w) (amount.toNat % 2 ^ 32)

/-- Shifts. Out of range is the mathematical answer. -/
def shift (op : Opcode) (w : Nat) (x amount : Val) : Except Error Val := do
  let m ← maskBits w
  pure ((← shiftValue op w m x amount) &&& m)

/-- How far to the left a rotate goes. -/
def rotateBy (op : Opcode) (w : Nat) (amount : Val) : Except Error Nat := do
  let n := (← rem amount.toNat w) % 2 ^ 32
  if op = .rotl then pure n else do rem (← sub w n) w

def rotate (op : Opcode) (w : Nat) (x amount : Val) : Except Error Val := do
  let n ← rotateBy op w amount
  if n = 0 then pure x
  else do pure (((← shl x n) ||| (← shr x (← sub w n))) &&& (← maskBits w))

def rotateCarry (op : Opcode) (w : Nat) (x c : Val) : Except Error (Val × Val) := do
  let m ← maskBits w
  if op = .rotlc then
    pure (((← shl x 1) ||| c) &&& m, (← shr x (← sub w 1)) &&& 1#128)
  else
    pure (((← shr x 1) ||| (← shl c (← sub w 1))) &&& m, x &&& 1#128)

def leadingZeros (a : Val) : Nat := if a = 0#128 then 128 else 127 - a.toNat.log2

def countTrailing (a : Val) : Nat := ((List.range 128).find? a.getLsbD).getD 128

def countOnes (a : Val) : Nat := (List.range 128).countP a.getLsbD

/-- Bit counts. What lies above the type comes off the leading zeros, saturating. -/
def count (op : Opcode) (w : Nat) (x : Val) : Except Error Val :=
  if op = .clz then do pure (BitVec.ofNat 128 (leadingZeros x - (← sub 128 w)))
  else .ok (BitVec.ofNat 128 (if op = .ctz then min (countTrailing x) w else countOnes x))

end Checked

def bitfieldParts (aux : Nat) : Nat × Nat := (aux % 2 ^ 16, aux / 2 ^ 16 % 2 ^ 16)

def bit0 (a : Val) : Bool := a.getLsbD 0

def ofBool (p : Bool) : Val := if p then 1#128 else 0#128

def fail {α : Type} (i : Nat) (op : Opcode) (what : String) : CoreM W α :=
  throw (.ir (irErr i op what))

def check {α : Type} (r : Except Error α) : CoreM W α :=
  match r with
  | .ok v => pure v
  | .error e => throw e

def src (inst : Inst) (i k : Nat) : CoreM W Temp :=
  match inst.srcs[k]? with
  | some t => pure t
  | none => fail i inst.op "too few source operands"

def getTemp (t : Temp) (i : Nat) (op : Opcode) : CoreM W Val := do
  match (← getThe (Core W)).temps[t]? with
  | some v => pure v
  | none => fail i op "an operand was never allocated in this block"

def operand (inst : Inst) (i k : Nat) : CoreM W Val := do
  getTemp (← src inst i k) i inst.op

/-- A result masked to its type and stored. -/
def setTemp (b : Block) (t : Temp) (v : Val) (i : Nat) (op : Opcode) : CoreM W Unit :=
  match b.typeOf t with
  | none => fail i op "a result was never allocated in this block"
  | some ty => do
    let c ← getThe (Core W)
    if t < c.temps.length then do
      let m ← check (Checked.maskBits ty.bits)
      set { c with temps := c.temps.set t (v &&& m) }
    else fail i op "a result was never allocated in this block"

def writeDst (b : Block) (inst : Inst) (v : Val) (i : Nat) : CoreM W Unit :=
  match inst.dst with
  | some d => setTemp b d v i inst.op
  | none => fail i inst.op "this op must have a destination"

def writeDst2 (b : Block) (inst : Inst) (v : Val) (i : Nat) (what : String) : CoreM W Unit :=
  match inst.dst2 with
  | some d => setTemp b d v i inst.op
  | none => fail i inst.op what

def writeSome (b : Block) (inst : Inst) (dst : Option Temp) (v : Val) (i : Nat) : CoreM W Unit :=
  match dst with
  | some d => setTemp b d v i inst.op
  | none => pure ()

/-- Write a result that is computed with checks. -/
def writeChecked (b : Block) (inst : Inst) (r : Except Error Val) (i : Nat) : CoreM W Step := do
  writeDst b inst (← check r) i
  pure .next

/-- Write a result masked to the type of the instruction. -/
def writeMasked (b : Block) (inst : Inst) (v : Val) (i : Nat) : CoreM W Step :=
  writeChecked b inst (do pure (v &&& (← Checked.maskBits inst.ty.bits))) i

def requireInt (inst : Inst) (i : Nat) : CoreM W Unit :=
  if inst.ty.isInt then pure () else fail i inst.op "arithmetic on a non-integer type"

def commit : CoreM W Unit := modify fun c => { c with committed := true }

def commitIf (p : Bool) : CoreM W Unit := if p then commit else pure ()

def movValue (inst : Inst) (i : Nat) : CoreM W Val :=
  match inst.srcs[0]?, inst.imm with
  | some s, _ => getTemp s i inst.op
  | none, some c => pure c.bits
  | none, none => fail i inst.op "a mov needs a source or an immediate"

def stepMov (b : Block) (inst : Inst) (i : Nat) : CoreM W Step := do
  let value ← movValue inst i
  writeDst b inst value i
  pure .next

def stepExtS (b : Block) (inst : Inst) (i : Nat) : CoreM W Step := do
  let s ← src inst i 0
  match b.typeOf s with
  | none => fail i inst.op "the source was never allocated in this block"
  | some from_ => do
    writeChecked b inst (Checked.sext (← getTemp s i inst.op) from_.bits) i

def stepExtZ (b : Block) (inst : Inst) (i : Nat) : CoreM W Step := do
  writeDst b inst (← operand inst i 0) i
  pure .next

def laneWidth (inst : Inst) (i : Nat) : CoreM W Nat :=
  match inst.imm with
  | some c =>
    if c.bits.toNat < 2 ^ 32 then pure c.bits.toNat else fail i inst.op "the lane width is absurd"
  | none => pure inst.ty.bits

/-- Bytes reversed in each lane. -/
def stepBswap (b : Block) (inst : Inst) (i : Nat) : CoreM W Step := do
  let lane ← laneWidth inst i
  if lane < 8 ∨ lane % 8 ≠ 0 ∨ inst.ty.bits % lane ≠ 0 then
    fail i inst.op "the lane width must be whole bytes and divide the type"
  else do
    writeChecked b inst (Checked.bswap (← operand inst i 0) inst.ty.bits lane) i

/-- A field put into a word. -/
def stepDeposit (b : Block) (inst : Inst) (i : Nat) : CoreM W Step := do
  let (pos, len) := bitfieldParts inst.aux
  match ← check (Checked.fieldMask pos len inst.ty.bits) with
  | none => fail i inst.op "the bitfield does not fit within the type"
  | some field => do
    let into ← operand inst i 0
    let what ← operand inst i 1
    let moved ← check (Checked.shl what pos)
    writeDst b inst ((into &&& ~~~field) ||| (moved &&& field)) i
    pure .next

/-- A field taken out of a word. -/
def stepExtract (b : Block) (inst : Inst) (i : Nat) : CoreM W Step := do
  let (pos, len) := bitfieldParts inst.aux
  match ← check (Checked.fieldMask pos len inst.ty.bits) with
  | none => fail i inst.op "the bitfield does not fit within the type"
  | some field => do
    writeChecked b inst (Checked.shr ((← operand inst i 0) &&& field) pos) i

def arithValue (inst : Inst) (i : Nat) (x : Val) : CoreM W Val :=
  if inst.op = .neg then pure (0#128 - x)
  else do
    let y ← operand inst i 1
    pure (if inst.op = .add then x + y else if inst.op = .sub then x - y else x * y)

def stepArith (b : Block) (inst : Inst) (i : Nat) : CoreM W Step := do
  requireInt inst i
  let x ← operand inst i 0
  let value ← arithValue inst i x
  writeMasked b inst value i

/-- Division and remainder. The guard looks at the whole divisor. -/
def stepDiv (b : Block) (inst : Inst) (i : Nat) : CoreM W Step := do
  requireInt inst i
  let x ← operand inst i 0
  let y ← operand inst i 1
  if y = 0#128 then fail i inst.op "divide by zero; the frontend owes a guard"
  else writeChecked b inst (Checked.divide inst.op inst.ty.bits x y) i

/-- A sum with a carry in and a carry out. -/
def stepAddc (b : Block) (inst : Inst) (i : Nat) : CoreM W Step := do
  requireInt inst i
  let x ← operand inst i 0
  let y ← operand inst i 1
  let c := (← operand inst i 2) &&& 1#128
  let out ← check (Checked.addc inst.op inst.ty.bits x y c)
  writeDst b inst out.1 i
  writeDst2 b inst (ofBool out.2) i "a carry op must produce its carry out"
  pure .next

/-- A product in two halves. -/
def stepMul2 (b : Block) (inst : Inst) (i : Nat) : CoreM W Step := do
  requireInt inst i
  if 64 < inst.ty.bits then pure (.done (.unsupported inst.op i))
  else do
    let x ← operand inst i 0
    let y ← operand inst i 1
    let halves ← check (Checked.mul2 inst.op inst.ty.bits x y)
    if inst.op = .mulhsu then do
      writeDst b inst halves.2 i
      pure .next
    else do
      writeDst b inst halves.1 i
      writeDst2 b inst halves.2 i "a widening multiply must produce its high half"
      pure .next

def logicValue (inst : Inst) (i : Nat) (x : Val) : CoreM W Val :=
  if inst.op = .not then pure (~~~x)
  else do
    let y ← operand inst i 1
    pure (if inst.op = .and then x &&& y else if inst.op = .or then x ||| y
      else if inst.op = .xor then x ^^^ y else x &&& ~~~y)

def stepLogic (b : Block) (inst : Inst) (i : Nat) : CoreM W Step := do
  let x ← operand inst i 0
  let value ← logicValue inst i x
  writeMasked b inst value i

def stepShift (b : Block) (inst : Inst) (i : Nat) : CoreM W Step := do
  requireInt inst i
  let x ← operand inst i 0
  let amount ← operand inst i 1
  writeChecked b inst (Checked.shift inst.op inst.ty.bits x amount) i

def stepRotate (b : Block) (inst : Inst) (i : Nat) : CoreM W Step := do
  requireInt inst i
  let x ← operand inst i 0
  let amount ← operand inst i 1
  writeChecked b inst (Checked.rotate inst.op inst.ty.bits x amount) i

/-- A rotation through the carry. -/
def stepRotateCarry (b : Block) (inst : Inst) (i : Nat) : CoreM W Step := do
  requireInt inst i
  let x ← operand inst i 0
  let c := (← operand inst i 1) &&& 1#128
  let out ← check (Checked.rotateCarry inst.op inst.ty.bits x c)
  writeDst b inst out.1 i
  writeDst2 b inst out.2 i "a carry op must produce its carry out"
  pure .next

def stepCount (b : Block) (inst : Inst) (i : Nat) : CoreM W Step := do
  requireInt inst i
  let x ← operand inst i 0
  writeChecked b inst (Checked.count inst.op inst.ty.bits x) i

/-- A comparison as a value. -/
def stepSetcond (b : Block) (inst : Inst) (i : Nat) : CoreM W Step :=
  match inst.cond with
  | none => fail i inst.op "a comparison needs a condition"
  | some cond => do
    let x ← operand inst i 0
    let y ← operand inst i 1
    let holds ← check (Checked.compare cond inst.ty.bits x y)
    writeDst b inst (ofBool holds) i
    pure .next

def decideOn (inst : Inst) (i : Nat) : Option Cond → CoreM W Bool
  | some cond => do
    let x ← operand inst i 0
    let y ← operand inst i 1
    check (Checked.compare cond inst.ty.bits x y)
  | none => do pure (bit0 (← operand inst i 0))

/-- The temporary a select picks. -/
def selected (inst : Inst) (i : Nat) : CoreM W Temp :=
  if inst.cond.isSome ∧ inst.srcs.length = 4 then do
    let taken ← decideOn inst i inst.cond
    let t ← src inst i 2
    let f ← src inst i 3
    pure (if taken then t else f)
  else if inst.srcs.length = 3 then do
    let taken ← decideOn inst i none
    let t ← src inst i 1
    let f ← src inst i 2
    pure (if taken then t else f)
  else fail i inst.op "a movcond takes a selector and two values, or a condition and four"

def stepMovcond (b : Block) (inst : Inst) (i : Nat) : CoreM W Step := do
  let t ← selected inst i
  let value ← getTemp t i inst.op
  writeDst b inst value i
  pure .next

def branchTaken (inst : Inst) (i : Nat) : CoreM W Bool :=
  if inst.cond.isSome ∧ inst.srcs.length = 2 then decideOn inst i inst.cond
  else if inst.srcs.length = 1 then decideOn inst i none
  else fail i inst.op "a brcond takes a selector, or a condition and two values"

def stepBrcond (inst : Inst) (i : Nat) : CoreM W Step := do
  let taken ← branchTaken inst i
  if taken then pure (.jump inst.aux) else pure .next

def fault (i : Nat) (error : BusError) : CoreM W Step := do
  let c ← getThe (Core W)
  if error = .retry ∧ c.committed = true then throw (.bus .retry)
  else
    pure (.done (.fault ⟨error, i, c.mark, c.boundaryPc, c.retired, c.ticks, !c.committed⟩))

def ask {α : Type} (f : W → α × W) : CoreM W α := do
  let c ← getThe (Core W)
  let (r, world) := f c.world
  set { c with world := world }
  pure r

def widthBits : Space.Width → Nat
  | .u8 => 8
  | .u16 => 16
  | .u32 => 32
  | .u64 => 64

def widthMask (width : Space.Width) : BitVec 64 :=
  BitVec.ofNat 64 (2 ^ widthBits width - 1)

/-- A load, which may fault. -/
def stepLd (host : IrHost W) (b : Block) (inst : Inst) (i : Nat) : CoreM W Step :=
  match inst.mem with
  | none => fail i inst.op "a memory op needs a MemOp descriptor"
  | some mem => do
    let addr := (← operand inst i 0).setWidth 64
    commitIf mem.volatile
    match ← ask (host.load mem addr) with
    | .error e => fault i e
    | .ok raw =>
      let bits := widthBits mem.size
      let value := (raw.setWidth 128) &&& (← check (Checked.maskBits bits))
      writeChecked b inst (if mem.sign = .signed then Checked.sext value bits else .ok value) i

/-- A store, which may fault. -/
def stepSt (host : IrHost W) (inst : Inst) (i : Nat) : CoreM W Step :=
  match inst.mem with
  | none => fail i inst.op "a memory op needs a MemOp descriptor"
  | some mem => do
    let addr := (← operand inst i 0).setWidth 64
    let value := (← operand inst i 1).setWidth 64 &&& widthMask mem.size
    commit
    match ← ask (host.store mem addr value) with
    | .error e => fault i e
    | .ok () => pure .next

/-- The access of an atomic: never eliminable, and a load only when it takes a
reservation. -/
def atomicMem (op : Opcode) (width : Space.Width) : MemOp :=
  { MemOp.load width with
    kind := if op = .ldExcl then .load else .store
    volatile := true }

def atomicWidth (inst : Inst) (i : Nat) : CoreM W Space.Width :=
  match inst.ty with
  | .i32 => pure .u32
  | .i64 => pure .u64
  | _ => fail i inst.op "an atomic must be i32 or i64"

/-- The argument of an atomic, and what it compares with. -/
def atomicArgs (inst : Inst) (i : Nat) : CoreM W (BitVec 64 × BitVec 64) :=
  if inst.op = .ldExcl then pure (0#64, 0#64)
  else if inst.op = .cmpxchg then do
    let arg ← operand inst i 2
    let old ← operand inst i 1
    pure (arg.setWidth 64, old.setWidth 64)
  else do
    let arg ← operand inst i 1
    pure (arg.setWidth 64, 0#64)

/-- The atomic family. -/
def stepAtomic (host : IrHost W) (b : Block) (inst : Inst) (i : Nat) : CoreM W Step := do
  let width ← atomicWidth inst i
  let addr ← operand inst i 0
  let args ← atomicArgs inst i
  commit
  match ← ask (host.rmw inst.op (atomicMem inst.op width) (addr.setWidth 64) args.1 args.2) with
  | .error e => fault i e
  | .ok previous => do
    writeSome b inst inst.dst (previous.setWidth 128) i
    writeSome b inst (if inst.op = .cmpxchg then inst.dst2 else none)
      (ofBool (decide (previous = args.2))) i
    pure .next

def stepFence (host : IrHost W) : CoreM W Step := do
  commit
  ask fun w => ((), host.fence w)
  pure .next

def stepGotoTb (inst : Inst) (i : Nat) : CoreM W Step :=
  match inst.imm with
  | none => fail i inst.op "a goto_tb needs its successor's PC"
  | some pc => pure (.done (.goto (pc.bits.setWidth 64)))

def stepLookup (inst : Inst) (i : Nat) : CoreM W Step := do
  pure (.done (.lookup ((← operand inst i 0).setWidth 64)))

/-- Ticks charged to the guest. -/
def stepCharge (host : IrHost W) (inst : Inst) (i : Nat) : CoreM W Step :=
  match inst.imm with
  | none => fail i inst.op "a charge needs a tick count"
  | some c => do
    let ticks := c.bits.setWidth 64
    modify fun c => { c with ticks := c.ticks + ticks, committed := true }
    ask fun w => ((), host.charge ticks w)
    pure .next

/-- Every operation that leaves the slots and the pending boundary alone. -/
def coreStep (host : IrHost W) (b : Block) (inst : Inst) (i : Nat) : CoreM W Step :=
  match inst.op with
  | .mov => stepMov b inst i
  | .extS => stepExtS b inst i
  | .extZ | .trunc => stepExtZ b inst i
  | .bswap => stepBswap b inst i
  | .deposit => stepDeposit b inst i
  | .extract => stepExtract b inst i
  | .add | .sub | .mul | .neg => stepArith b inst i
  | .divS | .divU | .remS | .remU => stepDiv b inst i
  | .addc | .subb => stepAddc b inst i
  | .mulu2 | .muls2 | .mulhsu => stepMul2 b inst i
  | .and | .or | .xor | .andc | .not => stepLogic b inst i
  | .shl | .shr | .sar => stepShift b inst i
  | .rotl | .rotr => stepRotate b inst i
  | .rotlc | .rotrc => stepRotateCarry b inst i
  | .clz | .ctz | .popcount => stepCount b inst i
  | .setcond => stepSetcond b inst i
  | .movcond => stepMovcond b inst i
  | .brcond => stepBrcond inst i
  | .ld => stepLd host b inst i
  | .st => stepSt host inst i
  | .fence => stepFence host
  | .cmpxchg | .xchg | .ldExcl | .stExcl | .fetchAdd | .fetchAnd | .fetchOr | .fetchXor
  | .fetchSmin | .fetchSmax | .fetchUmin | .fetchUmax => stepAtomic host b inst i
  | .gotoTb => stepGotoTb inst i
  | .exitTb => pure (.done .exit)
  | .lookupAndGoto => stepLookup inst i
  | .charge => stepCharge host inst i
  | op => pure (.done (.unsupported op i))

def runCore {α : Type} (m : CoreM W α) (s : Exec W) : Except Error α × Exec W :=
  let (r, c) := m.run.run s.core
  (r, { s with core := c })

def writeSlot (host : IrHost W) (slots : Slots) (slot : RegSlot) (v : Val) : Slots :=
  fun s => if s = slot then host.keep slot v else slots s

def writeLive (host : IrHost W) (temps : List Val) : List (RegSlot × Temp) → Slots → Slots
  | [], slots => slots
  | (slot, t) :: rest, slots =>
    writeLive host temps rest (temps[t]?.elim slots (writeSlot host slots slot))

def liveMap (b : Block) (mark : Option Nat) : List (RegSlot × Temp) :=
  (mark.bind fun m => b.marks[m]?).elim [] InsnStart.live

def publish (host : IrHost W) (b : Block) (s : Exec W) : Exec W :=
  if s.published then s
  else
    { s with
      published := true
      slots := writeLive host s.core.temps (liveMap b s.core.mark) s.slots }

def shadowed (b : Block) (s : Exec W) (slot : RegSlot) : Bool :=
  !s.published && (liveMap b s.core.mark).any fun p => decide (p.1 = slot)

def slotOf (inst : Inst) : RegSlot := inst.aux % 2 ^ 16

def stepGetSlot (host : IrHost W) (b : Block) (inst : Inst) (i : Nat) (s : Exec W) :
    Except Error Step × Exec W :=
  let s := if shadowed b s (slotOf inst) then publish host b s else s
  runCore (do writeDst b inst (s.slots (slotOf inst)) i; pure .next) s

def helperArgs (inst : Inst) (i : Nat) : CoreM W (List Val) :=
  inst.srcs.mapM fun t => getTemp t i inst.op

def writeResults (b : Block) (inst : Inst) (i : Nat) (first second : Val) : CoreM W Step := do
  writeSome b inst inst.dst first i
  writeSome b inst inst.dst2 second i
  pure .next

/-- A helper called and its results stored. -/
def callHost (host : IrHost W) (b : Block) (inst : Inst) (i : Nat) (args : List Val)
    (s : Exec W) : Except Error Step × Exec W :=
  let (r, slots, world) := host.callHelper inst.aux args s.slots s.core.world
  let s := { s with core := { s.core with world := world }, slots := slots }
  match r with
  | .error e => (.error e, s)
  | .ok (first, second) => runCore (writeResults b inst i first second) s

/-- A helper may read the guest's registers, so the pending boundary is written out before
it runs. -/
def stepCallHelper (host : IrHost W) (b : Block) (inst : Inst) (i : Nat) (s : Exec W) :
    Except Error Step × Exec W :=
  match runCore (helperArgs inst i) s with
  | (.error e, s) => (.error e, s)
  | (.ok args, s) =>
    callHost host b inst i args
      (publish host b { s with core := { s.core with committed := true } })

/-- A boundary: the mapping is remembered, and the tick allowance asked about, except at
the block's first boundary and at one a terminator follows. -/
def stepInsnStart (host : IrHost W) (b : Block) (inst : Inst) (i : Nat) (s : Exec W) :
    Except Error Step × Exec W :=
  match b.marks[inst.aux]? with
  | none => (.error (.ir (irErr i inst.op "the boundary marker points at no record")), s)
  | some mark =>
    let core :=
      { s.core with
        mark := some inst.aux
        boundaries := s.core.boundaries + 1#64
        boundaryPc := mark.pc
        retired := s.core.ticks
        committed := false
        world := host.insnStart mark s.core.world }
    let s := { s with core := core, published := false }
    if (1#64).ult core.boundaries && host.spent core.world && !b.terminatorFollows i then
      (.ok (.done (.spent mark.pc)), s)
    else (.ok .next, s)

def step (host : IrHost W) (b : Block) (inst : Inst) (i : Nat) (s : Exec W) :
    Except Error Step × Exec W :=
  match inst.op with
  | .getSlot => stepGetSlot host b inst i s
  | .callHelper => stepCallHelper host b inst i s
  | .insnStart => stepInsnStart host b inst i s
  | _ => runCore (coreStep host b inst i) s

/-- An interpreter of single instructions. -/
abbrev Stepper (W : Type) := Inst → Nat → Exec W → Except Error Step × Exec W

def stepLimit : Nat := 2 ^ 24

/-- Execute from instruction `i` on, for at most `budget` instructions. -/
def execute (b : Block) (stepper : Stepper W) :
    Nat → Nat → Exec W → Except Error Outcome × Exec W
  | budget, i, s =>
    match b.insts[i]? with
    | none => (.error (.ir s!"block {hex b.entryPc} ran off the end without reaching a terminator"),
        s)
    | some inst =>
      match budget with
      | 0 => (.error (.ir (s!"block {hex b.entryPc} did not terminate within " ++
          s!"{stepLimit} instructions")), s)
      | budget + 1 =>
        match stepper inst i s with
        | (.error e, s) => (.error e, s)
        | (.ok (.done outcome), s) => (.ok outcome, s)
        | (.ok .next, s) => execute b stepper budget (i + 1) s
        | (.ok (.jump target), s) =>
          if b.insts.length ≤ target then
            (.error (.ir (irErr i inst.op "the branch target is outside the block")), s)
          else execute b stepper budget target s

def start (b : Block) (slots : Slots) (world : W) : Exec W :=
  ⟨⟨List.replicate b.tempCount 0#128, 0#64, none, 0#64, b.entryPc, 0#64, false, world⟩, true, slots⟩

/-- Execute a block against a host, and say why it stopped. Whatever happened, the guest's
state is published before the caller looks at it. -/
def run (host : IrHost W) (b : Block) (slots : Slots) (world : W) :
    Except Error Outcome × Exec W :=
  let (r, s) := execute b (step host b) stepLimit 0 (start b slots world)
  (r, publish host b s)

end Rsemu.Ir.Interp
