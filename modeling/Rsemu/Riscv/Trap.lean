import Rsemu.Riscv.Csr

/-!
# Traps, returns and CSR instructions

The instructions that move a hart between its privilege modes, as one `step`: an enabled
interrupt is taken first, then a stalled hart stays stalled, then an instruction runs, and
one that raises a trap enters it. Instructions that touch no control register are
`Insn.plain`, those that fault are `Insn.fault`; the register file is not here, so a CSR
instruction comes with the value its source operand has.
-/

namespace Rsemu.Riscv

def Priv.rank : Priv → Nat
  | .user => 0
  | .supervisor => 1
  | .machine => 3

def Xlen.trunc : Xlen → U64 → U64
  | .rv32, value => value &&& 0xffffffff
  | .rv64, value => value

/-- The exception an instruction raised, and what `mtval` or `stval` will hold. -/
structure Trap where
  cause : Nat
  tval : U64

def Trap.illegal (encoding : U64) : Trap := ⟨Cause.illegalInsn, encoding⟩

/-- The privileged state of one hart, with the interrupt lines it reads. -/
structure Hart where
  csrs : Csrs
  pc : U64
  mip : U64
  /-- Whether a `WFI` is stalling the hart. -/
  wfi : Bool

def Hart.reset (xlen : Xlen) (ext : Extensions) (hartid : U64) (pmpCount : Nat)
    (resetVector mip : U64) : Hart :=
  ⟨Csrs.new xlen ext hartid pmpCount, xlen.trunc resetVector, mip, false⟩

def Csrs.toSupervisor (c : Csrs) (cause : Nat) (interrupt : Bool) : Bool :=
  (if interrupt then c.mideleg else c.medeleg) &&& 1 <<< cause != 0 && c.ext.s &&
    c.privMode != .machine

/-- A trap taken to supervisor mode. -/
def Csrs.enterSupervisor (c : Csrs) (pc coded tval : U64) : Csrs :=
  let sie := c.mstatus &&& Status.sie != 0
  let cleared := c.mstatus &&& ~~~(Status.spie ||| Status.sie ||| Status.spp)
  { c with
    sepc := pc
    scause := coded
    stval := tval
    mstatus :=
      cleared ||| (if sie then Status.spie else 0) |||
        (if c.privMode = .supervisor then Status.spp else 0)
    privMode := .supervisor }

/-- A trap taken to machine mode. -/
def Csrs.enterMachine (c : Csrs) (pc coded tval : U64) : Csrs :=
  let mie := c.mstatus &&& Status.mie != 0
  let cleared := c.mstatus &&& ~~~(Status.mpie ||| Status.mie ||| Status.mpp)
  { c with
    mepc := pc
    mcause := coded
    mtval := tval
    mstatus :=
      cleared ||| (if mie then Status.mpie else 0) ||| c.privMode.bits <<< Status.mppShift
    privMode := .machine }

/-- Enter a trap handler: vectored mode sends interrupts past the base, and nothing else. -/
def Hart.enterTrap (h : Hart) (trap : Trap) (interrupt : Bool) : Hart :=
  let c := h.csrs
  let coded : U64 :=
    BitVec.ofNat 64 trap.cause ||| (if interrupt then 1 <<< (c.xlen.bits - 1) else 0)
  let tvec := if c.toSupervisor trap.cause interrupt then c.stvec else c.mtvec
  let base := tvec &&& ~~~(3 : U64)
  let next :=
    if tvec &&& 3 = 1 ∧ interrupt then base + BitVec.ofNat 64 (4 * trap.cause) else base
  { h with
    csrs :=
      if c.toSupervisor trap.cause interrupt then c.enterSupervisor h.pc coded trap.tval
      else c.enterMachine h.pc coded trap.tval
    pc := c.xlen.trunc next }

def Csrs.previous (c : Csrs) : Priv :=
  (Priv.fromBits ((c.mstatus &&& Status.mpp) >>> Status.mppShift)).getD .machine

def Csrs.supervisorPrevious (c : Csrs) : Priv :=
  if c.mstatus &&& Status.spp ≠ 0 then .supervisor else .user

def Csrs.lowest (c : Csrs) : Priv := if c.ext.u then .user else .machine

def Csrs.returnTo (c : Csrs) (to_ : Priv) (mstatus : U64) : Csrs :=
  Csrs.bumpTranslation
    { c with
      mstatus := if to_ = .machine then mstatus else mstatus &&& ~~~Status.mprv
      privMode := to_ }

def Csrs.machineReturn (c : Csrs) : Csrs :=
  let mpie := c.mstatus &&& Status.mpie != 0
  c.returnTo c.previous
    (c.mstatus &&& ~~~(Status.mie ||| Status.mpp) ||| (if mpie then Status.mie else 0) |||
      Status.mpie ||| c.lowest.bits <<< Status.mppShift)

def Csrs.supervisorReturn (c : Csrs) : Csrs :=
  let spie := c.mstatus &&& Status.spie != 0
  c.returnTo c.supervisorPrevious
    (c.mstatus &&& ~~~(Status.sie ||| Status.spp) ||| (if spie then Status.sie else 0) |||
      Status.spie)

/-- How a CSR instruction combines. -/
inductive CsrOp where
  | write
  | set
  | clear
deriving DecidableEq

/-- A CSR read-modify-write: the operand numbers decide which half is carried out. -/
structure CsrInsn where
  op : CsrOp
  num : Nat
  rd : Nat
  /-- The source register's number, or the immediate. -/
  rs1 : Nat
  /-- What the source operand holds. -/
  source : U64
  /-- The platform timer at this hart's position, where one is wired. -/
  now : Option U64

def CsrInsn.willWrite (insn : CsrInsn) : Bool := insn.op = .write || insn.rs1 != 0

def CsrInsn.willRead (insn : CsrInsn) : Bool := insn.op != .write || insn.rd != 0

def CsrInsn.value (insn : CsrInsn) (current : U64) : U64 :=
  match insn.op with
  | .write => insn.source
  | .set => current ||| insn.source
  | .clear => current &&& ~~~insn.source

def CsrInsn.refreshTime (insn : CsrInsn) (c : Csrs) : Csrs :=
  if insn.willRead ∧ (insn.num = Num.time ∨ insn.num = Num.timeh) then
    { c with mtime := insn.now.getD c.mtime }
  else c

/-- The registers and `mip` after a CSR instruction, or nothing when it is illegal. The
register must be readable even where nothing is read. -/
def CsrInsn.access (insn : CsrInsn) (c : Csrs) (mip : U64) : Option (Csrs × U64) :=
  let c := insn.refreshTime c
  match c.read insn.num mip with
  | none => none
  | some current =>
    if insn.willWrite then
      match c.write insn.num (insn.value current) mip with
      | none => none
      | some (c, updated) => some (c, (updated.map (· &&& Irq.all)).getD mip)
    else some (c, mip)

/-- An instruction, as far as control goes. -/
inductive Insn where
  /-- No control register is touched; `dirty` is whether a floating-point one was written. -/
  | plain (target : U64) (dirty : Bool)
  | csr (insn : CsrInsn)
  | ecall
  | mret
  | sret
  | wfi
  | sfenceVma
  /-- The instruction raises an exception: it faults, it is illegal, or it is a breakpoint. -/
  | fault (trap : Trap)

def Hart.retire (h : Hart) (next : U64) (wroteInstret : Bool) : Hart :=
  { h with
    pc := h.csrs.xlen.trunc next
    csrs :=
      if h.csrs.mcountinhibit &&& 0b100 = 0 ∧ ¬ wroteInstret then
        { h.csrs with minstret := h.csrs.minstret + 1 }
      else h.csrs }

def ecallCause : Priv → Nat
  | .user => 8
  | .supervisor => 9
  | .machine => 11

/-- Execute one instruction of `length` bytes. -/
def Hart.execute (h : Hart) (encoding length : U64) : Insn → Hart
  | .plain target dirty =>
    ({ h with csrs := if dirty then h.csrs.dirtyFp else h.csrs }).retire target false
  | .csr insn =>
    match insn.access h.csrs h.mip with
    | none => ({ h with csrs := insn.refreshTime h.csrs }).enterTrap (.illegal encoding) false
    | some (csrs, mip) =>
      ({ h with csrs := csrs, mip := mip }).retire (h.pc + length)
        (insn.willWrite && (insn.num == Num.minstret || insn.num == Num.minstreth))
  | .ecall => h.enterTrap ⟨ecallCause h.csrs.privMode, 0⟩ false
  | .mret =>
    if h.csrs.privMode ≠ .machine then h.enterTrap (.illegal encoding) false
    else ({ h with csrs := h.csrs.machineReturn }).retire h.csrs.mepc false
  | .sret =>
    if h.csrs.privMode = .user ∨ ¬ h.csrs.ext.s ∨
        (h.csrs.privMode = .supervisor ∧ h.csrs.mstatus &&& Status.tsr ≠ 0) then
      h.enterTrap (.illegal encoding) false
    else ({ h with csrs := h.csrs.supervisorReturn }).retire h.csrs.sepc false
  | .wfi =>
    if h.csrs.privMode ≠ .machine ∧ h.csrs.mstatus &&& Status.tw ≠ 0 then
      h.enterTrap (.illegal encoding) false
    else ({ h with wfi := true }).retire (h.pc + length) false
  | .sfenceVma =>
    if h.csrs.privMode = .user ∨
        (h.csrs.privMode = .supervisor ∧ h.csrs.mstatus &&& Status.tvm ≠ 0) then
      h.enterTrap (.illegal encoding) false
    else ({ h with csrs := h.csrs.bumpTranslation }).retire (h.pc + length) false
  | .fault trap => h.enterTrap trap false

def Irq.priority : List Nat := [11, 3, 7, 9, 1, 5]

def Csrs.interruptEnabled (c : Csrs) (code : Nat) : Bool :=
  let target : Priv := if c.mideleg &&& 1 <<< code ≠ 0 then .supervisor else .machine
  if c.privMode.rank < target.rank then true
  else if c.privMode = target then
    c.mstatus &&& (if target = .machine then Status.mie else Status.sie) != 0
  else false

def Hart.pendingInterrupt (h : Hart) : Option Nat :=
  Irq.priority.find? fun code =>
    h.mip &&& h.csrs.mie &&& 1 <<< code != 0 && h.csrs.interruptEnabled code

def Hart.step (h : Hart) (encoding length : U64) (insn : Insn) : Hart :=
  match h.pendingInterrupt with
  | some code => h.enterTrap ⟨code, 0⟩ true
  | none =>
    if h.wfi ∧ h.mip &&& h.csrs.mie = 0 then h
    else ({ h with wfi := false }).execute encoding length insn

end Rsemu.Riscv
