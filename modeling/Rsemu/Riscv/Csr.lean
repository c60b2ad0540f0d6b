import Mathlib.Data.List.Basic
import Mathlib.Logic.Function.Basic
import Mathlib.Algebra.Order.Ring.Nat

/-!
# The control and status registers

Almost every register is WARL: it drops the bits the implementation does not support. And
several are windows onto another: `sstatus` is a masked view of `mstatus`, `sie` and `sip` are
`mie` and `mip` through `mideleg`. So the registers are named fields and the masks stand
beside them. `mip` is not here: it is handed to a read or a write as `pending`, and a write
that changes it says so.
-/

namespace Rsemu.Riscv

/-- A 64-bit value. -/
abbrev U64 := BitVec 64

/-- The register width. -/
inductive Xlen where
  | rv32
  | rv64
deriving DecidableEq

def Xlen.bits : Xlen → Nat
  | .rv32 => 32
  | .rv64 => 64

/-- The privilege modes. -/
inductive Priv where
  | user
  | supervisor
  | machine
deriving DecidableEq

def Priv.bits : Priv → U64
  | .user => 0
  | .supervisor => 1
  | .machine => 3

def Priv.fromBits (bits : U64) : Option Priv :=
  if bits = 0 then some .user
  else if bits = 1 then some .supervisor
  else if bits = 3 then some .machine
  else none

/-- The extensions a hart has. -/
structure Extensions where
  m : Bool
  a : Bool
  f : Bool
  d : Bool
  c : Bool
  /-- Supervisor mode. -/
  s : Bool
  /-- User mode. -/
  u : Bool

def Extensions.gc : Extensions := ⟨true, true, true, true, true, true, true⟩

def Extensions.i : Extensions := ⟨false, false, false, false, false, false, false⟩

def Extensions.misaBits (ext : Extensions) : U64 :=
  1 <<< 8 ||| (if ext.m then 1 <<< 12 else 0) ||| (if ext.a then 1 else 0) |||
    (if ext.f then 1 <<< 5 else 0) ||| (if ext.d then 1 <<< 3 else 0) |||
    (if ext.c then 1 <<< 2 else 0) ||| (if ext.s then 1 <<< 18 else 0) |||
    (if ext.u then 1 <<< 20 else 0)

namespace Status

def sie : U64 := 1 <<< 1
def mie : U64 := 1 <<< 3
def spie : U64 := 1 <<< 5
def ube : U64 := 1 <<< 6
def mpie : U64 := 1 <<< 7
/-- Supervisor previous privilege, one bit: user or supervisor. -/
def spp : U64 := 1 <<< 8
def mppShift : Nat := 11
/-- The two-bit machine previous privilege field. -/
def mpp : U64 := 3 <<< mppShift
def fsShift : Nat := 13
def fs : U64 := 3 <<< fsShift
def xs : U64 := 3 <<< 15
/-- Modify privilege: loads and stores use `mpp`'s privilege. -/
def mprv : U64 := 1 <<< 17
def sum : U64 := 1 <<< 18
def mxr : U64 := 1 <<< 19
def tvm : U64 := 1 <<< 20
def tw : U64 := 1 <<< 21
def tsr : U64 := 1 <<< 22
def uxlShift : Nat := 32
def sxlShift : Nat := 34
def fsOff : U64 := 0
def fsDirty : U64 := 3

def mWritable : U64 :=
  sie ||| mie ||| spie ||| ube ||| mpie ||| spp ||| mpp ||| fs ||| mprv ||| sum ||| mxr |||
    tvm ||| tw ||| tsr

def sVisible : U64 := sie ||| spie ||| ube ||| spp ||| fs ||| xs ||| sum ||| mxr

def sWritable : U64 := sie ||| spie ||| ube ||| spp ||| fs ||| sum ||| mxr

end Status

namespace Irq

def ssi : U64 := 1 <<< 1
def msi : U64 := 1 <<< 3
def sti : U64 := 1 <<< 5
def mti : U64 := 1 <<< 7
def sei : U64 := 1 <<< 9
def mei : U64 := 1 <<< 11

def sMask : U64 := ssi ||| sti ||| sei

def all : U64 := ssi ||| msi ||| sti ||| mti ||| sei ||| mei

end Irq

namespace Cause

def illegalInsn : Nat := 2
def ecallM : Nat := 11

end Cause

namespace Num

def fflags : Nat := 0x001
def frm : Nat := 0x002
def fcsr : Nat := 0x003
def sstatus : Nat := 0x100
def sie : Nat := 0x104
def stvec : Nat := 0x105
def scounteren : Nat := 0x106
def senvcfg : Nat := 0x10a
def sscratch : Nat := 0x140
def sepc : Nat := 0x141
def scause : Nat := 0x142
def stval : Nat := 0x143
def sip : Nat := 0x144
def satp : Nat := 0x180
def mstatus : Nat := 0x300
def misa : Nat := 0x301
def medeleg : Nat := 0x302
def mideleg : Nat := 0x303
def mie : Nat := 0x304
def mtvec : Nat := 0x305
def mcounteren : Nat := 0x306
def menvcfg : Nat := 0x30a
def mstatush : Nat := 0x310
def menvcfgh : Nat := 0x31a
def mcountinhibit : Nat := 0x320
def mscratch : Nat := 0x340
def mepc : Nat := 0x341
def mcause : Nat := 0x342
def mtval : Nat := 0x343
def mip : Nat := 0x344
def pmpcfg0 : Nat := 0x3a0
def pmpcfg15 : Nat := 0x3af
def pmpaddr0 : Nat := 0x3b0
def pmpaddr63 : Nat := 0x3ef
def tselect : Nat := 0x7a0
def tdata1 : Nat := 0x7a1
def tdata2 : Nat := 0x7a2
def tdata3 : Nat := 0x7a3
def tinfo : Nat := 0x7a4
def tcontrol : Nat := 0x7a5
def mcycle : Nat := 0xb00
def minstret : Nat := 0xb02
def mcycleh : Nat := 0xb80
def minstreth : Nat := 0xb82
def cycle : Nat := 0xc00
def time : Nat := 0xc01
def instret : Nat := 0xc02
def cycleh : Nat := 0xc80
def timeh : Nat := 0xc81
def instreth : Nat := 0xc82
def mvendorid : Nat := 0xf11
def marchid : Nat := 0xf12
def mimpid : Nat := 0xf13
def mhartid : Nat := 0xf14

def triggers : List Nat := [tselect, tdata1, tdata2, tdata3, tcontrol]

def monitors (num : Nat) : Bool :=
  decide (0xb03 ≤ num ∧ num ≤ 0xb1f ∨ 0xb83 ≤ num ∧ num ≤ 0xb9f ∨ 0x323 ≤ num ∧ num ≤ 0x33f)

def shadows (num : Nat) : Bool :=
  decide (0xc03 ≤ num ∧ num ≤ 0xc1f ∨ 0xc83 ≤ num ∧ num ≤ 0xc9f)

end Num

def pmpEntries : Nat := 16

/-- The control and status registers. -/
structure Csrs where
  xlen : Xlen
  ext : Extensions
  /-- The current privilege mode. -/
  privMode : Priv
  /-- `mstatus`, always in its RV64 layout. -/
  mstatus : U64
  medeleg : U64
  mideleg : U64
  mie : U64
  mtvec : U64
  mcounteren : U64
  mcountinhibit : U64
  mscratch : U64
  mepc : U64
  mcause : U64
  mtval : U64
  menvcfg : U64
  stvec : U64
  scounteren : U64
  sscratch : U64
  sepc : U64
  scause : U64
  stval : U64
  satp : U64
  senvcfg : U64
  fcsr : U64
  hartid : U64
  minstret : U64
  mcycle : U64
  mtime : U64
  /-- How many protection entries are implemented. -/
  pmpCount : Nat
  pmpcfg : Nat → BitVec 8
  pmpaddr : Nat → U64
  /-- Bumped whenever a write invalidates address translation. -/
  translationGen : U64
  /-- Bumped whenever a write changes what physical memory protection permits. -/
  pmpGen : U64

namespace Csrs

/-- The reset state. -/
def new (xlen : Xlen) (ext : Extensions) (hartid : U64) (pmpCount : Nat) : Csrs where
  xlen := xlen
  ext := ext
  privMode := .machine
  mstatus :=
    match xlen with
    | .rv32 => 0
    -- both width fields report 64 bits and are read-only
    | .rv64 => 2 <<< Status.uxlShift ||| (if ext.s then 2 <<< Status.sxlShift else 0)
  medeleg := 0
  mideleg := 0
  mie := 0
  mtvec := 0
  mcounteren := 0
  mcountinhibit := 0
  mscratch := 0
  mepc := 0
  mcause := 0
  mtval := 0
  menvcfg := 0
  stvec := 0
  scounteren := 0
  sscratch := 0
  sepc := 0
  scause := 0
  stval := 0
  satp := 0
  senvcfg := 0
  fcsr := 0
  hartid := hartid
  minstret := 0
  mcycle := 0
  mtime := 0
  pmpCount := min pmpCount pmpEntries
  pmpcfg := fun _ => 0
  pmpaddr := fun _ => 0
  translationGen := 1
  pmpGen := 1

def xmask (c : Csrs) : U64 :=
  match c.xlen with
  | .rv32 => 0xffffffff
  | .rv64 => BitVec.allOnes 64

def misa (c : Csrs) : U64 :=
  let mxl : U64 := if c.xlen = .rv32 then 1 else 2
  mxl <<< (c.xlen.bits - 2) ||| c.ext.misaBits

def fs (c : Csrs) : U64 := (c.mstatus &&& Status.fs) >>> Status.fsShift

def fpEnabled (c : Csrs) : Bool := c.ext.f && c.fs != Status.fsOff

def dirtyFp (c : Csrs) : Csrs :=
  { c with mstatus := (c.mstatus &&& ~~~Status.fs) ||| (Status.fsDirty <<< Status.fsShift) }

def readMstatus (c : Csrs) : U64 :=
  let sd : U64 :=
    if c.mstatus &&& Status.fs = Status.fs ∨ c.mstatus &&& Status.xs = Status.xs then
      1 <<< (c.xlen.bits - 1)
    else 0
  (c.mstatus ||| sd) &&& c.xmask

def bumpTranslation (c : Csrs) : Csrs := { c with translationGen := c.translationGen + 1 }

def bumpPmp (c : Csrs) : Csrs := bumpTranslation { c with pmpGen := c.pmpGen + 1 }

def accessible (c : Csrs) (num : Nat) (write : Bool) : Bool :=
  !(write && num / 2 ^ 10 % 4 == 3) && decide (num / 2 ^ 8 % 4 ≤ c.privMode.bits.toNat)

def counterEnabled (c : Csrs) (bit : Nat) : Bool :=
  match c.privMode with
  | .machine => true
  | .supervisor => c.mcounteren &&& 1 <<< bit != 0
  | .user => c.mcounteren &&& 1 <<< bit != 0 && c.scounteren &&& 1 <<< bit != 0

def sReg (c : Csrs) (value : U64) : Option U64 := if c.ext.s then some value else none

def sView (c : Csrs) (value : U64) : Option U64 :=
  if c.ext.s then some (value &&& c.mideleg &&& Irq.sMask) else none

/-- How many entries a `pmpcfg` register holds, and its first; the odd ones do not exist
on RV64. -/
def pmpcfgSpan (c : Csrs) (index : Nat) : Option (Nat × Nat) :=
  match c.xlen with
  | .rv32 => some (4, index * 4)
  | .rv64 => if index % 2 ≠ 0 then none else some (8, index / 2 * 8)

def readPmpcfg (c : Csrs) (index : Nat) : Option U64 :=
  (c.pmpcfgSpan index).map fun span =>
    (List.range span.1).foldl (fun v i =>
      if span.2 + i < c.pmpCount then
        v ||| (c.pmpcfg (span.2 + i)).setWidth 64 <<< (8 * i)
      else v) 0

/-- The byte a write puts into an entry: the reserved bits read as zero, and write without
read is cleared rather than honoured. -/
def pmpcfgByte (value : U64) (i : Nat) : BitVec 8 :=
  let byte := (value >>> (8 * i)).setWidth 8 &&& 0x9f
  if byte &&& 0b11 = 0b10 then byte &&& ~~~0b10 else byte

def writePmpcfg (c : Csrs) (index : Nat) (value : U64) : Option Csrs :=
  (c.pmpcfgSpan index).map fun span =>
    { c with
      pmpcfg := fun entry =>
        if span.2 ≤ entry ∧ entry < span.2 + span.1 ∧ entry < c.pmpCount ∧
            c.pmpcfg entry &&& 0x80 = 0 then
          pmpcfgByte value (entry - span.2)
        else c.pmpcfg entry }

def satpModeSupported (c : Csrs) (value : U64) : Bool :=
  match c.xlen with
  | .rv32 => true
  | .rv64 => value >>> 60 == 0 || value >>> 60 == 8

def alignEpc (c : Csrs) (value : U64) : U64 := if c.ext.c then value &&& ~~~1 else value &&& ~~~3

def readFp (c : Csrs) (num : Nat) : Option U64 :=
  if !c.fpEnabled then none
  else if num = Num.fflags then some (c.fcsr &&& 0x1f)
  else if num = Num.frm then some (c.fcsr >>> 5 &&& 7)
  else if num = Num.fcsr then some (c.fcsr &&& 0xff)
  else none

def readSstatus (c : Csrs) : U64 :=
  let uxl : U64 := if c.xlen = .rv64 then c.mstatus &&& 3 <<< Status.uxlShift else 0
  let sd : U64 := if c.mstatus &&& Status.fs = Status.fs then 1 <<< (c.xlen.bits - 1) else 0
  c.mstatus &&& Status.sVisible ||| uxl ||| sd

/-- A supervisor register read. -/
def readSupervisor (c : Csrs) (num : Nat) (pending : U64) : Option U64 :=
  if num = Num.sstatus then c.sReg c.readSstatus
  else if num = Num.sie then c.sView c.mie
  else if num = Num.stvec then c.sReg c.stvec
  else if num = Num.scounteren then c.sReg c.scounteren
  else if num = Num.senvcfg then c.sReg c.senvcfg
  else if num = Num.sscratch then c.sReg c.sscratch
  else if num = Num.sepc then c.sReg c.sepc
  else if num = Num.scause then c.sReg c.scause
  else if num = Num.stval then c.sReg c.stval
  else if num = Num.sip then c.sView pending
  else if num = Num.satp then
    -- a hypervisor may have asked to see a supervisor's access
    if c.privMode = .supervisor ∧ c.mstatus &&& Status.tvm ≠ 0 then none else c.sReg c.satp
  else none

def rv32Reg (c : Csrs) (value : U64) : Option U64 := if c.xlen = .rv32 then some value else none

/-- A machine register read. -/
def readMachine (c : Csrs) (num : Nat) (pending : U64) : Option U64 :=
  if num = Num.mstatus then some c.readMstatus
  else if num = Num.mstatush then c.rv32Reg (c.mstatus >>> 32)
  else if num = Num.misa then some c.misa
  else if num = Num.medeleg then some c.medeleg
  else if num = Num.mideleg then some c.mideleg
  else if num = Num.mie then some c.mie
  else if num = Num.mtvec then some c.mtvec
  else if num = Num.mcounteren then some c.mcounteren
  else if num = Num.mcountinhibit then some c.mcountinhibit
  else if num = Num.menvcfg then some c.menvcfg
  else if num = Num.menvcfgh then c.rv32Reg (c.menvcfg >>> 32)
  else if num = Num.mscratch then some c.mscratch
  else if num = Num.mepc then some c.mepc
  else if num = Num.mcause then some c.mcause
  else if num = Num.mtval then some c.mtval
  else if num = Num.mip then some pending
  else if Num.monitors num then some 0
  else none

def readPmp (c : Csrs) (num : Nat) : Option U64 :=
  if num ≤ Num.pmpcfg15 then c.readPmpcfg (num - Num.pmpcfg0)
  else if Num.pmpaddr0 ≤ num ∧ num ≤ Num.pmpaddr63 then
    some (if num - Num.pmpaddr0 < c.pmpCount then c.pmpaddr (num - Num.pmpaddr0) else 0)
  else none

/-- A counter's window: the whole, or its high half on the narrow width. -/
def readCounter (c : Csrs) (num : Nat) : Option U64 :=
  let gated (bit : Nat) (value : U64) : Option U64 :=
    if c.counterEnabled bit then some value else none
  if num = Num.mcycle then some c.mcycle
  else if num = Num.cycle then gated 0 c.mcycle
  else if num = Num.time then gated 1 c.mtime
  else if num = Num.minstret then some c.minstret
  else if num = Num.instret then gated 2 c.minstret
  else if num = Num.mcycleh then c.rv32Reg (c.mcycle >>> 32)
  else if num = Num.cycleh then (c.rv32Reg (c.mcycle >>> 32)).bind (gated 0)
  else if num = Num.timeh then (c.rv32Reg (c.mtime >>> 32)).bind (gated 1)
  else if num = Num.minstreth then c.rv32Reg (c.minstret >>> 32)
  else if num = Num.instreth then (c.rv32Reg (c.minstret >>> 32)).bind (gated 2)
  -- no triggers and no monitors: they read as zero rather than trap the question
  else if num ∈ Num.triggers then some 0
  else if num = Num.tinfo then some 1
  else if num = Num.mvendorid ∨ num = Num.marchid ∨ num = Num.mimpid then some 0
  else if num = Num.mhartid then some c.hartid
  else if Num.monitors num || Num.shadows num then some 0
  else none

/-- A register read, if the mode may. -/
def read (c : Csrs) (num : Nat) (pending : U64) : Option U64 :=
  if !c.accessible num false then none
  else
    (if num < Num.sstatus then c.readFp num
    else if num < Num.mstatus then c.readSupervisor num pending
    else if num < Num.pmpcfg0 then c.readMachine num pending
    else if num < Num.tselect then c.readPmp num
    else c.readCounter num).map (· &&& c.xmask)

/-- A floating-point register written. -/
def writeFp (c : Csrs) (num : Nat) (value : U64) : Option Csrs :=
  if !c.fpEnabled then none
  else if num = Num.fflags then
    some (dirtyFp { c with fcsr := c.fcsr &&& ~~~0x1f ||| value &&& 0x1f })
  else if num = Num.frm then
    some (dirtyFp { c with fcsr := c.fcsr &&& ~~~(0xe0 : U64) ||| (value &&& 7) <<< 5 })
  else if num = Num.fcsr then some (dirtyFp { c with fcsr := value &&& 0xff })
  else none

def writeSstatus (c : Csrs) (value : U64) : Csrs :=
  bumpTranslation
    { c with mstatus := c.mstatus &&& ~~~Status.sWritable ||| value &&& Status.sWritable }

def writeSatp (c : Csrs) (value : U64) : Option Csrs :=
  if c.privMode = .supervisor ∧ c.mstatus &&& Status.tvm ≠ 0 then none
  else if c.satpModeSupported value then some (bumpTranslation { c with satp := value })
  else some c

/-- A supervisor register written. -/
def writeSupervisor (c : Csrs) (num : Nat) (value pending : U64) : Option (Csrs × Option U64) :=
  if !c.ext.s then none
  else if num = Num.sstatus then some (c.writeSstatus value, none)
  else if num = Num.sie then
    let m := c.mideleg &&& Irq.sMask
    some ({ c with mie := c.mie &&& ~~~m ||| value &&& m }, none)
  else if num = Num.stvec then some ({ c with stvec := value &&& ~~~(2 : U64) }, none)
  else if num = Num.scounteren then some ({ c with scounteren := value &&& 0xffffffff }, none)
  else if num = Num.senvcfg then some ({ c with senvcfg := value &&& 1 }, none)
  else if num = Num.sscratch then some ({ c with sscratch := value }, none)
  else if num = Num.sepc then some ({ c with sepc := c.alignEpc value }, none)
  else if num = Num.scause then some ({ c with scause := value }, none)
  else if num = Num.stval then some ({ c with stval := value }, none)
  else if num = Num.sip then
    -- a supervisor may only clear its own software interrupt
    let m := c.mideleg &&& Irq.ssi
    some (c, some (pending &&& ~~~m ||| value &&& m))
  else if num = Num.satp then (c.writeSatp value).map (·, none)
  else none

def settleMpp (mstatus : U64) : U64 :=
  if Priv.fromBits ((mstatus &&& Status.mpp) >>> Status.mppShift) = none then
    mstatus ||| Status.mpp
  else mstatus

def writeMstatus (c : Csrs) (value : U64) : Csrs :=
  let written := settleMpp (c.mstatus &&& ~~~Status.mWritable ||| value &&& Status.mWritable)
  bumpTranslation
    { c with
      mstatus :=
        if c.ext.s then written
        else written &&& ~~~(Status.spp ||| Status.sie ||| Status.spie ||| Status.tvm) }

/-- A machine register written. -/
def writeMachine (c : Csrs) (num : Nat) (value pending : U64) : Option (Csrs × Option U64) :=
  if num = Num.mstatus then some (c.writeMstatus value, none)
  else if num = Num.mstatush ∨ num = Num.menvcfgh then
    if c.xlen = .rv32 then some (c, none) else none
  -- no extension can be turned off at runtime: the write is legal and does nothing
  else if num = Num.misa then some (c, none)
  else if num = Num.medeleg then
    if c.ext.s then some ({ c with medeleg := value &&& ~~~((1 : U64) <<< Cause.ecallM) }, none)
    else none
  else if num = Num.mideleg then
    if c.ext.s then some ({ c with mideleg := value &&& Irq.sMask }, none) else none
  else if num = Num.mie then some ({ c with mie := value &&& Irq.all }, none)
  else if num = Num.mtvec then some ({ c with mtvec := value &&& ~~~(2 : U64) }, none)
  else if num = Num.mcounteren then some ({ c with mcounteren := value &&& 0xffffffff }, none)
  else if num = Num.mcountinhibit then
    some ({ c with mcountinhibit := value &&& 0xfffffffd }, none)
  else if num = Num.menvcfg then some ({ c with menvcfg := value }, none)
  else if num = Num.mscratch then some ({ c with mscratch := value }, none)
  else if num = Num.mepc then some ({ c with mepc := c.alignEpc value }, none)
  else if num = Num.mcause then some ({ c with mcause := value }, none)
  else if num = Num.mtval then some ({ c with mtval := value }, none)
  else if num = Num.mip then
    some (c, some (pending &&& ~~~Irq.sMask ||| value &&& Irq.sMask))
  else if Num.monitors num then some (c, none)
  else none

/-- Whether an address register is immutable: its entry is locked, or the entry above is
locked and takes its base from it. -/
def pmpaddrLocked (c : Csrs) (i : Nat) : Prop :=
  c.pmpcfg i &&& 0x80 ≠ 0 ∨
    i + 1 < c.pmpCount ∧ c.pmpcfg (i + 1) &&& 0x80 ≠ 0 ∧ c.pmpcfg (i + 1) >>> 3 &&& 3 = 1

instance (c : Csrs) (i : Nat) : Decidable (c.pmpaddrLocked i) :=
  inferInstanceAs (Decidable (_ ∨ _))

def writePmpaddr (c : Csrs) (i : Nat) (value : U64) : Csrs :=
  if i < c.pmpCount ∧ ¬ c.pmpaddrLocked i then
    bumpPmp { c with pmpaddr := Function.update c.pmpaddr i (value &&& 0x003fffffffffffff) }
  else c

def writePmp (c : Csrs) (num : Nat) (value : U64) : Option Csrs :=
  if num ≤ Num.pmpcfg15 then (c.writePmpcfg (num - Num.pmpcfg0) value).map bumpPmp
  else if Num.pmpaddr0 ≤ num ∧ num ≤ Num.pmpaddr63 then
    some (c.writePmpaddr (num - Num.pmpaddr0) value)
  else none

/-- A counter written. -/
def writeCounter (c : Csrs) (num : Nat) (value : U64) : Option Csrs :=
  if num = Num.mcycle then some { c with mcycle := value }
  else if num = Num.minstret then some { c with minstret := value }
  else if num = Num.mcycleh then
    if c.xlen = .rv32 then
      some { c with mcycle := c.mcycle &&& 0xffffffff ||| value <<< 32 }
    else none
  else if num = Num.minstreth then
    if c.xlen = .rv32 then
      some { c with minstret := c.minstret &&& 0xffffffff ||| value <<< 32 }
    else none
  else if num ∈ Num.triggers then some c
  else if Num.monitors num then some c
  else none

/-- A register written, if the mode may. -/
def write (c : Csrs) (num : Nat) (value pending : U64) : Option (Csrs × Option U64) :=
  if !c.accessible num true then none
  else if num < Num.sstatus then (c.writeFp num (value &&& c.xmask)).map (·, none)
  else if num < Num.mstatus then c.writeSupervisor num (value &&& c.xmask) pending
  else if num < Num.pmpcfg0 then c.writeMachine num (value &&& c.xmask) pending
  else if num < Num.tselect then (c.writePmp num (value &&& c.xmask)).map (·, none)
  else (c.writeCounter num (value &&& c.xmask)).map (·, none)

/-- Only registers of their own were written, and the floating-point state may be dirty. -/
structure Frame (c c' : Csrs) : Prop where
  xlen : c'.xlen = c.xlen
  ext : c'.ext = c.ext
  mode : c'.privMode = c.privMode
  status : c'.mstatus = c.mstatus ∨ c'.mstatus = c.dirtyFp.mstatus
  pmpCount : c'.pmpCount = c.pmpCount
  pmpcfg : c'.pmpcfg = c.pmpcfg
  pmpaddr : c'.pmpaddr = c.pmpaddr
  pmpGen : c'.pmpGen = c.pmpGen

/-- Only memory protection was written, and the counter moved if anything did. -/
structure PmpFrame (c c' : Csrs) : Prop where
  xlen : c'.xlen = c.xlen
  ext : c'.ext = c.ext
  mode : c'.privMode = c.privMode
  status : c'.mstatus = c.mstatus
  pmpCount : c'.pmpCount = c.pmpCount
  moved : c' = c ∨ c'.pmpGen = c.pmpGen + 1

variable {c c' : Csrs} {num : Nat} {value : U64} {updated : Option U64}

theorem frame_of (hxlen : c'.xlen = c.xlen) (hext : c'.ext = c.ext)
    (hmode : c'.privMode = c.privMode) (hstatus : c'.mstatus = c.mstatus)
    (hcount : c'.pmpCount = c.pmpCount) (hcfg : c'.pmpcfg = c.pmpcfg)
    (haddr : c'.pmpaddr = c.pmpaddr) (hgen : c'.pmpGen = c.pmpGen) : c.Frame c' :=
  ⟨hxlen, hext, hmode, .inl hstatus, hcount, hcfg, haddr, hgen⟩

theorem ite_some {α : Type} {p : Prop} [Decidable p] {a b : Option α} {x : α} {P : Prop}
    (ha : a = some x → P) (hb : b = some x → P) : (if p then a else b) = some x → P := by
  intro h
  split at h
  · exact ha h
  · exact hb h

theorem writeFp_frame : c.writeFp num value = some c' → c.Frame c' := by
  repeat' refine ite_some ?_ ?_
  all_goals
    intro h
    cases h
    try exact ⟨rfl, rfl, rfl, .inr rfl, rfl, rfl, rfl, rfl⟩

theorem writeSatp_frame (h : (c.writeSatp value).map (·, none) = some (c', updated)) :
    c.Frame c' := by
  obtain ⟨a, ha, hpair⟩ := Option.map_eq_some_iff.mp h
  cases hpair
  revert ha
  repeat' refine ite_some ?_ ?_
  all_goals
    intro h
    cases h
    try exact frame_of rfl rfl rfl rfl rfl rfl rfl rfl

theorem writeSupervisor_cases {pending : U64}
    (h : c.writeSupervisor num value pending = some (c', updated)) :
    c.Frame c' ∨ (c.ext.s = true ∧ c' = c.writeSstatus value) := by
  unfold writeSupervisor at h
  rw [ite_eq_iff] at h
  rcases h with ⟨-, h⟩ | ⟨hs, h⟩
  · cases h
  rw [ite_eq_iff] at h
  rcases h with ⟨-, h⟩ | ⟨-, h⟩
  · cases h
    exact .inr ⟨by simpa using hs, rfl⟩
  refine .inl ?_
  revert h
  repeat' refine ite_some ?_ ?_
  -- `satp` is the one among them that can be refused
  all_goals
    intro h
    first
    | exact writeSatp_frame h
    | (cases h
       try exact frame_of rfl rfl rfl rfl rfl rfl rfl rfl)

theorem writeMachine_cases {pending : U64}
    (h : c.writeMachine num value pending = some (c', updated)) :
    c.Frame c' ∨ (num = Num.mstatus ∧ c' = c.writeMstatus value) := by
  unfold writeMachine at h
  rw [ite_eq_iff] at h
  rcases h with ⟨hnum, h⟩ | ⟨-, h⟩
  · cases h
    exact .inr ⟨hnum, rfl⟩
  refine .inl ?_
  revert h
  repeat' refine ite_some ?_ ?_
  all_goals
    intro h
    cases h
    try exact frame_of rfl rfl rfl rfl rfl rfl rfl rfl

theorem writePmp_frame : c.writePmp num value = some c' → c.PmpFrame c' := by
  refine ite_some ?_ (ite_some ?_ ?_)
  · intro h
    obtain ⟨a, ha, rfl⟩ := Option.map_eq_some_iff.mp h
    obtain ⟨span, -, rfl⟩ := Option.map_eq_some_iff.mp ha
    exact ⟨rfl, rfl, rfl, rfl, rfl, .inr rfl⟩
  · intro h
    cases h
    unfold writePmpaddr
    split
    · exact ⟨rfl, rfl, rfl, rfl, rfl, .inr rfl⟩
    · exact ⟨rfl, rfl, rfl, rfl, rfl, .inl rfl⟩
  · intro h
    cases h

theorem writeCounter_frame : c.writeCounter num value = some c' → c.Frame c' := by
  repeat' refine ite_some ?_ ?_
  all_goals
    intro h
    cases h
    try exact frame_of rfl rfl rfl rfl rfl rfl rfl rfl

theorem write_cases {pending : U64} (h : c.write num value pending = some (c', updated)) :
    c.Frame c' ∨
      (c.ext.s = true ∧ c' = c.writeSstatus (value &&& c.xmask)) ∨
      (num = Num.mstatus ∧ c.accessible num true = true ∧
        c' = c.writeMstatus (value &&& c.xmask)) ∨
      ((Num.pmpcfg0 ≤ num ∧ num < Num.tselect) ∧ c.PmpFrame c') := by
  unfold write at h
  split at h
  · cases h
  rename_i haccess
  split at h
  · obtain ⟨a, ha, hpair⟩ := Option.map_eq_some_iff.mp h
    cases hpair
    exact .inl (writeFp_frame ha)
  split at h
  · exact (writeSupervisor_cases h).imp_right .inl
  split at h
  · rcases writeMachine_cases h with hframe | ⟨hnum, hc⟩
    · exact .inl hframe
    · exact .inr (.inr (.inl ⟨hnum, by simpa using haccess, hc⟩))
  rename_i hlow
  split at h
  · rename_i hhigh
    obtain ⟨a, ha, hpair⟩ := Option.map_eq_some_iff.mp h
    cases hpair
    exact .inr (.inr (.inr ⟨⟨Nat.le_of_not_lt hlow, hhigh⟩, writePmp_frame ha⟩))
  · obtain ⟨a, ha, hpair⟩ := Option.map_eq_some_iff.mp h
    cases hpair
    exact .inl (writeCounter_frame ha)

end Csrs

end Rsemu.Riscv
