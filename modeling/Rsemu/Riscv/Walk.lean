import Rsemu.Base.Memory
import Rsemu.Riscv.Pmp

/-!
# The page-table walk

Sv32 and Sv39. The walk reads one entry a level, each read subject to the protection of
physical memory, and ends at a leaf: its permissions are checked, and what it lacks of its
accessed and dirty bits is reported. `translate` writes that back; `translateDebug` makes the
same walk for a debugger, who asks for no permission and changes nothing.
-/

namespace Rsemu.Riscv

open Codec (fromLe leBytes)

/-- How a translation fails. -/
inductive Fault where
  /-- The page tables refused, or an entry is malformed. -/
  | page
  /-- Protection refused, or a page-table read itself faulted. -/
  | access

namespace Pte

/-- Valid. -/
def v : U64 := (1 : U64) <<< 0
def r : U64 := (1 : U64) <<< 1
def w : U64 := (1 : U64) <<< 2
def x : U64 := (1 : U64) <<< 3
def u : U64 := (1 : U64) <<< 4
def a : U64 := (1 : U64) <<< 6
def d : U64 := (1 : U64) <<< 7

end Pte

def pageBits : Nat := 12

/-- The shape of the page tables. -/
structure Scheme where
  levels : Nat
  /-- How many bits of virtual page number each level consumes. -/
  vpnBits : Nat
  /-- How wide a page-table entry is, in bytes. -/
  pteBytes : Nat
  /-- How many bits of the virtual address are significant. -/
  vaBits : Nat
  /-- How wide a physical page number is, in both `satp` and an entry. -/
  ppnBits : Nat

def sv32 : Scheme := ⟨2, 10, 4, 32, 22⟩

def sv39 : Scheme := ⟨3, 9, 8, 39, 44⟩

def scheme : Xlen → Scheme
  | .rv32 => sv32
  | .rv64 => sv39

def mask (bits : Nat) : U64 := (1 : U64) <<< bits - 1

def readPte (m : Memory) (addr : U64) (bytes : Nat) : Option U64 :=
  (m.read addr.toNat bytes).map fun bs => BitVec.ofNat 64 (fromLe bs)

def writePte (m : Memory) (addr : U64) (bytes : Nat) (value : U64) : Option Memory :=
  if (m.read addr.toNat bytes).isSome then some (m.put addr.toNat (leBytes bytes value.toNat))
  else none

/-- What a walk found, and what the architecture would write on the way. -/
structure Walked where
  phys : U64
  /-- Address, width and new value of the leaf, when it lacks a bit. -/
  update : Option (U64 × Nat × U64)

namespace Csrs

def translationActive (c : Csrs) (mode : Priv) : Bool :=
  if mode = .machine then false
  else
    match c.xlen with
    | .rv32 => c.satp >>> 31 != 0
    | .rv64 => c.satp >>> 60 == 8

def root (c : Csrs) : U64 := (c.satp &&& mask (scheme c.xlen).ppnBits) <<< pageBits

def canonical (c : Csrs) (addr : U64) : Bool :=
  match c.xlen with
  | .rv32 => true
  | .rv64 =>
    let shift := 64 - (scheme c.xlen).vaBits
    (addr <<< shift).sshiftRight shift == addr

/-- Whether a leaf permits this access from this privilege. -/
def permitted (c : Csrs) (pte : U64) (kind : Access) (mode : Priv) : Bool :=
  let userPage := pte &&& Pte.u != 0
  let privilege :=
    match mode with
    | .user => userPage
    -- never execute from a user page, and read or write one only under `SUM`
    | .supervisor => !(userPage && (kind == .fetch || c.mstatus &&& Status.sum == 0))
    | .machine => true
  privilege &&
    match kind with
    | .fetch => pte &&& Pte.x != 0
    | .load => pte &&& Pte.r != 0 || (c.mstatus &&& Status.mxr != 0 && pte &&& Pte.x != 0)
    | .store => pte &&& Pte.w != 0

def entryAddr (c : Csrs) (addr : U64) (level : Nat) (table : U64) : U64 :=
  let s := scheme c.xlen
  let shift := pageBits + s.vpnBits * level
  let index := addr >>> shift &&& mask s.vpnBits
  table + index * BitVec.ofNat 64 s.pteBytes

def malformed (c : Csrs) (pte : U64) : Bool :=
  (pte &&& Pte.v == 0 || (pte &&& Pte.r == 0 && pte &&& Pte.w != 0)) ||
    (c.xlen == .rv64 && pte >>> (10 + (scheme c.xlen).ppnBits) != 0)

def ppn (c : Csrs) (pte : U64) : U64 := pte >>> 10 &&& mask (scheme c.xlen).ppnBits

def misaligned (c : Csrs) (level : Nat) (pte : U64) : Bool :=
  decide (0 < level) && c.ppn pte &&& mask ((scheme c.xlen).vpnBits * level) != 0

def assemble (c : Csrs) (addr : U64) (level : Nat) (pte : U64) : U64 :=
  let lowBits := pageBits + (scheme c.xlen).vpnBits * level
  let phys := c.ppn pte <<< pageBits &&& ~~~mask lowBits
  phys ||| (addr &&& mask lowBits)

end Csrs

def Access.need (kind : Access) : U64 := Pte.a ||| if kind = .store then Pte.d else 0

def leafUpdate (kind : Option Access) (addr : U64) (bytes : Nat) (pte : U64) :
    Option (U64 × Nat × U64) :=
  kind.bind fun kind =>
    if pte &&& kind.need = kind.need then none else some (addr, bytes, pte ||| kind.need)

/-- The levels of the walk, from a table down. `kind` is `none` for a debugger's walk. A
pointer at the lowest level leads nowhere. -/
def Csrs.walkLevels (c : Csrs) (m : Memory) (addr : U64) (kind : Option Access) (mode : Priv) :
    Nat → U64 → Except Fault Walked
  | 0, _ => .error .page
  | level + 1, table =>
    let bytes := (scheme c.xlen).pteBytes
    let entryAddr := c.entryAddr addr level table
    if kind.isSome && !c.pmpAllows entryAddr (BitVec.ofNat 64 bytes) .load mode then .error .access
    else
      match readPte m entryAddr bytes with
      | none => .error .access
      | some pte =>
        if c.malformed pte then .error .page
        else if pte &&& (Pte.r ||| Pte.x) = 0 then
          c.walkLevels m addr kind mode level (c.ppn pte <<< pageBits)
        else if kind.any fun kind => !c.permitted pte kind mode then .error .page
        else if c.misaligned level pte then .error .page
        else .ok ⟨c.assemble addr level pte, leafUpdate kind entryAddr bytes pte⟩

def Csrs.walk (c : Csrs) (m : Memory) (addr : U64) (kind : Option Access) (mode : Priv) :
    Except Fault Walked :=
  if !c.translationActive mode then .ok ⟨addr, none⟩
  else if !c.canonical addr then .error .page
  else c.walkLevels m addr kind mode (scheme c.xlen).levels c.root

/-- Translate a virtual address, walking the page tables. -/
def Csrs.translate (c : Csrs) (m : Memory) (addr : U64) (kind : Access) (mode : Priv) :
    Except Fault U64 × Memory :=
  match c.walk m addr (some kind) mode with
  | .error e => (.error e, m)
  | .ok ⟨phys, none⟩ => (.ok phys, m)
  | .ok ⟨phys, some (at_, bytes, value)⟩ =>
    if !c.pmpAllows at_ (BitVec.ofNat 64 bytes) .store mode then (.error .access, m)
    else
      match writePte m at_ bytes value with
      | none => (.error .access, m)
      | some m' => (.ok phys, m')

def Csrs.translateDebug (c : Csrs) (m : Memory) (addr : U64) (mode : Priv) : Except Fault U64 :=
  (c.walk m addr none mode).map Walked.phys

end Rsemu.Riscv
