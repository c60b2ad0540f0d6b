import Rsemu.Space.Region

/-!
# Translation blocks

The data model of the intermediate representation: opcodes, the instructions of a block, its
guest instruction boundaries, and the verifier that stands between a frontend and a backend.

A block is straight-line code over temporaries that are assigned once, with branches that only
go forward. The operands of an instruction are a window into one flat array of the block in
the source; here an instruction carries its own list.
-/

namespace Rsemu.Ir

open Space (Width)

/-- The type of a temporary. -/
inductive Ty where
  | i1 | i32 | i64 | i128 | f32 | f64 | v128
  deriving DecidableEq

namespace Ty

def bits : Ty → Nat
  | .i1 => 1
  | .i32 | .f32 => 32
  | .i64 | .f64 => 64
  | .i128 | .v128 => 128

def isInt : Ty → Bool
  | .i1 | .i32 | .i64 | .i128 => true
  | _ => false

/-- The name in a dump. -/
def name : Ty → String
  | .i1 => "i1"
  | .i32 => "i32"
  | .i64 => "i64"
  | .i128 => "i128"
  | .f32 => "f32"
  | .f64 => "f64"
  | .v128 => "v128"

end Ty

/-- A temporary's index. -/
abbrev Temp := Nat

/-- An architectural register's slot. -/
abbrev RegSlot := Nat

/-- The bits of a temporary, whatever its type. -/
abbrev Val := BitVec 128

/-- An immediate. -/
inductive Const where
  | int (value : Val)
  | f32Bits (value : BitVec 32)
  | f64Bits (value : BitVec 64)

def Const.bits : Const → Val
  | .int v => v
  | .f32Bits v => v.setWidth 128
  | .f64Bits v => v.setWidth 128

/-- The operations. A code outside the defined set is `unknown`: blocks may carry one
through code that predates it. -/
inductive Opcode where
  | mov | extS | extZ | trunc | bswap | deposit | extract | getSlot
  | add | sub | mul | divS | divU | remS | remU | neg
  | addc | subb | mulu2 | muls2 | mulhsu
  | and | or | xor | not | andc | shl | shr | sar | rotl | rotr | rotlc | rotrc
  | clz | ctz | popcount
  | setcond | movcond | brcond
  | ld | st
  | cmpxchg | xchg | fetchAdd | fetchAnd | fetchOr | fetchXor
  | fetchSmin | fetchSmax | fetchUmin | fetchUmax | fence | ldExcl | stExcl
  | gotoTb | exitTb | lookupAndGoto | callHelper | charge | insnStart
  | phi
  | unknown (code : Nat)
  deriving DecidableEq

namespace Opcode

def name : Opcode → String
  | .mov => "mov" | .extS => "ext_s" | .extZ => "ext_z" | .trunc => "trunc"
  | .bswap => "bswap" | .deposit => "deposit" | .extract => "extract"
  | .getSlot => "get_slot" | .add => "add" | .sub => "sub" | .mul => "mul"
  | .divS => "div_s" | .divU => "div_u" | .remS => "rem_s" | .remU => "rem_u"
  | .neg => "neg" | .addc => "addc" | .subb => "subb" | .mulu2 => "mulu2"
  | .muls2 => "muls2" | .mulhsu => "mulhsu" | .and => "and" | .or => "or" | .xor => "xor"
  | .not => "not" | .andc => "andc" | .shl => "shl" | .shr => "shr" | .sar => "sar"
  | .rotl => "rotl" | .rotr => "rotr" | .rotlc => "rotlc" | .rotrc => "rotrc"
  | .clz => "clz" | .ctz => "ctz" | .popcount => "popcount" | .setcond => "setcond"
  | .movcond => "movcond" | .brcond => "brcond" | .ld => "ld" | .st => "st"
  | .cmpxchg => "cmpxchg" | .xchg => "xchg" | .fetchAdd => "fetch_add"
  | .fetchAnd => "fetch_and" | .fetchOr => "fetch_or" | .fetchXor => "fetch_xor"
  | .fetchSmin => "fetch_smin" | .fetchSmax => "fetch_smax" | .fetchUmin => "fetch_umin"
  | .fetchUmax => "fetch_umax" | .fence => "fence" | .ldExcl => "ld_excl"
  | .stExcl => "st_excl" | .gotoTb => "goto_tb" | .exitTb => "exit_tb"
  | .lookupAndGoto => "lookup_and_goto" | .callHelper => "call_helper"
  | .charge => "charge" | .insnStart => "insn_start" | .phi => "phi"
  | .unknown _ => "unknown"

def isTerminator : Opcode → Bool
  | .gotoTb | .exitTb | .lookupAndGoto => true
  | _ => false

def isFetch : Opcode → Bool
  | .fetchAdd | .fetchAnd | .fetchOr | .fetchXor
  | .fetchSmin | .fetchSmax | .fetchUmin | .fetchUmax => true
  | _ => false

end Opcode

/-- An integer comparison. -/
inductive Cond where
  | eq | ne | ltS | leS | gtS | geS | ltU | leU | gtU | geU
  deriving DecidableEq

/-- How a load extends. -/
inductive Sign where
  | unsigned | signed
  deriving DecidableEq

/-- A byte order. -/
inductive Endian where
  | little | big | asRegion

/-- What a misaligned access does. -/
inductive Align where
  | none | fault | split | rotate

/-- What an access is for. -/
inductive AccessKind where
  | fetch | load | store

/-- The kind of a memory access. -/
structure MemOp where
  size : Width
  sign : Sign
  space : Nat
  seg : Option Nat
  endian : Endian
  align : Align
  kind : AccessKind
  volatile : Bool

def MemOp.load (size : Width) : MemOp :=
  ⟨size, .unsigned, 0, none, .little, .none, .load, false⟩

/-- A guest instruction boundary: where it is, the ticks charged statically before it, and
which temporary holds each live slot. -/
structure InsnStart where
  pc : Nat
  nextPc : Nat
  ticks : Nat
  live : List (RegSlot × Temp)

/-- An instruction. -/
structure Inst where
  op : Opcode
  ty : Ty
  dst : Option Temp
  dst2 : Option Temp
  imm : Option Const
  mem : Option MemOp
  cond : Option Cond
  /-- An index into the boundaries, a helper's id, or a branch target. -/
  aux : Nat
  srcs : List Temp

def Inst.dsts (inst : Inst) : List Temp := inst.dst.toList ++ inst.dst2.toList

/-- An instruction of the type most have: an operation with its operands, one result, an
immediate and a payload. -/
def Inst.plain (op : Opcode) (dst : Option Temp) (srcs : List Temp) (imm : Option Const)
    (aux : Nat) : Inst := ⟨op, .i64, dst, none, imm, none, none, aux, srcs⟩

/-- A translated block. -/
structure Block where
  entryPc : Nat
  key : Nat
  insts : List Inst
  marks : List InsnStart
  types : List Ty

namespace Block

def tempCount (b : Block) : Nat := b.types.length

def typeOf (b : Block) (t : Temp) : Option Ty := b.types[t]?

def boundary (b : Block) (inst : Inst) : Option InsnStart :=
  if inst.op = .insnStart then b.marks[inst.aux]? else none

def terminatorFollows (b : Block) (i : Nat) : Bool :=
  (b.insts[i + 1]?).any fun next => next.op.isTerminator

def named (b : Block) (inst : Inst) : List Temp :=
  ((b.boundary inst).elim [] InsnStart.live).map Prod.snd

end Block

def successor (taken : Nat → Bool) (i : Nat) (inst : Inst) : Option Nat :=
  if inst.op.isTerminator then none
  else if inst.op = .brcond ∧ taken i = true then some inst.aux
  else some (i + 1)

def irErr (i : Nat) (op : Opcode) (what : String) : String :=
  s!"instruction {i} ({op.name}): {what}"

def hex (n : Nat) : String := "0x" ++ String.ofList (Nat.toDigits 16 n)

/-- What the verifier carries from one instruction to the next. -/
structure Progress where
  /-- Which temporaries have been assigned. -/
  defined : List Bool
  seenInsnStart : Bool

/-- Every operand is defined earlier in the list. -/
def checkSrcs (i : Nat) (op : Opcode) (defined : List Bool) : List Temp → Except String Unit
  | [] => .ok ()
  | src :: rest =>
    match defined[src]? with
    | some true => checkSrcs i op defined rest
    | some false => .error (irErr i op s!"t{src} is used before it is assigned")
    | none => .error (irErr i op s!"t{src} was never allocated in this block")

/-- Every result is assigned for the first time. -/
def assignAll (i : Nat) (op : Opcode) (defined : List Bool) : List Temp → Except String (List Bool)
  | [] => .ok defined
  | dst :: rest =>
    match defined[dst]? with
    | some false => assignAll i op (defined.set dst true) rest
    | some true => .error (irErr i op s!"t{dst} is assigned twice; the IR is SSA")
    | none => .error (irErr i op s!"t{dst} was never allocated in this block")

/-- A branch is forward, and lands inside the block. -/
def checkBranch (b : Block) (i : Nat) (inst : Inst) : Except String Unit :=
  if inst.op = .brcond then
    if inst.aux ≤ i then
      .error (irErr i inst.op ("a brcond must branch forward; a loop inside a block needs a " ++
        "fixpoint                      liveness this IR does not have"))
    else if b.insts.length ≤ inst.aux then
      .error (irErr i inst.op "the branch target is outside the block")
    else .ok ()
  else .ok ()

/-- An access says what it accesses, and nothing else does. -/
def checkMem (i : Nat) (inst : Inst) : Except String Unit :=
  if inst.op = .ld ∨ inst.op = .st then
    if inst.mem = none then .error (irErr i inst.op "a memory op needs a MemOp descriptor")
    else .ok ()
  else if inst.mem = none then .ok ()
  else .error (irErr i inst.op "only a memory op may carry a MemOp descriptor")

/-- A temporary, if named, has the type wanted. -/
def expectType (b : Block) (i : Nat) (op : Opcode) (t : Option Temp) (want : Ty) :
    Except String Unit :=
  match t with
  | none => .error (irErr i op s!"expected a {want.name} operand and there is none")
  | some t =>
    match b.typeOf t with
    | some got =>
      if got = want then .ok ()
      else .error (irErr i op s!"t{t} is {got.name} where {want.name} is required")
    | none => .error (irErr i op s!"t{t} was never allocated in this block")

def checkLive (i : Nat) (op : Opcode) (defined : List Bool) :
    List (RegSlot × Temp) → Except String Unit
  | [] => .ok ()
  | (_, t) :: rest =>
    if defined[t]?.getD false then checkLive i op defined rest
    else .error (irErr i op s!"t{t} is named live at a boundary but is not assigned yet")

/-- A boundary names a mark, and the mark's temporaries are defined. -/
def checkInsnStart (b : Block) (i : Nat) (inst : Inst) (defined : List Bool) :
    Except String Unit :=
  match b.marks[inst.aux]? with
  | none => .error (irErr i inst.op "the boundary marker points at no record")
  | some mark =>
    if 0 < inst.aux ∧ ((b.marks[inst.aux - 1]?).any fun prev => mark.ticks < prev.ticks) = true
    then .error (irErr i inst.op "retired ticks went backwards across a boundary")
    else checkLive i inst.op defined mark.live

def checkValues (b : Block) (i : Nat) (inst : Inst) : List Temp → Except String Unit
  | [] => .ok ()
  | src :: rest =>
    match expectType b i inst.op (some src) inst.ty with
    | .error e => .error e
    | .ok () => checkValues b i inst rest

/-- Carry in and carry out are one bit each. -/
def checkCarry (b : Block) (i : Nat) (inst : Inst) : Except String Unit :=
  match inst.srcs.getLast? with
  | none => .error (irErr i inst.op "a carry op needs a carry in")
  | some carryIn =>
    match expectType b i inst.op (some carryIn) .i1 with
    | .error e => .error e
    | .ok () =>
      if inst.dst2 = none then .error (irErr i inst.op "a carry op must produce its carry out")
      else expectType b i inst.op inst.dst2 .i1

/-- What the operation itself asks for. -/
def checkOp (b : Block) (i : Nat) (inst : Inst) (defined : List Bool) (seenInsnStart : Bool) :
    Except String Unit :=
  match inst.op with
  | .insnStart => checkInsnStart b i inst defined
  | .charge =>
    if seenInsnStart = false then
      .error (irErr i inst.op "a charge before the first guest instruction boundary")
    else if inst.imm = none then .error (irErr i inst.op "a charge needs a tick count")
    else .ok ()
  | .getSlot =>
    if inst.dst = none then .error (irErr i inst.op "a slot read must produce a value")
    else if inst.srcs ≠ [] then
      .error (irErr i inst.op "a slot read takes its slot from aux, not an operand")
    else .ok ()
  | .setcond =>
    if inst.cond = none then .error (irErr i inst.op "a comparison needs a condition")
    else expectType b i inst.op inst.dst .i1
  | .clz | .ctz | .popcount | .bswap | .rotl | .rotr => checkValues b i inst (inst.srcs.take 1)
  | .mulu2 | .muls2 => checkValues b i inst (inst.srcs.take 2)
  | .addc | .subb | .rotlc | .rotrc => checkCarry b i inst
  | _ => .ok ()

/-- Every check of one instruction. -/
def verifyInst (b : Block) (i : Nat) (inst : Inst) (p : Progress) : Except String Progress := do
  checkSrcs i inst.op p.defined inst.srcs
  let defined ← assignAll i inst.op p.defined inst.dsts
  checkBranch b i inst
  checkMem i inst
  checkOp b i inst defined p.seenInsnStart
  pure ⟨defined, p.seenInsnStart || inst.op = .insnStart⟩

def verifyFrom (b : Block) : Nat → Progress → List Inst → Except String Unit
  | _, _, [] => .ok ()
  | i, p, inst :: rest =>
    match verifyInst b i inst p with
    | .error e => .error e
    | .ok p => verifyFrom b (i + 1) p rest

/-- Every check of a block. -/
def verify (b : Block) : Except String Unit := do
  verifyFrom b 0 ⟨List.replicate b.tempCount false, false⟩ b.insts
  match b.insts.getLast? with
  | some last =>
    if last.op.isTerminator then .ok ()
    else .error s!"block {hex b.entryPc} does not end in a terminator"
  | none => .error s!"block {hex b.entryPc} is empty"

/-- Instruction `i` has the temporary as a destination. -/
def Block.Assigns (b : Block) (i : Nat) (t : Temp) : Prop :=
  ∃ inst, b.insts[i]? = some inst ∧ t ∈ inst.dsts

/-- Instruction `i` has the temporary as a source. -/
def Block.Reads (b : Block) (i : Nat) (t : Temp) : Prop :=
  ∃ inst, b.insts[i]? = some inst ∧ t ∈ inst.srcs

/-- The boundary of instruction `i` lists the temporary as live. -/
def Block.Names (b : Block) (i : Nat) (t : Temp) : Prop :=
  ∃ inst, b.insts[i]? = some inst ∧ t ∈ b.named inst

/-- What a verified block is: temporaries are assigned once and before they are used,
branches go forward and stay inside, every boundary has its record, and the last
instruction leaves. -/
structure Verified (b : Block) : Prop where
  reads : ∀ i t, b.Reads i t → ∃ j < i, b.Assigns j t
  /-- A boundary may name what its own instruction assigns, and nothing later. -/
  names : ∀ i t, b.Names i t → ∃ j ≤ i, b.Assigns j t
  allocated : ∀ i t, b.Assigns i t → t < b.tempCount
  once : ∀ i j t, b.Assigns i t → b.Assigns j t → i = j
  /-- The two results of one instruction are different temporaries. -/
  dsts_nodup : ∀ (i : Nat) (inst : Inst), b.insts[i]? = some inst → inst.dsts.Nodup
  forward : ∀ (i : Nat) (inst : Inst), b.insts[i]? = some inst → inst.op = .brcond →
    i < inst.aux ∧ inst.aux < b.insts.length
  marked : ∀ (i : Nat) (inst : Inst), b.insts[i]? = some inst → inst.op = .insnStart →
    ∃ mark, b.marks[inst.aux]? = some mark
  charged : ∀ (i : Nat) (inst : Inst), b.insts[i]? = some inst → inst.op = .charge →
    ∃ c, inst.imm = some c
  compares : ∀ (i : Nat) (inst : Inst), b.insts[i]? = some inst → inst.op = .setcond →
    ∃ d, inst.dst = some d ∧ b.typeOf d = some .i1
  ends : ∃ last : Inst, b.insts.getLast? = some last ∧ last.op.isTerminator = true

/-- The verifier's table after the first `k` instructions. -/
structure DefinedUpTo (b : Block) (k : Nat) (defined : List Bool) : Prop where
  length : defined.length = b.tempCount
  iff : ∀ t, defined[t]? = some true ↔ ∃ j < k, b.Assigns j t

variable {defined : List Bool} {i : Nat} {b : Block}

theorem checkSrcs_ok {op : Opcode} {srcs : List Temp} (h : checkSrcs i op defined srcs = .ok ()) :
    ∀ s ∈ srcs, defined[s]? = some true := by
  induction srcs with
  | nil => simp
  | cons src rest ih =>
    unfold checkSrcs at h
    split at h
    · rename_i hsrc
      intro s hs
      rcases List.mem_cons.mp hs with rfl | hs
      · exact hsrc
      · exact ih h s hs
    · cases h
    · cases h

theorem assignAll_ok {op : Opcode} {out : List Bool} {dsts : List Temp}
    (h : assignAll i op defined dsts = .ok out) :
    dsts.Nodup ∧ (∀ t ∈ dsts, defined[t]? = some false) ∧ out.length = defined.length ∧
      ∀ t, out[t]? = some true ↔ defined[t]? = some true ∨ t ∈ dsts := by
  induction dsts generalizing defined with
  | nil =>
    unfold assignAll at h
    cases h
    simp
  | cons dst rest ih =>
    unfold assignAll at h
    split at h
    · rename_i hdst
      obtain ⟨hnd, hfree, hlen, hout⟩ := ih h
      have hlt : dst < defined.length := by
        rw [List.getElem?_eq_some_iff] at hdst
        exact hdst.1
      -- Anything the rest assigns was unassigned after `dst` was: so it is not `dst`.
      have hne : ∀ t ∈ rest, t ≠ dst := by
        intro t ht he
        have := hfree t ht
        rw [he, List.getElem?_set_self hlt] at this
        exact absurd this (by simp)
      refine ⟨List.nodup_cons.mpr ⟨fun hm => hne dst hm rfl, hnd⟩, ?_, by simpa using hlen, ?_⟩
      · intro t ht
        rcases List.mem_cons.mp ht with rfl | ht
        · exact hdst
        · have := hfree t ht
          rwa [List.getElem?_set_ne (fun he => hne t ht he.symm)] at this
      · intro t
        rw [hout t, List.mem_cons]
        by_cases he : t = dst
        · subst he
          simp [List.getElem?_set_self hlt]
        · rw [List.getElem?_set_ne (fun h => he h.symm)]
          simp [he]
    · exact absurd h (by simp)
    · exact absurd h (by simp)

theorem checkLive_ok {op : Opcode} {live : List (RegSlot × Temp)}
    (h : checkLive i op defined live = .ok ()) :
    ∀ t ∈ live.map Prod.snd, defined[t]? = some true := by
  induction live with
  | nil => simp
  | cons pair rest ih =>
    obtain ⟨slot, u⟩ := pair
    unfold checkLive at h
    split at h
    · rename_i hu
      intro t ht
      rcases List.mem_cons.mp ht with rfl | ht
      · cases hd : defined[t]? with
        | none => rw [hd] at hu; cases hu
        | some v => rw [hd] at hu; simpa using hu
      · exact ih h t ht
    · cases h

/-- What one instruction's passing says. -/
structure Passed (b : Block) (i : Nat) (inst : Inst) (p q : Progress) : Prop where
  srcs : ∀ s ∈ inst.srcs, p.defined[s]? = some true
  nodup : inst.dsts.Nodup
  fresh : ∀ t ∈ inst.dsts, p.defined[t]? = some false
  length : q.defined.length = p.defined.length
  defined : ∀ t, q.defined[t]? = some true ↔ p.defined[t]? = some true ∨ t ∈ inst.dsts
  branch : checkBranch b i inst = .ok ()
  op : checkOp b i inst q.defined p.seenInsnStart = .ok ()

theorem verifyInst_ok {inst : Inst} {p q : Progress} (h : verifyInst b i inst p = .ok q) :
    Passed b i inst p q := by
  simp only [verifyInst, bind, Except.bind] at h
  split at h
  · cases h
  rename_i hsrcs
  split at h
  · cases h
  rename_i defined hassign
  split at h
  · cases h
  rename_i hbranch
  split at h
  · cases h
  split at h
  · cases h
  rename_i hop
  cases h
  obtain ⟨hnd, hfresh, hlen, hdef⟩ := assignAll_ok hassign
  exact ⟨checkSrcs_ok hsrcs, hnd, hfresh, hlen, hdef, hbranch, hop⟩

theorem Passed.definedUpTo {inst : Inst} {p q : Progress} (h : Passed b i inst p q)
    (hi : b.insts[i]? = some inst) (hp : DefinedUpTo b i p.defined) :
    DefinedUpTo b (i + 1) q.defined := by
  refine ⟨h.length.trans hp.length, fun t => ?_⟩
  rw [h.defined t, hp.iff t]
  constructor
  · rintro (⟨j, hj, ha⟩ | ht)
    · exact ⟨j, by omega, ha⟩
    · exact ⟨i, by omega, inst, hi, ht⟩
  · rintro ⟨j, hj, ha⟩
    by_cases hlt : j < i
    · exact .inl ⟨j, hlt, ha⟩
    · obtain rfl : j = i := by omega
      obtain ⟨inst', hi', ht⟩ := ha
      rw [hi] at hi'
      cases hi'
      exact .inr ht

theorem verifyFrom_ok {k : Nat} {p : Progress} {rest : List Inst}
    (h : verifyFrom b k p rest = .ok ()) (hrest : b.insts.drop k = rest)
    (hp : DefinedUpTo b k p.defined) :
    ∀ i inst, k ≤ i → b.insts[i]? = some inst →
      ∃ p q, DefinedUpTo b i p.defined ∧ Passed b i inst p q := by
  induction rest generalizing k p with
  | nil =>
    intro i inst hki hi
    have := List.drop_eq_nil_iff.mp hrest
    rw [List.getElem?_eq_none (by omega)] at hi
    exact absurd hi (by simp)
  | cons head tail ih =>
    unfold verifyFrom at h
    split at h
    · exact absurd h (by simp)
    · rename_i q hq
      have hhead : b.insts[k]? = some head := by
        have := congrArg (fun l => l[0]?) hrest
        simpa using this
      have hpass := verifyInst_ok hq
      have htail : b.insts.drop (k + 1) = tail := by
        rw [← List.drop_drop, hrest, List.drop_one, List.tail_cons]
      intro i inst hki hi
      by_cases he : i = k
      · subst he
        rw [hhead] at hi
        cases hi
        exact ⟨p, q, hp, hpass⟩
      · exact ih h htail (hpass.definedUpTo hhead hp) i inst (by omega) hi

theorem expectType_ok {op : Opcode} {t : Option Temp} {want : Ty}
    (h : expectType b i op t want = .ok ()) : ∃ d, t = some d ∧ b.typeOf d = some want := by
  unfold expectType at h
  split at h
  · cases h
  · rename_i d
    refine ⟨d, rfl, ?_⟩
    split at h
    · rename_i got hgot
      split at h
      · rename_i he
        rw [hgot, he]
      · cases h
    · cases h

theorem checkInsnStart_ok {inst : Inst} (h : checkInsnStart b i inst defined = .ok ()) :
    ∃ mark, b.marks[inst.aux]? = some mark ∧ ∀ t ∈ mark.live.map Prod.snd,
      defined[t]? = some true := by
  unfold checkInsnStart at h
  split at h
  · exact absurd h (by simp)
  · rename_i mark hmark
    split at h
    · exact absurd h (by simp)
    · exact ⟨mark, hmark, checkLive_ok h⟩

theorem verify_ok (h : verify b = .ok ()) : Verified b := by
  simp only [verify, bind, Except.bind] at h
  split at h
  · cases h
  rename_i hfrom
  have hinit : DefinedUpTo b 0 (List.replicate b.tempCount false) := by
    refine ⟨by simp, fun t => ?_⟩
    simp [List.getElem?_replicate]
  have hall := fun i inst hi => verifyFrom_ok hfrom rfl hinit i inst (Nat.zero_le _) hi
  refine ⟨?_, ?_, ?_, ?_, ?_, ?_, ?_, ?_, ?_, ?_⟩
  · rintro i t ⟨inst, hi, ht⟩
    obtain ⟨p, q, hp, hpass⟩ := hall i inst hi
    exact (hp.iff t).mp (hpass.srcs t ht)
  · rintro i t ⟨inst, hi, ht⟩
    obtain ⟨p, q, hp, hpass⟩ := hall i inst hi
    unfold Block.named Block.boundary at ht
    split at ht
    · rename_i hop
      have hc := hpass.op
      simp only [checkOp, hop] at hc
      obtain ⟨mark, hmark, hlive⟩ := checkInsnStart_ok hc
      rw [hmark] at ht
      obtain ⟨j, hj, ha⟩ := ((hpass.definedUpTo hi hp).iff t).mp (hlive t ht)
      exact ⟨j, by omega, ha⟩
    · cases ht
  · rintro i t ⟨inst, hi, ht⟩
    obtain ⟨p, q, hp, hpass⟩ := hall i inst hi
    obtain ⟨hlt, -⟩ := List.getElem?_eq_some_iff.mp (hpass.fresh t ht)
    rwa [hp.length] at hlt
  · -- Of two assignments the later one would find the temporary assigned.
    have hlate : ∀ i j t, b.Assigns i t → b.Assigns j t → ¬ i < j := by
      rintro i j t hai ⟨inst, hj, ht⟩ hlt
      obtain ⟨p, q, hp, hpass⟩ := hall j inst hj
      have hset := (hp.iff t).mpr ⟨i, hlt, hai⟩
      rw [hpass.fresh t ht] at hset
      cases hset
    intro i j t hi hj
    have h1 := hlate i j t hi hj
    have h2 := hlate j i t hj hi
    omega
  · intro i inst hi
    obtain ⟨p, q, -, hpass⟩ := hall i inst hi
    exact hpass.nodup
  · intro i inst hi hop
    obtain ⟨p, q, -, hpass⟩ := hall i inst hi
    have hb := hpass.branch
    simp only [checkBranch, hop, if_true] at hb
    split at hb
    · cases hb
    · split at hb
      · cases hb
      · omega
  · intro i inst hi hop
    obtain ⟨p, q, -, hpass⟩ := hall i inst hi
    have hc := hpass.op
    simp only [checkOp, hop] at hc
    obtain ⟨mark, hmark, -⟩ := checkInsnStart_ok hc
    exact ⟨mark, hmark⟩
  · intro i inst hi hop
    obtain ⟨p, q, -, hpass⟩ := hall i inst hi
    have hc := hpass.op
    simp only [checkOp, hop] at hc
    split at hc
    · cases hc
    · split at hc
      · cases hc
      · rename_i himm
        exact Option.ne_none_iff_exists'.mp himm
  · intro i inst hi hop
    obtain ⟨p, q, -, hpass⟩ := hall i inst hi
    have hc := hpass.op
    simp only [checkOp, hop] at hc
    split at hc
    · cases hc
    · exact expectType_ok hc
  · split at h
    · rename_i last hlast
      split at h
      · rename_i hterm
        exact ⟨last, hlast, hterm⟩
      · cases h
    · cases h

end Rsemu.Ir
