import Rsemu.Ir.Publish

/-!
# One instruction over two files of temporaries

What an operation on temporaries computes, it computes from its operands. `Linked` says
how two files of temporaries are related for an instruction: what it reads in the one has
the low bits, as many as its type has, of what a copy of it reads in the other, and writing
one result to both keeps them related. `coreStep_sim` is the interpreter's step over both:
it ends alike when the operands are the same words, and when only their low bits are as far
as `Steady` says.
-/

namespace Rsemu.Ir

def Inst.reading (inst : Inst) (srcs : List Temp) : Inst := { inst with srcs := srcs }

@[simp] theorem Inst.reading_op (inst : Inst) (srcs : List Temp) :
    (inst.reading srcs).op = inst.op := rfl

/-- Whether an operand is a value of the instruction's type. The amount of a shift is a
count, and a carry is a bit. -/
def Opcode.isValue (op : Opcode) (k : Nat) : Bool :=
  match op with
  | .shl | .shr | .sar | .rotl | .rotr | .rotlc | .rotrc => decide (k = 0)
  | .addc | .subb => decide (k < 2)
  | _ => true

def Cond.isSigned : Cond → Bool
  | .ltS | .leS | .gtS | .geS => true
  | _ => false

/-- The destination is no wider than the operation. -/
def Block.Fits (b : Block) (inst : Inst) : Prop :=
  ∀ d ty, inst.dst = some d → b.typeOf d = some ty → ty.bits ≤ inst.ty.bits

/-- What an instruction does with its operands, by how many they are and by its condition. A
broken one has too few, or a field outside its type, and fails. -/
inductive Form where
  | broken
  | plain
  | compare (cond : Cond)
  deriving DecidableEq

/-- How many operands an operation reads; counted for those that can tell more than the low
bits of one. -/
def Opcode.arity : Opcode → Nat
  | .mov | .extS | .extZ | .trunc => 1
  | .divS | .divU | .remS | .remU | .mulhsu | .shr | .rotrc => 2
  | .addc | .subb => 3
  | _ => 0

/-- The bit field is not empty and lies within the word. -/
def Inst.fieldFits (inst : Inst) : Prop :=
  let (pos, len) := Interp.bitfieldParts inst.aux
  ¬ (len = 0 ∨ inst.ty.bits < pos + len)

instance (inst : Inst) : Decidable inst.fieldFits := inferInstanceAs (Decidable (¬ _))

/-- What an instruction asks of its operands, by what it does and how many it has. -/
def Inst.form (inst : Inst) : Form :=
  let n := inst.srcs.length
  match inst.op, inst.cond with
  | .setcond, some c => if 2 ≤ n then .compare c else .broken
  | .setcond, none => .broken
  | .movcond, some c => if n = 4 then .compare c else if n = 3 then .plain else .broken
  | .movcond, none => if n = 3 then .plain else .broken
  | .brcond, some c => if n = 2 then .compare c else if n = 1 then .plain else .broken
  | .brcond, none => if n = 1 then .plain else .broken
  | .deposit, _ => if 2 ≤ n ∧ inst.fieldFits then .plain else .broken
  | op, _ => if op.arity ≤ n then .plain else .broken

/-- The temporaries an instruction writes when it goes on. -/
def Inst.writes (inst : Inst) : List Temp :=
  match inst.op with
  | .mov | .extS | .extZ | .trunc | .bswap | .deposit | .extract | .getSlot | .add | .sub | .mul
  | .neg | .divS | .divU | .remS | .remU | .mulhsu | .and | .or | .xor | .andc | .not | .shl
  | .shr | .sar | .rotl | .rotr | .clz | .ctz | .popcount | .setcond | .movcond | .ld | .xchg
  | .ldExcl | .stExcl | .fetchAdd | .fetchAnd | .fetchOr | .fetchXor | .fetchSmin | .fetchSmax
  | .fetchUmin | .fetchUmax => inst.dst.toList
  | .addc | .subb | .mulu2 | .muls2 | .rotlc | .rotrc | .cmpxchg | .callHelper => inst.dsts
  | .st | .brcond | .fence | .gotoTb | .exitTb | .lookupAndGoto | .charge | .insnStart => []
  -- not supported: never goes on
  | .phi | .unknown _ => inst.dsts

theorem Inst.mem_dsts_of_writes (inst : Inst) {t : Temp} (h : t ∈ inst.writes) : t ∈ inst.dsts := by
  unfold Inst.writes at h
  split at h
  all_goals first
    | exact h
    | exact List.mem_append.mpr (.inl h)
    | cases h

end Rsemu.Ir

namespace Rsemu.Ir.Interp

open Fallible (exec exec_bind_ok exec_bind_error Sim Alike)
open Checked (Ok)

variable {W : Type} {α : Type}

/-- How two files of temporaries are related, at the temporaries listed. -/
abbrev TempRel := List Temp → List Val → List Val → Prop

/-- **Two files linked for an instruction** and its copy with the operands `srcs'`. -/
structure Linked (b b' : Block) (inst : Inst) (srcs' : List Temp) (T : TempRel)
    (V : Nat → Val → Val → Prop) : Prop where
  length : srcs'.length = inst.srcs.length
  bound : ∀ k v v', V k v v' → k < inst.srcs.length
  read : ∀ l l', T [] l l' → ∀ k t t', inst.srcs[k]? = some t → srcs'[k]? = some t' →
    (l[t]? = none ∧ l'[t']? = none) ∨ ∃ v v', l[t]? = some v ∧ l'[t']? = some v' ∧ V k v v'
  typed : ∀ t t', inst.srcs[0]? = some t → srcs'[0]? = some t' → b'.typeOf t' = b.typeOf t
  result : ∀ d ∈ inst.dsts, b'.typeOf d = b.typeOf d
  room : ∀ ws l l', T ws l l' → ∀ d ∈ inst.dsts, d < l'.length ↔ d < l.length
  write : ∀ ws l l', T ws l l' → ∀ d ∈ inst.dsts, ∀ v, T (d :: ws) (l.set d v) (l'.set d v)
  fewer : ∀ ws ws' l l', T ws l l' → (∀ t ∈ ws', t ∈ ws) → T ws' l l'
  /-- The operands have the same low bits. -/
  low : ∀ k v v', V k v v' → SameLow inst.ty.bits v v'
  /-- A count or a carry is the same word. -/
  count : ∀ k v v', inst.op.isValue k = false → V k v v' → v = v'

/-- The same state up to related temporaries. -/
def Rel (T : TempRel) (ws : List Temp) (c c' : Core W) : Prop :=
  T ws c.temps c'.temps ∧ c' = { c with temps := c'.temps }

theorem Rel.update {T : TempRel} {ws : List Temp} {c c' : Core W} (h : Rel T ws c c')
    (f : Core W → Core W) (hkeep : ∀ c, (f c).temps = c.temps)
    (hcomm : ∀ c l, f { c with temps := l } = { f c with temps := l }) :
    Rel T ws (f c) (f c') := by
  refine ⟨?_, ?_⟩
  · rw [hkeep, hkeep]
    exact h.1
  · rw [hkeep]
    conv => lhs; rw [h.2]
    exact hcomm c c'.temps

/-- The same step, and related states; but for the end of the block, `ws` are written. -/
def After (T : TempRel) (ws : List Temp) (x x' : Step) (c c' : Core W) : Prop :=
  x = x' ∧ Rel T [] c c' ∧ ((∀ o, x ≠ .done o) → Rel T ws c c')

/-- Two computations that end alike over linked files, on results `P` relates. -/
abbrev Along (W : Type) (T : TempRel) (P : α → α → Prop) (x x' : CoreM W α) : Prop :=
  Sim (Rel T []) (Rel T []) (fun v v' c c' => P v v' ∧ Rel T [] c c') x x'

/-- Two steps that end alike over linked files, having written `ws` in both. -/
abbrev Lockstep (W : Type) (T : TempRel) (ws : List Temp) (x x' : CoreM W Step) : Prop :=
  Sim (Rel T []) (Rel T []) (After T ws) x x'

section Step

variable {b b' : Block} {inst : Inst} {srcs' : List Temp} {T : TempRel}
  {V : Nat → Val → Val → Prop} {i : Nat} {U : α → α → Core W → Core W → Prop}

theorem Linked.weaken (L : Linked b b' inst srcs' T V) {ws : List Temp} {c c' : Core W}
    (h : Rel T ws c c') : Rel T [] c c' :=
  ⟨L.fewer ws [] _ _ h.1 (fun _ ht => by cases ht), h.2⟩

/-! ### Reading -/

theorem exec_getThe (c : Core W) : exec (getThe (Core W) : CoreM W (Core W)) c = (.ok c, c) := rfl

theorem sim_src (L : Linked b b' inst srcs' T V) (k : Nat) :
    Along W T (fun t t' => inst.srcs[k]? = some t ∧ srcs'[k]? = some t') (src inst i k)
      (src (inst.reading srcs') i k) := by
  unfold src Inst.reading
  cases ht : inst.srcs[k]? with
  | none =>
    have hk : srcs'[k]? = none := by
      rw [List.getElem?_eq_none_iff] at ht ⊢
      rw [L.length]
      exact ht
    simp only [hk]
    exact .throw fun _ _ h => h
  | some t =>
    obtain ⟨t', ht'⟩ : ∃ t', srcs'[k]? = some t' := by
      obtain ⟨hk, -⟩ := List.getElem?_eq_some_iff.mp ht
      exact ⟨_, List.getElem?_eq_getElem (by rw [L.length]; exact hk)⟩
    simp only [ht']
    exact .pure fun _ _ h => ⟨⟨rfl, rfl⟩, h⟩

theorem sim_getTemp (L : Linked b b' inst srcs' T V) {k : Nat} {t t' : Temp}
    (ht : inst.srcs[k]? = some t) (ht' : srcs'[k]? = some t') :
    Along W T (V k) (getTemp t i inst.op) (getTemp t' i inst.op) := by
  intro c c' h
  unfold getTemp
  rw [exec_bind_ok (exec_getThe c), exec_bind_ok (exec_getThe c')]
  rcases L.read _ _ h.1 k t t' ht ht' with ⟨hn, hn'⟩ | ⟨v, v', hv, hv', hV⟩
  · rw [hn, hn']
    exact .error h
  · rw [hv, hv']
    exact .ok ⟨hV, h⟩

theorem sim_operand (L : Linked b b' inst srcs' T V) (k : Nat) :
    Along W T (V k) (operand inst i k) (operand (inst.reading srcs') i k) :=
  (sim_src L k).and_bind fun _ _ ht => sim_getTemp L ht.1 ht.2

theorem sim_operand_bind (L : Linked b b' inst srcs' T V) {k : Nat} {f g : Val → CoreM W α}
    (hf : ∀ v v', V k v v' → Sim (Rel T []) (Rel T []) U (f v) (g v')) :
    Sim (Rel T []) (Rel T []) U (operand inst i k >>= f) (operand (inst.reading srcs') i k >>= g) :=
  (sim_operand L k).and_bind hf

theorem sim_requireInt_bind {f g : Unit → CoreM W α}
    (hf : Sim (Rel T []) (Rel T []) U (f ()) (g ())) :
    Sim (Rel T []) (Rel T []) U (requireInt inst i >>= f)
      (requireInt (inst.reading srcs') i >>= g) := by
  unfold requireInt Inst.reading
  dsimp only
  split
  · exact Sim.bind (Q := fun _ _ c c' => Rel T [] c c') (.pure fun _ _ h => h) fun _ _ => hf
  · exact Sim.bind (Q := fun _ _ c c' => Rel T [] c c') (.throw fun _ _ h => h) fun _ _ => hf

/-! ### Writing -/

/-- The values agree in the bits the destination keeps. -/
def SameAt (b : Block) (inst : Inst) (v v' : Val) : Prop :=
  ∀ d ty, inst.dst = some d → b.typeOf d = some ty → SameLow ty.bits v v'

theorem SameAt.of_eq (v : Val) : SameAt b inst v v := fun _ _ _ _ => .refl v

theorem SameAt.of_mask {w : Nat} {v v' : Val} (h : SameLow w v v') :
    SameAt b inst (v &&& maskBits w) (v' &&& maskBits w) := by
  rw [sameLow_iff_mask.mp h]
  exact .of_eq _

theorem SameAt.of_none (hd : inst.dst = none) (v v' : Val) : SameAt b inst v v' :=
  fun d _ hd' => by cases hd.symm.trans hd'

theorem SameAt.of_fits {v v' : Val} (hfit : b.Fits inst) (h : SameLow inst.ty.bits v v') :
    SameAt b inst v v' :=
  fun d ty hd hty => h.mono (hfit d ty hd hty)

section

variable (L : Linked b b' inst srcs' T V)
include L

theorem sim_setTemp {ws : List Temp} {d : Temp}
    (hd : d ∈ inst.dsts) {v v' : Val} (hv : ∀ ty, b.typeOf d = some ty → SameLow ty.bits v v') :
    Sim (Rel T []) (Rel T ws) (fun _ _ c c' => Rel T (d :: ws) c c')
      (setTemp b d v i inst.op : CoreM W Unit) (setTemp b' d v' i inst.op) := by
  intro c c' h
  unfold setTemp
  rw [L.result d hd]
  cases hty : b.typeOf d with
  | none => exact .error (L.weaken h)
  | some ty =>
    dsimp only
    rw [exec_bind_ok (exec_getThe c), exec_bind_ok (exec_getThe c'), Checked.maskBits_ok]
    have hroom := L.room ws _ _ h.1 d hd
    have hset : ∀ (v : Val) (c : Core W), exec (do
        let m ← check (.ok (maskBits ty.bits))
        set { c with temps := c.temps.set d (v &&& m) } : CoreM W PUnit) c =
          (.ok ⟨⟩, { c with temps := c.temps.set d (v &&& maskBits ty.bits) }) := fun _ _ => rfl
    by_cases hlt : d < c.temps.length
    · rw [if_pos hlt, if_pos (hroom.mpr hlt), hset, hset, ← sameLow_iff_mask.mp (hv ty hty)]
      refine .ok ⟨L.write ws _ _ h.1 d hd _, ?_⟩
      rw [h.2]
    · rw [if_neg hlt, if_neg fun h' => hlt (hroom.mp h')]
      exact .error (L.weaken h)

theorem sim_writeDst {v v' : Val} (hv : SameAt b inst v v') :
    Sim (Rel T []) (Rel T []) (fun _ _ c c' => Rel T inst.dst.toList c c')
      (writeDst b inst v i : CoreM W Unit) (writeDst b' (inst.reading srcs') v' i) := by
  have hdst : (inst.reading srcs').dst = inst.dst := rfl
  unfold writeDst
  rw [hdst]
  cases hd : inst.dst with
  | none => exact .throw fun _ _ h => h
  | some d => exact sim_setTemp L (by simp [Inst.dsts, hd]) fun ty hty => hv d ty hd hty

theorem sim_writeDst2 {ws : List Temp} (v : Val)
    (what : String) :
    Sim (Rel T []) (Rel T ws) (fun _ _ c c' => Rel T (inst.dst2.toList ++ ws) c c')
      (writeDst2 b inst v i what : CoreM W Unit) (writeDst2 b' (inst.reading srcs') v i what) := by
  have hdst2 : (inst.reading srcs').dst2 = inst.dst2 := rfl
  unfold writeDst2
  rw [hdst2]
  cases hd : inst.dst2 with
  | none => exact .throw fun _ _ h => L.weaken h
  | some d => exact sim_setTemp L (by simp [Inst.dsts, hd]) fun _ _ => .refl v

theorem sim_writeSome {ws : List Temp} {dst : Option Temp}
    (hdst : ∀ d, dst = some d → d ∈ inst.dsts) (v : Val) :
    Sim (Rel T []) (Rel T ws) (fun _ _ c c' => Rel T (dst.toList ++ ws) c c')
      (writeSome b inst dst v i : CoreM W Unit) (writeSome b' (inst.reading srcs') dst v i) := by
  unfold writeSome
  cases dst with
  | none => exact .pure fun _ _ h => h
  | some d => exact sim_setTemp L (hdst d rfl) fun _ _ => .refl v

theorem sim_next {ws ws' : List Temp} (h : ∀ t ∈ ws', t ∈ ws) :
    Sim (Rel T []) (Rel T ws) (After T ws') (pure .next : CoreM W Step) (pure .next) :=
  .pure fun _ _ hr => ⟨rfl, L.weaken hr, fun _ => ⟨L.fewer ws ws' _ _ hr.1 h, hr.2⟩⟩

theorem sim_write {v v' : Val} (hv : SameAt b inst v v') :
    Lockstep W T inst.dst.toList (do writeDst b inst v i; pure .next)
      (do writeDst b' (inst.reading srcs') v' i; pure .next) :=
  (sim_writeDst L hv).bind fun _ _ => sim_next L fun _ h => h

theorem sim_write2 {v v' w w' : Val} {what : String}
    (hv : SameAt b inst v v') (hw : inst.dst ≠ none → w = w') :
    Lockstep W T inst.dsts (do
        writeDst b inst v i
        writeDst2 b inst w i what
        pure .next)
      (do
        writeDst b' (inst.reading srcs') v' i
        writeDst2 b' (inst.reading srcs') w' i what
        pure .next) := by
  by_cases hd : inst.dst = none
  · have hd' : (inst.reading srcs').dst = none := hd
    unfold writeDst
    rw [hd, hd']
    exact .throw fun _ _ h => h
  obtain rfl := hw hd
  refine (sim_writeDst L hv).bind fun _ _ => (sim_writeDst2 L w what).bind fun _ _ =>
    sim_next L fun t ht => ?_
  rcases List.mem_append.mp ht with h | h
  · exact List.mem_append.mpr (.inr h)
  · exact List.mem_append.mpr (.inl h)

end

theorem sim_done (o : Outcome) (ws : List Temp) :
    Lockstep W T ws (pure (.done o)) (pure (.done o)) :=
  .pure fun _ _ h => ⟨rfl, h, fun hne => absurd rfl (hne o)⟩

theorem sim_fail {ws : List Temp} (op : Opcode) (what : String) :
    Lockstep W T ws (fail i op what) (fail i op what) :=
  .throw fun _ _ h => h

/-! ### Checked values -/

/-- Two checked values are one, or both there and related. -/
def Both (P : α → α → Prop) (r r' : Except Error α) : Prop :=
  r = r' ∨ ∃ v v', r = .ok v ∧ r' = .ok v' ∧ P v v'

theorem Both.of_ok {P : α → α → Prop} {r r' : Except Error α} (hr : Ok r) (hr' : Ok r')
    (h : ∀ v v', P v v') : Both P r r' :=
  .inr ⟨_, _, hr.choose_spec, hr'.choose_spec, h _ _⟩

theorem sim_check_bind {β : Type} {P : β → β → Prop} {r r' : Except Error β} (hr : Both P r r')
    (hP : ∀ v, P v v) {f g : β → CoreM W α}
    (hf : ∀ v v', P v v' → Sim (Rel T []) (Rel T []) U (f v) (g v')) :
    Sim (Rel T []) (Rel T []) U (check r >>= f) (check r' >>= g) := by
  rcases hr with rfl | ⟨v, v', rfl, rfl, h⟩
  · cases r with
    | error e => exact .throw fun _ _ h => h
    | ok v => exact hf v v (hP v)
  · exact hf v v' h

theorem sim_writeChecked (L : Linked b b' inst srcs' T V) {r r' : Except Error Val}
    (hr : Both (SameAt b inst) r r') :
    Lockstep W T inst.dst.toList (writeChecked b inst r i)
      (writeChecked b' (inst.reading srcs') r' i) :=
  sim_check_bind hr .of_eq fun _ _ hv => sim_write L hv

theorem sim_writeMasked (L : Linked b b' inst srcs' T V) {v v' : Val}
    (h : SameLow inst.ty.bits v v') :
    Lockstep W T inst.dst.toList (writeMasked b inst v i)
      (writeMasked b' (inst.reading srcs') v' i) := by
  have hty : (inst.reading srcs').ty = inst.ty := rfl
  unfold writeMasked
  rw [hty, Checked.maskBits_ok]
  exact sim_writeChecked L (.inr ⟨_, _, rfl, rfl, .of_mask h⟩)

/-! ### Arithmetic on related operands -/

/-- Operand `k` is the same in full. -/
def SameWords (V : Nat → Val → Val → Prop) (k : Nat) : Prop := ∀ v v', V k v v' → v = v'

/-- What a plain instruction asks of its operands beyond their low bits. -/
def SteadyPlain (b : Block) (inst : Inst) (V : Nat → Val → Val → Prop) : Prop :=
  match inst.op with
  | .add | .sub | .mul | .neg | .and | .or | .xor | .andc | .not | .shl | .sar | .extract
  | .rotlc | .setcond | .brcond => True
  | .mov | .extS | .extZ | .trunc | .deposit => ∀ v v', V 0 v v' → SameAt b inst v v'
  | .movcond => ∀ k ∈ [1, 2], ∀ v v', V k v v' → SameAt b inst v v'
  | .shr => inst.ty = .i1 ∨ inst.dst = none ∨ SameWords V 0
  | .rotrc => inst.dst = none ∨ SameWords V 0
  | .mulhsu => inst.dst = none ∨ SameWords V 1
  | .addc | .subb => inst.dst = none ∨ SameWords V 0 ∧ SameWords V 1
  | .divS | .divU | .remS | .remU => ∀ x x' y y', V 0 x x' → V 1 y y' → y = y' ∧
      (y ≠ 0#128 → Both (SameAt b inst) (Checked.divide inst.op inst.ty.bits x y)
        (Checked.divide inst.op inst.ty.bits x' y))
  | _ => ∀ k, SameWords V k

/-- **What an instruction asks of its operands beyond their low bits**, as many as its type
has. Arithmetic and logic mask what they compute. A move or a select does not, and relies on
its destination to. -/
def Steady (b : Block) (inst : Inst) (V : Nat → Val → Val → Prop) : Prop :=
  match inst.form with
  | .broken => True
  | .plain => SteadyPlain b inst V
  | .compare c =>
    (c.isSigned = true ∨ (inst.op = .setcond ∧ inst.dst = none) ∨ SameWords V 0 ∧ SameWords V 1) ∧
      (inst.op = .movcond → ∀ k ∈ [2, 3], ∀ v v', V k v v' → SameAt b inst v v')

theorem Steady.of_same (h : ∀ k, SameWords V k) : Steady b inst V := by
  have hat : ∀ k v v', V k v v' → SameAt b inst v v' := by
    intro k v v' hV
    rw [h k v v' hV]
    exact .of_eq _
  unfold Steady
  split
  · trivial
  · unfold SteadyPlain
    split
    all_goals first
      | trivial
      | exact hat 0
      | exact fun k _ => hat k
      | exact .inr (.inr (h 0))
      | exact .inr (h 0)
      | exact .inr (h 1)
      | exact .inr ⟨h 0, h 1⟩
      | exact fun x x' y y' hx hy => ⟨h 1 y y' hy, fun _ => .inl (by rw [h 0 x x' hx])⟩
  · exact ⟨.inr (.inr ⟨h 0, h 1⟩), fun _ k _ => hat k⟩

theorem Steady.plain (h : Steady b inst V) (hform : inst.form = .plain) : SteadyPlain b inst V := by
  unfold Steady at h
  rw [hform] at h
  exact h

section

variable (L : Linked b b' inst srcs' T V)
include L

section

variable (h : ∀ v v', V 0 v v' → SameAt b inst v v')
include h

theorem sim_movValue :
    Along W T (SameAt b inst) (movValue inst i) (movValue (inst.reading srcs') i) := by
  unfold movValue Inst.reading
  cases ht : inst.srcs[0]? with
  | none =>
    have hk : srcs'[0]? = none := by
      rw [List.getElem?_eq_none_iff] at ht ⊢
      rw [L.length]
      exact ht
    simp only [hk]
    cases inst.imm with
    | none => exact .throw fun _ _ h => h
    | some v => exact .pure fun _ _ h => ⟨.of_eq _, h⟩
  | some t =>
    obtain ⟨t', ht'⟩ : ∃ t', srcs'[0]? = some t' := by
      obtain ⟨hk, -⟩ := List.getElem?_eq_some_iff.mp ht
      exact ⟨_, List.getElem?_eq_getElem (by rw [L.length]; exact hk)⟩
    simp only [ht']
    refine fun c c' hr => ?_
    have halike := sim_getTemp L ht ht' (i := i) c c' hr
    revert halike
    generalize exec (getTemp t i inst.op : CoreM W Val) c = x
    generalize exec (getTemp t' i inst.op : CoreM W Val) c' = x'
    intro halike
    cases halike with
    | ok hq => exact .ok ⟨h _ _ hq.1, hq.2⟩
    | error he => exact .error he

theorem sim_mov :
    Lockstep W T inst.dst.toList (stepMov b inst i) (stepMov b' (inst.reading srcs') i) :=
  (sim_movValue L h).and_bind fun _ _ hV => sim_write L hV

theorem sim_extZ :
    Lockstep W T inst.dst.toList (stepExtZ b inst i) (stepExtZ b' (inst.reading srcs') i) :=
  sim_operand_bind L fun v v' hV => sim_write L (h v v' hV)

omit L in
omit h in
theorem sameLow_sext_from {w : Nat} {x y : Val} (h : SameLow w x y) (from_ : Ty) :
    SameLow w (sext x from_.bits) (sext y from_.bits) := by
  intro j hj
  by_cases h128 : j < 128
  · rw [getLsbD_sext x from_.bits_pos from_.bits_le h128,
      getLsbD_sext y from_.bits_pos from_.bits_le h128, h _ (by omega)]
  · rw [BitVec.getLsbD_of_ge _ j (Nat.le_of_not_lt h128),
      BitVec.getLsbD_of_ge _ j (Nat.le_of_not_lt h128)]

theorem sim_extS :
    Lockstep W T inst.dst.toList (stepExtS b inst i) (stepExtS b' (inst.reading srcs') i) := by
  refine (sim_src L 0).and_bind fun t t' ht => ?_
  rw [L.typed t t' ht.1 ht.2]
  cases b.typeOf t with
  | none => exact sim_fail _ _
  | some from_ =>
    refine (sim_getTemp L ht.1 ht.2).and_bind fun v v' hV => sim_writeChecked L ?_
    exact .inr ⟨_, _, Checked.sext_ok from_.bits_pos, Checked.sext_ok from_.bits_pos,
      fun d ty hd hty => sameLow_sext_from (h v v' hV d ty hd hty) from_⟩

end

omit L in
theorem fieldMask_within {pos len w : Nat} (h : pos + len ≤ w) :
    ∀ j, w ≤ j → (maskBits len <<< pos).getLsbD j = false := by
  intro j hj
  rw [BitVec.getLsbD_shiftLeft, getLsbD_maskBits]
  have : ¬ j - pos < len := by omega
  simp [this]

omit L in
theorem SameLow.and_within {w : Nat} {x x' field : Val} (h : SameLow w x x')
    (hfield : ∀ j, w ≤ j → field.getLsbD j = false) : x &&& field = x' &&& field := by
  refine BitVec.eq_of_getLsbD_eq fun j _ => ?_
  rw [BitVec.getLsbD_and, BitVec.getLsbD_and]
  by_cases hj : j < w
  · rw [h j hj]
  · rw [hfield j (by omega), Bool.and_false, Bool.and_false]

omit L in
theorem sim_field {f g : Option Val → CoreM W α}
    (hnone : Sim (Rel T []) (Rel T []) U (f none) (g none))
    (hsome : inst.fieldFits → ∀ field : Val, (∀ j, inst.ty.bits ≤ j → field.getLsbD j = false) →
      Sim (Rel T []) (Rel T []) U (f (some field)) (g (some field))) :
    Sim (Rel T []) (Rel T []) U
      (check (Checked.fieldMask (bitfieldParts inst.aux).1 (bitfieldParts inst.aux).2
        inst.ty.bits) >>= f)
      (check (Checked.fieldMask (bitfieldParts inst.aux).1 (bitfieldParts inst.aux).2
        inst.ty.bits) >>= g) := by
  obtain ⟨hpos, hlen⟩ := bitfieldParts_lt inst.aux
  rw [Checked.fieldMask_ok hpos hlen inst.ty.bits_le]
  show Sim _ _ _ (f (if _ then _ else _)) (g (if _ then _ else _))
  by_cases hout : inst.fieldFits
  · refine (if_neg hout).symm ▸ hsome hout _ (fieldMask_within ?_)
    unfold Inst.fieldFits at hout
    dsimp only at hout
    omega
  · exact (if_pos (not_not.mp hout)).symm ▸ hnone

theorem sim_deposit
    (h : 2 ≤ inst.srcs.length → inst.fieldFits → ∀ v v', V 0 v v' → SameAt b inst v v') :
    Lockstep W T inst.dst.toList (stepDeposit b inst i)
      (stepDeposit b' (inst.reading srcs') i) := by
  refine sim_field (sim_fail _ _) fun hfit field hwithin => ?_
  refine sim_operand_bind L fun x x' hx => sim_operand_bind L fun y y' hy => ?_
  have hpos : (bitfieldParts inst.aux).1 < 128 := by
    have := inst.ty.bits_le
    unfold Inst.fieldFits at hfit
    omega
  have hmoved : y <<< (bitfieldParts inst.aux).1 &&& field =
      y' <<< (bitfieldParts inst.aux).1 &&& field :=
    SameLow.and_within ((L.low 1 y y' hy).shiftLeft _) hwithin
  refine sim_check_bind (P := fun v v' => v &&& field = v' &&& field)
    (.inr ⟨_, _, Checked.shl_ok hpos, Checked.shl_ok hpos, hmoved⟩) (fun _ => rfl)
    fun v v' hv => sim_write L fun d ty hd hty => ?_
  rw [hv]
  exact .or (.and (h (L.bound 1 y y' hy) hfit x x' hx d ty hd hty) (.refl _)) (.refl _)

theorem sim_extract :
    Lockstep W T inst.dst.toList (stepExtract b inst i)
      (stepExtract b' (inst.reading srcs') i) := by
  refine sim_field (sim_fail _ _) fun _ field hwithin => ?_
  refine sim_operand_bind L fun x x' hx => sim_writeChecked L (.inl ?_)
  rw [(L.low 0 x x' hx).and_within hwithin]
  rfl

theorem sim_arith :
    Lockstep W T inst.dst.toList (stepArith b inst i) (stepArith b' (inst.reading srcs') i) := by
  have hop : (inst.reading srcs').op = inst.op := rfl
  have hle := inst.ty.bits_le
  refine sim_requireInt_bind (sim_operand_bind L fun x x' hx => ?_)
  refine Sim.and_bind (P := SameLow inst.ty.bits) ?_ fun v v' hv => sim_writeMasked L hv
  unfold arithValue
  rw [hop]
  have hlow := L.low 0 x x' hx
  split
  · exact .pure fun _ _ h => ⟨.sub hle (.refl _) hlow, h⟩
  · refine (sim_operand L 1).bind fun y y' => .pure fun c c' h => ⟨?_, h.2⟩
    have hlow' := L.low 1 y y' h.1
    split
    · exact hlow.add hle hlow'
    · split
      · exact hlow.sub hle hlow'
      · exact hlow.mul hle hlow'

theorem sim_logic :
    Lockstep W T inst.dst.toList (stepLogic b inst i) (stepLogic b' (inst.reading srcs') i) := by
  have hop : (inst.reading srcs').op = inst.op := rfl
  refine sim_operand_bind L fun x x' hx => ?_
  refine Sim.and_bind (P := SameLow inst.ty.bits) ?_ fun v v' hv => sim_writeMasked L hv
  unfold logicValue
  rw [hop]
  have hlow := L.low 0 x x' hx
  split
  · exact .pure fun _ _ h => ⟨hlow.not, h⟩
  · refine (sim_operand L 1).bind fun y y' => .pure fun c c' h => ⟨?_, h.2⟩
    have hlow' := L.low 1 y y' h.1
    split
    · exact hlow.and hlow'
    · split
      · exact hlow.or hlow'
      · split
        · exact hlow.xor hlow'
        · exact hlow.and hlow'.not

/-! ### Shifts and comparisons -/

omit L in
theorem sameLow_shifted {op : Opcode} {w : Nat} {x x' : Val} (amount : Val) (hw : 0 < w)
    (hw' : w ≤ 128) (h : SameLow w x x') (hop : x = x' ∨ op ≠ .shr ∨ w = 1) :
    SameLow w (shifted op w x amount) (shifted op w x' amount) := by
  unfold shifted
  rw [h.sext hw hw']
  split
  · exact .refl _
  · split
    · exact h.shiftLeft _
    · split
      · rename_i hshr
        rcases hop with rfl | hne | rfl
        · exact .refl _
        · exact absurd hshr hne
        · have hzero : amount.toNat = 0 := by omega
          rw [hzero]
          simpa using h
      · exact .refl _

theorem sim_shift (hop : inst.op = .shl ∨ inst.op = .shr ∨ inst.op = .sar)
    (h : inst.op = .shr → 2 ≤ inst.srcs.length → inst.ty = .i1 ∨ inst.dst = none ∨ SameWords V 0) :
    Lockstep W T inst.dst.toList (stepShift b inst i) (stepShift b' (inst.reading srcs') i) := by
  refine sim_requireInt_bind (sim_operand_bind L fun x x' hx => sim_operand_bind L
    fun y y' hy => ?_)
  -- the amount is a count
  have hcount : inst.op.isValue 1 = false := by
    rcases hop with hop | hop | hop
    all_goals rw [hop]; rfl
  obtain rfl := L.count 1 y y' hcount hy
  have hpos := inst.ty.bits_pos
  have hle := inst.ty.bits_le
  refine sim_writeChecked L (.inr ⟨_, _, Checked.shift_ok _ _ hpos hle,
    Checked.shift_ok _ _ hpos hle, ?_⟩)
  have hsame := fun hshr => @sameLow_shifted inst.op _ _ _ y hpos hle (L.low 0 x x' hx) hshr
  by_cases hshr : inst.op = .shr
  · rcases h hshr (L.bound 1 y y hy) with hty | hd | hex
    · exact .of_mask (hsame (.inr (.inr (by rw [hty]; rfl))))
    · exact .of_none hd _ _
    · exact .of_mask (hsame (.inl (hex x x' hx)))
  · exact .of_mask (hsame (.inr (.inl hshr)))

theorem sim_rotateCarry (hop : inst.op = .rotlc ∨ inst.op = .rotrc)
    (h : inst.op = .rotrc → 2 ≤ inst.srcs.length → inst.dst = none ∨ SameWords V 0) :
    Lockstep W T inst.dsts (stepRotateCarry b inst i)
      (stepRotateCarry b' (inst.reading srcs') i) := by
  have hop' : (inst.reading srcs').op = inst.op := rfl
  have hty : (inst.reading srcs').ty = inst.ty := rfl
  refine sim_requireInt_bind (sim_operand_bind L fun x x' hx => sim_operand_bind L
    fun y y' hy => ?_)
  have hcount : inst.op.isValue 1 = false := by
    rcases hop with hop | hop
    all_goals rw [hop]; rfl
  obtain rfl := L.count 1 y y' hcount hy
  have hlow := L.low 0 x x' hx
  have hpos := inst.ty.bits_pos
  have hok := fun x => Checked.rotateCarry_ok (x := x) inst.op (y &&& 1#128) hpos inst.ty.bits_le
  refine sim_check_bind (P := fun p p' => SameAt b inst p.1 p'.1 ∧ (inst.dst ≠ none → p.2 = p'.2))
    ?_ (fun _ => ⟨.of_eq _, fun _ => rfl⟩) fun p p' hp => sim_write2 L hp.1 hp.2
  rcases hop with hl | hr
  · refine .inr ⟨_, _, hok x, hok x', ?_⟩
    simp only [hl, if_true]
    refine ⟨.of_mask ((hlow.shiftLeft 1).or (.refl _)), fun _ => ?_⟩
    -- the bit that falls off is the type's last
    have hone : maskBits 1 = 1#128 := rfl
    rw [← hone, ← sameLow_iff_mask]
    intro j hj
    rw [BitVec.getLsbD_ushiftRight, BitVec.getLsbD_ushiftRight]
    exact hlow _ (by omega)
  · rcases h hr (L.bound 1 y y hy) with hd | hex
    · exact .of_ok ⟨_, hok x⟩ ⟨_, hok x'⟩ fun _ _ => ⟨.of_none hd _ _, fun h => absurd hd h⟩
    · rw [hex x x' hx]
      exact .inl rfl

omit L in
theorem compare_low {cond : Cond} {w : Nat} {x x' y y' : Val} (hw : 0 < w) (hw' : w ≤ 128)
    (hx : SameLow w x x') (hy : SameLow w y y') (h : cond.isSigned = true) :
    Checked.compare cond w x y = Checked.compare cond w x' y' := by
  have hsx := hx.sext hw hw'
  have hsy := hy.sext hw hw'
  cases cond with
  | ltS | leS | gtS | geS => simp only [Checked.compare, Checked.sext_ok hw, hsx, hsy]
  | eq | ne | ltU | leU | gtU | geU => cases h

theorem Linked.compare_eq {cond : Cond}
    (h : cond.isSigned = true ∨ SameWords V 0 ∧ SameWords V 1) {x x' y y' : Val} (hx : V 0 x x')
    (hy : V 1 y y') :
    Checked.compare cond inst.ty.bits x y = Checked.compare cond inst.ty.bits x' y' := by
  rcases h with hs | hex
  · exact compare_low inst.ty.bits_pos inst.ty.bits_le (L.low 0 x x' hx) (L.low 1 y y' hy) hs
  · rw [hex.1 x x' hx, hex.2 y y' hy]

theorem sim_setcond (hop : inst.op = .setcond)
    (h : Steady b inst V) :
    Lockstep W T inst.dst.toList (stepSetcond b inst i)
      (stepSetcond b' (inst.reading srcs') i) := by
  have hcond : (inst.reading srcs').cond = inst.cond := rfl
  unfold stepSetcond
  rw [hcond]
  cases hc : inst.cond with
  | none => exact sim_fail _ _
  | some cond =>
    refine sim_operand_bind L fun x x' hx => sim_operand_bind L fun y y' hy => ?_
    refine sim_check_bind (P := fun p p' => SameAt b inst (ofBool p) (ofBool p')) ?_
      (fun _ => .of_eq _) fun p p' hp => sim_write L hp
    have hform : inst.form = .compare cond := by
      simp only [Inst.form, hop, hc]
      exact if_pos (L.bound 1 y y' hy)
    unfold Steady at h
    rw [hform] at h
    rcases h.1 with hs | hd | hex
    · exact .inl (L.compare_eq (.inl hs) hx hy)
    · exact .of_ok (Checked.ok_compare _ inst.ty.bits_pos) (Checked.ok_compare _ inst.ty.bits_pos)
        fun _ _ => .of_none hd.2 _ _
    · exact .inl (L.compare_eq (.inr hex) hx hy)

theorem sim_decideOn (cond : Option Cond)
    (h : ∀ c, cond = some c → c.isSigned = true ∨ SameWords V 0 ∧ SameWords V 1) :
    Along W T Eq (decideOn inst i cond) (decideOn (inst.reading srcs') i cond) := by
  cases cond with
  | none =>
    refine sim_operand_bind L fun x x' hx => .pure fun _ _ hr => ⟨?_, hr⟩
    exact L.low 0 x x' hx 0 inst.ty.bits_pos
  | some cond =>
    refine sim_operand_bind L fun x x' hx => sim_operand_bind L fun y y' hy => ?_
    have hty : (inst.reading srcs').ty = inst.ty := rfl
    rw [hty, ← L.compare_eq (h cond rfl) hx hy]
    cases Checked.compare cond inst.ty.bits x y with
    | error e => exact .throw fun _ _ hr => hr
    | ok p => exact .pure fun _ _ hr => ⟨rfl, hr⟩

omit L in
theorem Steady.decides (h : Steady b inst V) {c : Cond} (hform : inst.form = .compare c)
    (hop : inst.op ≠ .setcond) : c.isSigned = true ∨ SameWords V 0 ∧ SameWords V 1 := by
  unfold Steady at h
  rw [hform] at h
  exact h.1.imp_right fun h => h.resolve_left fun hs => hop hs.1

theorem sim_branchTaken (hop : inst.op = .brcond)
    (h : Steady b inst V) :
    Along W T Eq (branchTaken inst i) (branchTaken (inst.reading srcs') i) := by
  have hlen : (inst.reading srcs').srcs.length = inst.srcs.length := L.length
  have hcond : (inst.reading srcs').cond = inst.cond := rfl
  unfold branchTaken
  rw [hlen, hcond]
  split
  · rename_i htwo
    refine sim_decideOn L _ fun c hc => h.decides ?_ (by simp [hop])
    simp only [Inst.form, hop, hc, htwo.2, if_true]
  · split
    · exact sim_decideOn L none fun c hc => by cases hc
    · exact .throw fun _ _ hr => hr

theorem sim_brcond (hop : inst.op = .brcond)
    (h : Steady b inst V) :
    Lockstep W T [] (stepBrcond inst i) (stepBrcond (inst.reading srcs') i) := by
  refine (sim_branchTaken L hop h).and_bind fun p p' hp => ?_
  subst hp
  cases p with
  | true => exact .pure fun c c' hr => ⟨rfl, hr, fun _ => hr⟩
  | false => exact .pure fun c c' hr => ⟨rfl, hr, fun _ => hr⟩

theorem sim_selected (hop : inst.op = .movcond)
    (h : Steady b inst V) :
    Along W T (fun t t' => ∃ k : Nat, (inst.srcs[k]? = some t ∧ srcs'[k]? = some t') ∧
        ∀ v v', V k v v' → SameAt b inst v v')
      (selected inst i) (selected (inst.reading srcs') i) := by
  have hlen : (inst.reading srcs').srcs.length = inst.srcs.length := L.length
  have hcond : (inst.reading srcs').cond = inst.cond := rfl
  -- decide, read both candidates, and pick
  have hpick : ∀ (cond : Option Cond) (k m : Nat),
      (∀ c, cond = some c → c.isSigned = true ∨ SameWords V 0 ∧ SameWords V 1) →
      (∀ v v', V k v v' → SameAt b inst v v') → (∀ v v', V m v v' → SameAt b inst v v') →
      Along W T (fun t t' => ∃ k : Nat, (inst.srcs[k]? = some t ∧ srcs'[k]? = some t') ∧
          ∀ v v', V k v v' → SameAt b inst v v')
        (do
          let taken ← decideOn inst i cond
          let t ← src inst i k
          let f ← src inst i m
          pure (if taken then t else f))
        (do
          let taken ← decideOn (inst.reading srcs') i cond
          let t ← src (inst.reading srcs') i k
          let f ← src (inst.reading srcs') i m
          pure (if taken then t else f)) := by
    intro cond k m hc hk hm
    refine (sim_decideOn L cond hc).and_bind fun p p' hp => ?_
    subst hp
    refine (sim_src L k).and_bind fun t t' ht => (sim_src L m).and_bind fun f f' hf =>
      .pure fun _ _ hr => ?_
    cases p with
    | true => exact ⟨⟨k, ht, hk⟩, hr⟩
    | false => exact ⟨⟨m, hf, hm⟩, hr⟩
  unfold selected
  rw [hlen, hcond]
  split
  · rename_i hfour
    obtain ⟨c, hc⟩ := Option.isSome_iff_exists.mp hfour.1
    have hform : inst.form = .compare c := by simp only [Inst.form, hop, hc, hfour.2, if_true]
    have hdec := h.decides hform (by simp [hop])
    unfold Steady at h
    rw [hform] at h
    refine hpick _ 2 3 (fun d hd => ?_) (h.2 hop 2 (by decide)) (h.2 hop 3 (by decide))
    cases hc.symm.trans hd
    exact hdec
  · split
    · rename_i hthree
      have hform : inst.form = .plain := by
        cases hc : inst.cond with
        | none => simp only [Inst.form, hop, hc, hthree, if_true]
        | some c => simp [Inst.form, hop, hc, hthree]
      have hplain := h.plain hform
      simp only [SteadyPlain, hop] at hplain
      exact hpick none 1 2 (fun c hc => by cases hc) (hplain 1 (by decide)) (hplain 2 (by decide))
    · exact .throw fun _ _ hr => hr

theorem sim_movcond (hop : inst.op = .movcond)
    (h : Steady b inst V) :
    Lockstep W T inst.dst.toList (stepMovcond b inst i)
      (stepMovcond b' (inst.reading srcs') i) := by
  refine (sim_selected L hop h).and_bind fun t t' ⟨k, ht, hk⟩ => ?_
  exact (sim_getTemp L ht.1 ht.2).and_bind fun v v' hV => sim_write L (hk v v' hV)

/-! ### Operations that need the words themselves -/

theorem sim_bswap (h : ∀ k, SameWords V k) :
    Lockstep W T inst.dst.toList (stepBswap b inst i) (stepBswap b' (inst.reading srcs') i) := by
  refine Sim.and_bind (F := Rel T []) (P := Eq) ?_ fun lane lane' hlane => ?_
  · unfold laneWidth Inst.reading
    dsimp only
    split
    · split
      · exact .pure fun _ _ hr => ⟨rfl, hr⟩
      · exact .throw fun _ _ hr => hr
    · exact .pure fun _ _ hr => ⟨rfl, hr⟩
  · subst hlane
    have hty : (inst.reading srcs').ty = inst.ty := rfl
    rw [hty]
    split
    · exact sim_fail _ _
    · refine sim_operand_bind L fun x x' hx => sim_writeChecked L ?_
      rw [h 0 x x' hx]
      exact .inl rfl

theorem sim_div
    (h : ∀ x x' y y', V 0 x x' → V 1 y y' → y = y' ∧ (y ≠ 0#128 →
      Both (SameAt b inst) (Checked.divide inst.op inst.ty.bits x y)
        (Checked.divide inst.op inst.ty.bits x' y))) :
    Lockstep W T inst.dst.toList (stepDiv b inst i) (stepDiv b' (inst.reading srcs') i) := by
  refine sim_requireInt_bind (sim_operand_bind L fun x x' hx => sim_operand_bind L
    fun y y' hy => ?_)
  obtain ⟨rfl, hdiv⟩ := h x x' y y' hx hy
  split
  · exact sim_fail _ _
  · rename_i hzero
    exact sim_writeChecked L (hdiv hzero)

theorem sim_addc (h : 3 ≤ inst.srcs.length → inst.dst = none ∨ SameWords V 0 ∧ SameWords V 1)
    (hop : inst.op.isValue 2 = false) :
    Lockstep W T inst.dsts (stepAddc b inst i) (stepAddc b' (inst.reading srcs') i) := by
  refine sim_requireInt_bind (sim_operand_bind L fun x x' hx => sim_operand_bind L
    fun y y' hy => sim_operand_bind L fun z z' hz => ?_)
  obtain rfl := L.count 2 z z' hop hz
  refine sim_check_bind (P := fun p p' => SameAt b inst p.1 p'.1 ∧ (inst.dst ≠ none → p.2 = p'.2))
    ?_ (fun _ => ⟨.of_eq _, fun _ => rfl⟩) fun p p' hp => sim_write2 L hp.1 fun hd => by
      rw [hp.2 hd]
  rcases h (L.bound 2 z z hz) with hd | hex
  · exact .of_ok (Checked.ok_addc _ _) (Checked.ok_addc _ _)
      fun _ _ => ⟨.of_none hd _ _, fun h => absurd hd h⟩
  · rw [hex.1 x x' hx, hex.2 y y' hy]
    exact .inl rfl

omit L in
theorem mul2_low {w : Nat} {x x' y : Val} (hw : 0 < w) (hw' : w ≤ 128) (h : SameLow w x x') :
    Checked.mul2 .mulhsu w x y = Checked.mul2 .mulhsu w x' y := by
  simp only [Checked.mul2, Checked.sextIf, Checked.sext_ok hw, h.sext hw hw', ne_eq, reduceCtorEq,
    not_false_eq_true, if_true]

theorem sim_mul2
    (h : (∀ k, SameWords V k) ∨ inst.op = .mulhsu ∧
      (2 ≤ inst.srcs.length → inst.dst = none ∨ SameWords V 1)) :
    Lockstep W T (if inst.op = .mulhsu then inst.dst.toList else inst.dsts)
      (stepMul2 b inst i) (stepMul2 b' (inst.reading srcs') i) := by
  have hop : (inst.reading srcs').op = inst.op := rfl
  have hty : (inst.reading srcs').ty = inst.ty := rfl
  refine sim_requireInt_bind ?_
  rw [hop, hty]
  by_cases hwide : 64 < inst.ty.bits
  · rw [if_pos hwide, if_pos hwide]
    exact sim_done _ _
  · rw [if_neg hwide, if_neg hwide]
    have hpos := inst.ty.bits_pos
    refine sim_operand_bind L fun x x' hx => sim_operand_bind L fun y y' hy => ?_
    by_cases hm : inst.op = .mulhsu
    · rw [if_pos hm]
      refine sim_check_bind (P := fun p p' => SameAt b inst p.2 p'.2) ?_ (fun _ => .of_eq _)
        fun p p' hp => ?_
      · have hsame : SameWords V 1 → Checked.mul2 inst.op inst.ty.bits x y =
            Checked.mul2 inst.op inst.ty.bits x' y' := by
          intro hex
          rw [hm, hex y y' hy, mul2_low hpos (by omega) (L.low 0 x x' hx)]
        rcases h with hex | h
        · exact .inl (hsame (hex 1))
        · rcases h.2 (L.bound 1 y y' hy) with hd | hex
          · have hok := fun x y => Checked.ok_mul2 (x := x) (y := y) inst.op hpos (by omega)
            exact .of_ok (hok x y) (hok x' y') fun _ _ => .of_none hd _ _
          · exact .inl (hsame hex)
      · rw [if_pos hm, if_pos hm]
        exact sim_write L hp
    · obtain hex := h.resolve_right fun h => hm h.1
      rw [if_neg hm, hex 0 x x' hx, hex 1 y y' hy]
      refine sim_check_bind (P := fun p p' => p = p') (.inl rfl) (fun _ => rfl) fun p p' hp => ?_
      rw [if_neg hm, if_neg hm, hp]
      exact sim_write2 L (.of_eq _) fun _ => rfl

theorem sim_rotate (h : ∀ k, SameWords V k) :
    Lockstep W T inst.dst.toList (stepRotate b inst i) (stepRotate b' (inst.reading srcs') i) := by
  refine sim_requireInt_bind (sim_operand_bind L fun x x' hx => sim_operand_bind L
    fun y y' hy => ?_)
  rw [h 0 x x' hx, h 1 y y' hy]
  exact sim_writeChecked L (.inl rfl)

theorem sim_count (h : ∀ k, SameWords V k) :
    Lockstep W T inst.dst.toList (stepCount b inst i) (stepCount b' (inst.reading srcs') i) := by
  refine sim_requireInt_bind (sim_operand_bind L fun x x' hx => ?_)
  rw [h 0 x x' hx]
  exact sim_writeChecked L (.inl rfl)

end

/-! ### Operations on the world -/

theorem sim_modify_bind {ws : List Temp} {f g : PUnit → CoreM W α} (m : Core W → Core W)
    (hkeep : ∀ c, (m c).temps = c.temps)
    (hcomm : ∀ c l, m { c with temps := l } = { m c with temps := l })
    (hf : Sim (Rel T []) (Rel T ws) U (f ⟨⟩) (g ⟨⟩)) :
    Sim (Rel T []) (Rel T ws) U ((modify m : CoreM W PUnit) >>= f) (modify m >>= g) := by
  exact Sim.bind (Q := fun _ _ c c' => Rel T ws c c')
    (fun c c' hr => .ok (hr.update m hkeep hcomm)) fun _ _ => hf

theorem sim_commit_bind {ws : List Temp} {f g : Unit → CoreM W α}
    (hf : Sim (Rel T []) (Rel T ws) U (f ()) (g ())) :
    Sim (Rel T []) (Rel T ws) U ((commit : CoreM W Unit) >>= f) (commit >>= g) :=
  sim_modify_bind _ (fun _ => rfl) (fun _ _ => rfl) hf

theorem sim_ask_bind {β : Type} {ws : List Temp} {f g : β → CoreM W α} (q : W → β × W)
    (hf : ∀ r, Sim (Rel T []) (Rel T ws) U (f r) (g r)) :
    Sim (Rel T []) (Rel T ws) U ((ask q : CoreM W β) >>= f) (ask q >>= g) := by
  refine Sim.and_bind (F := Rel T ws) (P := Eq) (fun c c' hr => ?_) fun r r' hr => ?_
  · have hworld : c'.world = c.world := by rw [hr.2]
    have hask : ∀ c : Core W, exec (ask q : CoreM W β) c =
        (.ok (q c.world).1, { c with world := (q c.world).2 }) := fun _ => rfl
    rw [hask, hask, hworld]
    refine .ok ⟨rfl, hr.1, ?_⟩
    conv => lhs; rw [hr.2]
  · subst hr
    exact hf r

theorem sim_fault (e : BusError) (ws : List Temp) : Lockstep W T ws (fault i e) (fault i e) := by
  intro c c' hr
  unfold fault
  rw [exec_bind_ok (exec_getThe c), exec_bind_ok (exec_getThe c')]
  have hsame : c'.committed = c.committed ∧ c'.mark = c.mark ∧ c'.boundaryPc = c.boundaryPc ∧
      c'.retired = c.retired ∧ c'.ticks = c.ticks := by rw [hr.2]; exact ⟨rfl, rfl, rfl, rfl, rfl⟩
  obtain ⟨h1, h2, h3, h4, h5⟩ := hsame
  rw [h1, h2, h3, h4, h5]
  split
  · exact .error hr
  · exact .ok ⟨rfl, hr, fun hne => absurd rfl (hne _)⟩

variable {host : IrHost W}

theorem sim_ld (L : Linked b b' inst srcs' T V) (h : ∀ k, SameWords V k) :
    Lockstep W T inst.dst.toList (stepLd host b inst i)
      (stepLd host b' (inst.reading srcs') i) := by
  have hmem : (inst.reading srcs').mem = inst.mem := rfl
  unfold stepLd
  rw [hmem]
  cases inst.mem with
  | none => exact sim_fail _ _
  | some mem =>
    refine sim_operand_bind L fun x x' hx => ?_
    obtain rfl := h 0 x x' hx
    refine Sim.bind (Q := fun _ _ c c' => Rel T [] c c') ?_ fun _ _ => sim_ask_bind _ fun r => ?_
    · unfold commitIf
      split
      · exact fun c c' hr => .ok ⟨hr.1, by rw [hr.2]⟩
      · exact .pure fun _ _ hr => hr
    · cases r with
      | error e => exact sim_fault e _
      | ok raw =>
        exact sim_check_bind (P := Eq) (.inl rfl) (fun _ => rfl) fun m m' hm =>
          sim_writeChecked L (.inl (by rw [hm]))

theorem sim_st (L : Linked b b' inst srcs' T V) (h : ∀ k, SameWords V k) :
    Lockstep W T [] (stepSt host inst i) (stepSt host (inst.reading srcs') i) := by
  have hmem : (inst.reading srcs').mem = inst.mem := rfl
  unfold stepSt
  rw [hmem]
  cases inst.mem with
  | none => exact sim_fail _ _
  | some mem =>
    refine sim_operand_bind L fun x x' hx => sim_operand_bind L fun y y' hy => ?_
    obtain rfl := h 0 x x' hx
    obtain rfl := h 1 y y' hy
    refine sim_commit_bind (sim_ask_bind _ fun r => ?_)
    cases r with
    | error e => exact sim_fault e _
    | ok u => exact sim_next L fun _ ht => ht

theorem sim_atomicArgs (L : Linked b b' inst srcs' T V) (h : ∀ k, SameWords V k) :
    Along W T Eq (atomicArgs inst i) (atomicArgs (inst.reading srcs') i) := by
  have hop : (inst.reading srcs').op = inst.op := rfl
  unfold atomicArgs
  rw [hop]
  split
  · exact .pure fun _ _ hr => ⟨rfl, hr⟩
  · split
    · refine sim_operand_bind L fun x x' hx => sim_operand_bind L fun y y' hy =>
        .pure fun _ _ hr => ⟨?_, hr⟩
      rw [h 2 x x' hx, h 1 y y' hy]
    · refine sim_operand_bind L fun x x' hx => .pure fun _ _ hr => ⟨?_, hr⟩
      rw [h 1 x x' hx]

theorem sim_atomic (L : Linked b b' inst srcs' T V) (h : ∀ k, SameWords V k) :
    Lockstep W T (if inst.op = .cmpxchg then inst.dsts else inst.dst.toList)
      (stepAtomic host b inst i) (stepAtomic host b' (inst.reading srcs') i) := by
  refine Sim.and_bind (F := Rel T []) (P := Eq) ?_ fun w w' hw => ?_
  · unfold atomicWidth Inst.reading
    dsimp only
    split
    · exact .pure fun _ _ hr => ⟨rfl, hr⟩
    · exact .pure fun _ _ hr => ⟨rfl, hr⟩
    · exact .throw fun _ _ hr => hr
  · subst hw
    refine sim_operand_bind L fun x x' hx => ?_
    obtain rfl := h 0 x x' hx
    refine (sim_atomicArgs L h).and_bind fun p p' hp => ?_
    subst hp
    refine sim_commit_bind (sim_ask_bind _ fun r => ?_)
    cases r with
    | error e => exact sim_fault e _
    | ok previous =>
      refine (sim_writeSome L (fun d hd => by simp [Inst.dsts, hd]) _).bind fun _ _ => ?_
      refine (sim_writeSome L (fun d hd => ?_) _).bind fun _ _ => sim_next L fun t ht => ?_
      · split at hd
        · simp [Inst.dsts, hd]
        · cases hd
      · split at ht
        · rename_i hcx
          simp only [hcx, if_true]
          rcases List.mem_append.mp ht with ht | ht
          · simp [ht]
          · simp [ht]
        · simp [ht]

theorem sim_fence (L : Linked b b' inst srcs' T V) :
    Lockstep W T [] (stepFence host) (stepFence host) :=
  sim_commit_bind (sim_ask_bind _ fun _ => sim_next L fun _ ht => ht)

theorem sim_gotoTb : Lockstep W T [] (stepGotoTb inst i) (stepGotoTb (inst.reading srcs') i) := by
  have himm : (inst.reading srcs').imm = inst.imm := rfl
  unfold stepGotoTb
  rw [himm]
  split
  · exact sim_fail _ _
  · exact sim_done _ _

theorem sim_lookup (L : Linked b b' inst srcs' T V) (h : ∀ k, SameWords V k) :
    Lockstep W T [] (stepLookup inst i) (stepLookup (inst.reading srcs') i) := by
  refine sim_operand_bind L fun x x' hx => ?_
  obtain rfl := h 0 x x' hx
  exact sim_done _ _

theorem sim_charge (L : Linked b b' inst srcs' T V) :
    Lockstep W T [] (stepCharge host inst i) (stepCharge host (inst.reading srcs') i) := by
  have himm : (inst.reading srcs').imm = inst.imm := rfl
  unfold stepCharge
  rw [himm]
  split
  · exact sim_fail _ _
  · exact sim_modify_bind _ (fun _ => rfl) (fun _ _ => rfl)
      (sim_ask_bind _ fun _ => sim_next L fun _ ht => ht)

theorem Steady.arity (h : Steady b inst V)
    (hop : inst.op ∉ [Opcode.setcond, .movcond, .brcond, .deposit])
    (hn : inst.op.arity ≤ inst.srcs.length) : SteadyPlain b inst V := by
  refine h.plain ?_
  unfold Inst.form
  split
  all_goals first
    | exact if_pos hn
    | exact absurd (by simp [*]) hop

theorem coreStep_sim (host : IrHost W) (i : Nat) (L : Linked b b' inst srcs' T V)
    (h : Steady b inst V) :
    Lockstep W T inst.writes (coreStep host b inst i)
      (coreStep host b' (inst.reading srcs') i) := by
  by_cases hset : inst.op = .setcond
  · simp only [coreStep, Inst.reading_op, hset, Inst.writes]
    exact sim_setcond L hset h
  by_cases hmovc : inst.op = .movcond
  · simp only [coreStep, Inst.reading_op, hmovc, Inst.writes]
    exact sim_movcond L hmovc h
  by_cases hbr : inst.op = .brcond
  · simp only [coreStep, Inst.reading_op, hbr, Inst.writes]
    exact sim_brcond L hbr h
  by_cases hdep : inst.op = .deposit
  · simp only [coreStep, Inst.reading_op, hdep, Inst.writes]
    refine sim_deposit L fun hn hfit => ?_
    have hplain := h.plain (by simp only [Inst.form, hdep, hn, hfit, and_self, if_true])
    simpa only [SteadyPlain, hdep] using hplain
  have hplain := h.arity (by simp [hset, hmovc, hbr, hdep])
  have hshift : ∀ {op : Opcode}, inst.op = op → op ≠ .shr → inst.op = .shr →
      2 ≤ inst.srcs.length → inst.ty = .i1 ∨ inst.dst = none ∨ SameWords V 0 :=
    fun hop hne hshr => absurd (hop.symm.trans hshr) hne
  have hfirst : (1 ≤ inst.srcs.length → ∀ v v', V 0 v v' → SameAt b inst v v') →
      ∀ v v', V 0 v v' → SameAt b inst v v' := fun h v v' hV => h (L.bound 0 v v' hV) v v' hV
  have hdiv : ∀ {P : Val → Val → Val → Val → Prop},
      (2 ≤ inst.srcs.length → ∀ x x' y y', V 0 x x' → V 1 y y' → P x x' y y') →
      ∀ x x' y y', V 0 x x' → V 1 y y' → P x x' y y' :=
    fun h x x' y y' hx hy => h (L.bound 1 y y' hy) x x' y y' hx hy
  have hatomic := @sim_atomic W b b' inst srcs' T V i host L
  have hmul2 := @sim_mul2 W b b' inst srcs' T V i L
  have hcarry := @sim_addc W b b' inst srcs' T V i L
  have hd := @sim_div W b b' inst srcs' T V i L
  -- One operation after the other.
  cases hop : inst.op
  all_goals
    simp only [SteadyPlain, hop, Opcode.arity, Nat.zero_le, forall_const] at hplain
    simp only [hop, reduceCtorEq, if_true, if_false, false_and, or_false, true_and]
      at hatomic hmul2 hcarry hd
    simp only [coreStep, Inst.reading_op, hop, Inst.writes]
    first
    | with_reducible exact sim_arith L
    | with_reducible exact sim_logic L
    | with_reducible exact sim_extract L
    | with_reducible exact sim_fence L
    | with_reducible exact sim_charge L
    | with_reducible exact sim_gotoTb
    | with_reducible exact sim_done _ _
    | with_reducible exact sim_mov L (hfirst hplain)
    | with_reducible exact sim_extS L (hfirst hplain)
    | with_reducible exact sim_extZ L (hfirst hplain)
    | with_reducible exact sim_shift L (.inl hop) (hshift hop (by decide))
    | with_reducible exact sim_shift L (.inr (.inr hop)) (hshift hop (by decide))
    | with_reducible exact sim_shift L (.inr (.inl hop)) fun _ => hplain
    | with_reducible exact sim_rotateCarry L (.inl hop) fun hr => by rw [hop] at hr; cases hr
    | with_reducible exact sim_rotateCarry L (.inr hop) fun _ => hplain
    | with_reducible exact sim_bswap L hplain
    | with_reducible exact hd (hdiv hplain)
    | with_reducible exact hcarry hplain rfl
    | with_reducible exact hmul2 hplain
    | with_reducible exact hmul2 (.inr hplain)
    | with_reducible exact sim_rotate L hplain
    | with_reducible exact sim_count L hplain
    | with_reducible exact sim_ld L hplain
    | with_reducible exact sim_st L hplain
    | with_reducible exact hatomic hplain
    | with_reducible exact sim_lookup L hplain
    | exact absurd hop hset
    | exact absurd hop hmovc
    | exact absurd hop hbr
    | exact absurd hop hdep

end Step

end Rsemu.Ir.Interp
