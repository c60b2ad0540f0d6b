import Rsemu.Base.Fallible
import Rsemu.Ir.Words
import Mathlib.Data.List.Forall2

/-!
# Lazy publication

The interpreter remembers a boundary's mapping and writes it out late. `eagerStep` is the
interpreter that writes it out at once, at every boundary. The two are compared along
whole runs: the eager run is always where the lazy one would be if it published now, as
long as a boundary never drops a slot that an earlier one on the way named.
-/

namespace Rsemu.Ir.Interp

open Fallible (exec exec_bind_ok exec_bind_error)

variable {W : Type} {α β : Type}

/-! ## What an operation leaves alone -/

theorem runCore_eq (m : CoreM W α) (s : Exec W) :
    runCore m s = ((exec m s.core).1, { s with core := (exec m s.core).2 }) := rfl

/-- A computation that keeps the pending boundary, and every temporary but `dsts`. It panics
only if `Q`. -/
structure Touches (Q : Prop) (dsts : List Temp) (m : CoreM W α) : Prop where
  mark : ∀ c, (exec m c).2.mark = c.mark
  length : ∀ c, (exec m c).2.temps.length = c.temps.length
  temps : ∀ c t, t ∉ dsts → (exec m c).2.temps[t]? = c.temps[t]?
  calm : ∀ c e, (exec m c).1 = .error e → e.IsPanic → Q

/-- One that decides on a step, and does not decide to jump. -/
structure Stays (Q : Prop) (dsts : List Temp) (m : CoreM W Step) : Prop
    extends Touches Q dsts m where
  noJump : ∀ c t, (exec m c).1 ≠ .ok (.jump t)

section Frame

variable {Q : Prop} {dsts : List Temp}

theorem Touches.of_ok {m : CoreM W α} (h : ∀ c, ∃ a c', exec m c = (.ok a, c') ∧
    c'.mark = c.mark ∧ c'.temps = c.temps) : Touches Q dsts m := by
  have hrun : ∀ c, (∃ a, (exec m c).1 = .ok a) ∧ (exec m c).2.mark = c.mark ∧
      (exec m c).2.temps = c.temps := by
    intro c
    obtain ⟨a, c', hrun, hmark, htemps⟩ := h c
    rw [hrun]
    exact ⟨⟨a, rfl⟩, hmark, htemps⟩
  refine ⟨fun c => (hrun c).2.1, fun c => by rw [(hrun c).2.2],
    fun c t _ => by rw [(hrun c).2.2], fun c e he => ?_⟩
  obtain ⟨a, ha⟩ := (hrun c).1
  rw [ha] at he
  cases he

theorem Touches.pure (a : α) : Touches Q dsts (Pure.pure a : CoreM W α) :=
  .of_ok fun c => ⟨a, c, rfl, rfl, rfl⟩

theorem Touches.throw {e : Error} (he : e.IsPanic → Q) :
    Touches Q dsts (MonadExcept.throw e : CoreM W α) :=
  ⟨fun _ => rfl, fun _ => rfl, fun _ _ _ => rfl, fun _ _ h => by cases h; exact he⟩

theorem Touches.fail (i : Nat) (op : Opcode) (what : String) :
    Touches Q dsts (Interp.fail i op what : CoreM W α) := .throw False.elim

theorem Touches.check {r : Except Error α} (h : Checked.Ok r) :
    Touches Q dsts (Interp.check r : CoreM W α) := by
  obtain ⟨v, rfl⟩ := h
  exact .pure v

theorem Touches.bind {m : CoreM W α} {f : α → CoreM W β} (hm : Touches Q dsts m)
    (hf : ∀ a, Touches Q dsts (f a)) : Touches Q dsts (m >>= f) := by
  refine ⟨fun c => ?_, fun c => ?_, fun c t ht => ?_, fun c e he => ?_⟩
  · rcases h : exec m c with ⟨r | a, c'⟩
    · rw [exec_bind_error h, ← hm.mark c, h]
    · rw [exec_bind_ok h, (hf a).mark c', ← hm.mark c, h]
  · rcases h : exec m c with ⟨r | a, c'⟩
    · rw [exec_bind_error h, ← hm.length c, h]
    · rw [exec_bind_ok h, (hf a).length c', ← hm.length c, h]
  · rcases h : exec m c with ⟨r | a, c'⟩
    · rw [exec_bind_error h, ← hm.temps c t ht, h]
    · rw [exec_bind_ok h, (hf a).temps c' t ht, ← hm.temps c t ht, h]
  · rcases h : exec m c with ⟨r | a, c'⟩
    · rw [exec_bind_error h] at he
      cases he
      exact hm.calm c e (by rw [h])
    · rw [exec_bind_ok h] at he
      exact (hf a).calm c' e he

theorem Stays.bind {m : CoreM W α} {f : α → CoreM W Step} (hm : Touches Q dsts m)
    (hf : ∀ a, Stays Q dsts (f a)) : Stays Q dsts (m >>= f) := by
  refine ⟨hm.bind fun a => (hf a).toTouches, fun c t => ?_⟩
  rcases h : exec m c with ⟨r | a, c'⟩
  · rw [exec_bind_error h]
    exact fun he => by cases he
  · rw [exec_bind_ok h]
    exact (hf a).noJump c' t

theorem Stays.next : Stays Q dsts (Pure.pure .next : CoreM W Step) :=
  ⟨.pure _, fun _ _ he => by cases he⟩

theorem Stays.done (o : Outcome) : Stays Q dsts (Pure.pure (.done o) : CoreM W Step) :=
  ⟨.pure _, fun _ _ he => by cases he⟩

theorem Stays.fail (i : Nat) (op : Opcode) (what : String) :
    Stays Q dsts (Interp.fail i op what : CoreM W Step) :=
  ⟨.fail i op what, fun _ _ he => by cases he⟩

/-! ### The primitives -/

variable (b : Block) (inst : Inst) (i : Nat)

theorem touches_src (k : Nat) : Touches Q dsts (src inst i k : CoreM W Temp) := by
  unfold src
  split
  · exact .pure _
  · exact .fail _ _ _

theorem touches_getTemp (t : Temp) (op : Opcode) : Touches Q dsts (getTemp t i op : CoreM W Val) := by
  refine .bind (.of_ok fun c => ⟨c, c, rfl, rfl, rfl⟩) fun c => ?_
  split
  · exact .pure _
  · exact .fail _ _ _

theorem touches_operand (k : Nat) : Touches Q dsts (operand inst i k : CoreM W Val) :=
  (touches_src inst i k).bind fun t => touches_getTemp i t inst.op

theorem touches_set (f : Core W → Core W) (hmark : ∀ c, (f c).mark = c.mark)
    (htemps : ∀ c, (f c).temps = c.temps) : Touches Q dsts (modify f : CoreM W PUnit) :=
  .of_ok fun c => ⟨⟨⟩, f c, rfl, hmark c, htemps c⟩

theorem touches_commit : Touches Q dsts (commit : CoreM W Unit) :=
  touches_set _ (fun _ => rfl) fun _ => rfl

theorem touches_commitIf (p : Bool) : Touches Q dsts (commitIf p : CoreM W Unit) := by
  unfold commitIf
  split
  · exact touches_commit
  · exact .pure _

theorem touches_ask (f : W → α × W) : Touches Q dsts (ask f : CoreM W α) :=
  .of_ok fun _ => ⟨_, _, rfl, rfl, rfl⟩

theorem touches_requireInt : Touches Q dsts (requireInt inst i : CoreM W Unit) := by
  unfold requireInt
  split
  · exact .pure _
  · exact .fail _ _ _

theorem touches_setTemp {t : Temp} (ht : t ∈ dsts) (v : Val) (op : Opcode) :
    Touches Q dsts (setTemp b t v i op : CoreM W Unit) := by
  unfold setTemp
  split
  · exact .fail _ _ _
  · rw [Checked.maskBits_ok]
    refine ⟨fun c => ?_, fun c => ?_, fun c u hu => ?_, fun c e he => ?_⟩
    · show (exec (if t < c.temps.length then _ else _) c).2.mark = c.mark
      split
      · rfl
      · rfl
    · show (exec (if t < c.temps.length then _ else _) c).2.temps.length = c.temps.length
      split
      · exact List.length_set
      · rfl
    · show (exec (if t < c.temps.length then _ else _) c).2.temps[u]? = c.temps[u]?
      split
      · refine List.getElem?_set_ne fun he => ?_
        subst he
        exact hu ht
      · rfl
    · revert he
      show (exec (if t < c.temps.length then _ else _) c).1 = .error e → _
      split
      · exact fun he => by cases he
      · exact fun he hp => by cases he; exact hp.elim

theorem touches_writeDst (v : Val) : Touches Q inst.dsts (writeDst b inst v i : CoreM W Unit) := by
  unfold writeDst
  split
  · rename_i d hd
    exact touches_setTemp b i (by simp [Inst.dsts, hd]) v _
  · exact .fail _ _ _

theorem touches_writeDst2 (v : Val) (what : String) :
    Touches Q inst.dsts (writeDst2 b inst v i what : CoreM W Unit) := by
  unfold writeDst2
  split
  · rename_i d hd
    exact touches_setTemp b i (by simp [Inst.dsts, hd]) v _
  · exact .fail _ _ _

theorem touches_writeSome {dst : Option Temp} (hdst : ∀ d, dst = some d → d ∈ inst.dsts)
    (v : Val) : Touches Q inst.dsts (writeSome b inst dst v i : CoreM W Unit) := by
  unfold writeSome
  split
  · exact touches_setTemp b i (hdst _ rfl) v _
  · exact .pure _

theorem stays_write (v : Val) :
    Stays Q inst.dsts (do writeDst b inst v i; Pure.pure .next : CoreM W Step) :=
  .bind (touches_writeDst b inst i v) fun _ => .next

theorem stays_writeChecked {r : Except Error Val} (h : Checked.Ok r) :
    Stays Q inst.dsts (writeChecked b inst r i : CoreM W Step) :=
  .bind (.check h) fun v => stays_write b inst i v

theorem stays_writeMasked (v : Val) : Stays Q inst.dsts (writeMasked b inst v i : CoreM W Step) :=
  stays_writeChecked b inst i (.bind ⟨_, Checked.maskBits_ok _⟩ fun _ _ => ⟨_, rfl⟩)

theorem stays_fault (e : BusError) : Stays Q dsts (fault i e : CoreM W Step) := by
  refine .bind (.of_ok fun c => ⟨c, c, rfl, rfl, rfl⟩) fun c => ?_
  split
  · exact ⟨.throw False.elim, fun _ _ he => by cases he⟩
  · exact .done _

end Frame

/-! ### The operations -/

section Operations

variable {Q : Prop} (host : IrHost W) (b : Block) (inst : Inst) (i : Nat)

theorem stays_mov : Stays Q inst.dsts (stepMov b inst i : CoreM W Step) := by
  unfold stepMov movValue
  refine .bind ?_ fun v => stays_write b inst i v
  split
  · exact touches_getTemp i _ _
  · exact .pure _
  · exact .fail _ _ _

theorem stays_extS : Stays Q inst.dsts (stepExtS b inst i : CoreM W Step) := by
  refine .bind (touches_src inst i 0) fun s => ?_
  split
  · exact .fail _ _ _
  · exact .bind (touches_getTemp i s _) fun v =>
      stays_writeChecked b inst i ⟨_, Checked.sext_ok (Ty.bits_pos _)⟩

theorem stays_extZ : Stays Q inst.dsts (stepExtZ b inst i : CoreM W Step) := by
  exact .bind (touches_operand inst i 0) fun v => stays_write b inst i v

theorem stays_bswap : Stays Q inst.dsts (stepBswap b inst i : CoreM W Step) := by
  unfold stepBswap laneWidth
  refine .bind ?_ fun lane => ?_
  · split
    · split
      · exact .pure _
      · exact .fail _ _ _
    · exact .pure _
  · split
    · exact .fail _ _ _
    · rename_i hlane
      simp only [not_or, not_lt, ne_eq, not_not] at hlane
      exact .bind (touches_operand inst i 0) fun v => stays_writeChecked b inst i
        (Checked.ok_bswap hlane.1 inst.ty.bits_pos inst.ty.bits_le hlane.2.2)

theorem bitfieldParts_lt (aux : Nat) :
    (bitfieldParts aux).1 < 2 ^ 16 ∧ (bitfieldParts aux).2 < 2 ^ 16 :=
  ⟨Nat.mod_lt _ (by decide), Nat.mod_lt _ (by decide)⟩

theorem check_field {f : Option Val → CoreM W Step} (hnone : Stays Q inst.dsts (f none))
    (hsome : ∀ field, (bitfieldParts inst.aux).1 < 128 → Stays Q inst.dsts (f (some field))) :
    Stays Q inst.dsts (check (Checked.fieldMask (bitfieldParts inst.aux).1
      (bitfieldParts inst.aux).2 inst.ty.bits) >>= f) := by
  have hle := inst.ty.bits_le
  obtain ⟨hpos, hlen⟩ := bitfieldParts_lt inst.aux
  rw [Checked.fieldMask_ok hpos hlen hle]
  show Stays Q inst.dsts (f _)
  split
  · exact hnone
  · exact hsome _ (by omega)

theorem stays_deposit : Stays Q inst.dsts (stepDeposit b inst i : CoreM W Step) := by
  refine check_field inst (.fail _ _ _) fun field hpos => ?_
  exact .bind (touches_operand inst i 0) fun x => .bind (touches_operand inst i 1) fun y =>
    .bind (.check ⟨_, Checked.shl_ok hpos⟩) fun v => stays_write b inst i _

theorem stays_extract : Stays Q inst.dsts (stepExtract b inst i : CoreM W Step) := by
  refine check_field inst (.fail _ _ _) fun field hpos => ?_
  exact .bind (touches_operand inst i 0) fun x =>
    stays_writeChecked b inst i ⟨_, Checked.shr_ok hpos⟩

theorem stays_arith : Stays Q inst.dsts (stepArith b inst i : CoreM W Step) := by
  unfold stepArith arithValue
  refine .bind (touches_requireInt inst i) fun _ => .bind (touches_operand inst i 0) fun x =>
    .bind ?_ fun v => stays_writeMasked b inst i _
  split
  · exact .pure _
  · exact .bind (touches_operand inst i 1) fun y => .pure _

theorem stays_div (hQ : inst.op = .divS ∨ inst.op = .remS → Q) :
    Stays Q inst.dsts (stepDiv b inst i : CoreM W Step) := by
  refine .bind (touches_requireInt inst i) fun _ => .bind (touches_operand inst i 0) fun x =>
    .bind (touches_operand inst i 1) fun y => ?_
  split
  · exact .fail _ _ _
  · rename_i hy
    by_cases h : (inst.op = .divS ∨ inst.op = .remS) ∧ sext y inst.ty.bits = 0#128
    · obtain ⟨what, hwhat⟩ := Checked.divide_panics (x := x) inst.ty.bits_pos h
      rw [hwhat]
      exact ⟨.throw fun _ => hQ h.1, fun _ _ he => by cases he⟩
    · exact stays_writeChecked b inst i (Checked.ok_divide inst.ty.bits_pos hy h)

theorem stays_write2 (v₁ v₂ : Val) (what : String) :
    Stays Q inst.dsts (do
      writeDst b inst v₁ i
      writeDst2 b inst v₂ i what
      pure .next : CoreM W Step) :=
  .bind (touches_writeDst b inst i v₁) fun _ => .bind (touches_writeDst2 b inst i v₂ what)
    fun _ => .next

theorem stays_addc : Stays Q inst.dsts (stepAddc b inst i : CoreM W Step) := by
  exact .bind (touches_requireInt inst i) fun _ => .bind (touches_operand inst i 0) fun x =>
    .bind (touches_operand inst i 1) fun y => .bind (touches_operand inst i 2) fun c =>
      .bind (.check (Checked.ok_addc _ _)) fun out => stays_write2 b inst i _ _ _

theorem stays_mul2 : Stays Q inst.dsts (stepMul2 b inst i : CoreM W Step) := by
  refine .bind (touches_requireInt inst i) fun _ => ?_
  split
  · exact .done _
  · refine .bind (touches_operand inst i 0) fun x => .bind (touches_operand inst i 1) fun y =>
      .bind (.check (Checked.ok_mul2 _ inst.ty.bits_pos (by omega))) fun halves => ?_
    split
    · exact stays_write b inst i _
    · exact stays_write2 b inst i _ _ _

theorem stays_logic : Stays Q inst.dsts (stepLogic b inst i : CoreM W Step) := by
  unfold stepLogic logicValue
  refine .bind (touches_operand inst i 0) fun x => .bind ?_ fun v => stays_writeMasked b inst i _
  split
  · exact .pure _
  · exact .bind (touches_operand inst i 1) fun y => .pure _

theorem stays_shift : Stays Q inst.dsts (stepShift b inst i : CoreM W Step) := by
  exact .bind (touches_requireInt inst i) fun _ => .bind (touches_operand inst i 0) fun x =>
    .bind (touches_operand inst i 1) fun y => stays_writeChecked b inst i
      ⟨_, Checked.shift_ok _ _ inst.ty.bits_pos inst.ty.bits_le⟩

theorem stays_rotate : Stays Q inst.dsts (stepRotate b inst i : CoreM W Step) := by
  exact .bind (touches_requireInt inst i) fun _ => .bind (touches_operand inst i 0) fun x =>
    .bind (touches_operand inst i 1) fun y => stays_writeChecked b inst i
      (Checked.ok_rotate _ inst.ty.bits_pos inst.ty.bits_le)

theorem stays_rotateCarry : Stays Q inst.dsts (stepRotateCarry b inst i : CoreM W Step) := by
  exact .bind (touches_requireInt inst i) fun _ => .bind (touches_operand inst i 0) fun x =>
    .bind (touches_operand inst i 1) fun y =>
      .bind (.check ⟨_, Checked.rotateCarry_ok _ _ inst.ty.bits_pos inst.ty.bits_le⟩) fun out =>
        stays_write2 b inst i _ _ _

theorem stays_count : Stays Q inst.dsts (stepCount b inst i : CoreM W Step) := by
  exact .bind (touches_requireInt inst i) fun _ => .bind (touches_operand inst i 0) fun x =>
    stays_writeChecked b inst i (Checked.ok_count _ inst.ty.bits_le)

theorem stays_setcond : Stays Q inst.dsts (stepSetcond b inst i : CoreM W Step) := by
  unfold stepSetcond
  split
  · exact .fail _ _ _
  · exact .bind (touches_operand inst i 0) fun x => .bind (touches_operand inst i 1) fun y =>
      .bind (.check (Checked.ok_compare _ inst.ty.bits_pos)) fun p => stays_write b inst i _

theorem touches_decideOn {dsts : List Temp} (cond : Option Cond) :
    Touches Q dsts (decideOn inst i cond : CoreM W Bool) := by
  unfold decideOn
  split
  · exact .bind (touches_operand inst i 0) fun x => .bind (touches_operand inst i 1) fun y =>
      .check (Checked.ok_compare _ inst.ty.bits_pos)
  · exact .bind (touches_operand inst i 0) fun x => .pure _

theorem stays_movcond : Stays Q inst.dsts (stepMovcond b inst i : CoreM W Step) := by
  unfold stepMovcond selected
  refine .bind ?_ fun t => .bind (touches_getTemp i t _) fun v => stays_write b inst i v
  split
  · exact .bind (touches_decideOn inst i _) fun p => .bind (touches_src inst i 2) fun t =>
      .bind (touches_src inst i 3) fun f => .pure _
  · split
    · exact .bind (touches_decideOn inst i _) fun p => .bind (touches_src inst i 1) fun t =>
        .bind (touches_src inst i 2) fun f => .pure _
    · exact .fail _ _ _

theorem touches_brcond {dsts : List Temp} : Touches Q dsts (stepBrcond inst i : CoreM W Step) := by
  unfold stepBrcond branchTaken
  refine .bind ?_ fun taken => ?_
  · split
    · exact touches_decideOn inst i _
    · split
      · exact touches_decideOn inst i _
      · exact .fail _ _ _
  · split
    · exact .pure _
    · exact .pure _

theorem brcond_jump {c : Core W} {t : Nat}
    (h : (exec (stepBrcond inst i : CoreM W Step) c).1 = .ok (.jump t)) : t = inst.aux := by
  unfold stepBrcond at h
  rcases he : exec (branchTaken inst i) c with ⟨e | taken, c'⟩
  · rw [exec_bind_error he] at h
    cases h
  · rw [exec_bind_ok he] at h
    cases taken with
    | true => cases h; rfl
    | false => cases h

theorem stays_ld : Stays Q inst.dsts (stepLd host b inst i) := by
  unfold stepLd
  split
  · exact .fail _ _ _
  · refine .bind (touches_operand inst i 0) fun x => .bind (touches_commitIf _) fun _ =>
      .bind (touches_ask _) fun r => ?_
    split
    · exact stays_fault i _
    · refine .bind (.check ⟨_, Checked.maskBits_ok _⟩) fun m => stays_writeChecked b inst i ?_
      split
      · exact ⟨_, Checked.sext_ok (by cases ‹MemOp›.size <;> decide)⟩
      · exact ⟨_, rfl⟩

theorem stays_st : Stays Q inst.dsts (stepSt host inst i) := by
  unfold stepSt
  split
  · exact .fail _ _ _
  · refine .bind (touches_operand inst i 0) fun x => .bind (touches_operand inst i 1) fun y =>
      .bind touches_commit fun _ => .bind (touches_ask _) fun r => ?_
    split
    · exact stays_fault i _
    · exact .next

theorem stays_atomic : Stays Q inst.dsts (stepAtomic host b inst i) := by
  unfold stepAtomic atomicWidth atomicArgs
  refine .bind ?_ fun width => .bind (touches_operand inst i 0) fun x => .bind ?_ fun p =>
    .bind touches_commit fun _ => .bind (touches_ask _) fun r => ?_
  · split
    · exact .pure _
    · exact .pure _
    · exact .fail _ _ _
  · split
    · exact .pure _
    · split
      · exact .bind (touches_operand inst i 2) fun y => .bind (touches_operand inst i 1) fun z =>
          .pure _
      · exact .bind (touches_operand inst i 1) fun y => .pure _
  · split
    · exact stays_fault i _
    · refine .bind (touches_writeSome b inst i (fun d hd => by simp [Inst.dsts, hd]) _) fun _ =>
        .bind (touches_writeSome b inst i (fun d hd => ?_) _) fun _ => .next
      split at hd
      · simp [Inst.dsts, hd]
      · cases hd

theorem stays_fence {dsts : List Temp} : Stays Q dsts (stepFence host) := by
  exact .bind touches_commit fun _ => .bind (touches_ask _) fun _ => .next

theorem stays_gotoTb {dsts : List Temp} : Stays Q dsts (stepGotoTb inst i : CoreM W Step) := by
  unfold stepGotoTb
  split
  · exact .fail _ _ _
  · exact .done _

theorem stays_lookup {dsts : List Temp} : Stays Q dsts (stepLookup inst i : CoreM W Step) := by
  exact .bind (touches_operand inst i 0) fun x => .done _

theorem stays_charge {dsts : List Temp} : Stays Q dsts (stepCharge host inst i) := by
  unfold stepCharge
  split
  · exact .fail _ _ _
  · exact .bind (touches_set _ (fun _ => rfl) fun _ => rfl) fun _ =>
      .bind (touches_ask _) fun _ => .next

theorem coreStep_stays (hQ : inst.op = .divS ∨ inst.op = .remS → Q) (hop : inst.op ≠ .brcond) :
    Stays Q inst.dsts (coreStep host b inst i) := by
  unfold coreStep
  -- One arm of the interpreter after the other.
  split
  all_goals first
    | with_reducible exact stays_mov b inst i
    | with_reducible exact stays_extS b inst i
    | with_reducible exact stays_extZ b inst i
    | with_reducible exact stays_bswap b inst i
    | with_reducible exact stays_deposit b inst i
    | with_reducible exact stays_extract b inst i
    | with_reducible exact stays_arith b inst i
    | with_reducible exact stays_addc b inst i
    | with_reducible exact stays_mul2 b inst i
    | with_reducible exact stays_logic b inst i
    | with_reducible exact stays_shift b inst i
    | with_reducible exact stays_rotate b inst i
    | with_reducible exact stays_rotateCarry b inst i
    | with_reducible exact stays_count b inst i
    | with_reducible exact stays_setcond b inst i
    | with_reducible exact stays_movcond b inst i
    | with_reducible exact stays_div b inst i hQ
    | with_reducible exact stays_ld host b inst i
    | with_reducible exact stays_st host inst i
    | with_reducible exact stays_fence host
    | with_reducible exact stays_atomic host b inst i
    | with_reducible exact stays_gotoTb inst i
    | with_reducible exact stays_lookup inst i
    | with_reducible exact stays_charge host inst i
    | with_reducible exact .done _
    | exact absurd ‹_› hop

theorem coreStep_touches :
    Touches (inst.op = .divS ∨ inst.op = .remS) inst.dsts (coreStep host b inst i) ∧
    ∀ c t, (exec (coreStep host b inst i) c).1 = .ok (.jump t) →
      inst.op = .brcond ∧ t = inst.aux := by
  by_cases hop : inst.op = .brcond
  · simp only [coreStep, hop]
    exact ⟨touches_brcond inst i, fun c t hj => ⟨trivial, brcond_jump inst i hj⟩⟩
  · have h := coreStep_stays host b inst i id hop
    exact ⟨h.toTouches, fun c t hj => absurd hj (h.noJump c t)⟩

theorem coreStep_terminator (hterm : inst.op.isTerminator = true) (c : Core W) :
    (exec (coreStep host b inst i) c).1 ≠ .ok .next := by
  have hops : inst.op = .gotoTb ∨ inst.op = .exitTb ∨ inst.op = .lookupAndGoto := by
    unfold Opcode.isTerminator at hterm
    split at hterm
    · exact .inl ‹_›
    · exact .inr (.inl ‹_›)
    · exact .inr (.inr ‹_›)
    · cases hterm
  rcases hops with hop | hop | hop
  · simp only [coreStep, hop, stepGotoTb]
    split
    · exact fun he => by cases he
    · exact fun he => by cases he
  · simp only [coreStep, hop]
    exact fun he => by cases he
  · simp only [coreStep, hop, stepLookup]
    rcases he : exec (operand inst i 0 : CoreM W Val) c with ⟨e | x, c'⟩
    · rw [exec_bind_error he]
      exact fun he => by cases he
    · rw [exec_bind_ok he]
      exact fun he => by cases he

end Operations

/-! ## Publishing now or later -/

section Publication

variable (host : IrHost W) {b : Block}

theorem writeLive_of_not_mem {temps : List Val} {slot : RegSlot}
    (live : List (RegSlot × Temp)) (slots : Slots) (h : slot ∉ live.map Prod.fst) :
    writeLive host temps live slots slot = slots slot := by
  induction live generalizing slots with
  | nil => rfl
  | cons p live ih =>
    simp only [List.map_cons, List.mem_cons, not_or] at h
    rw [writeLive, ih _ h.2]
    cases temps[p.2]? with
    | none => rfl
    | some v => simp [writeSlot, h.1]

theorem writeLive_congr {temps temps' : List Val} (live : List (RegSlot × Temp)) (slots : Slots)
    (h : ∀ p ∈ live, temps'[p.2]? = temps[p.2]?) :
    writeLive host temps' live slots = writeLive host temps live slots := by
  induction live generalizing slots with
  | nil => rfl
  | cons p live ih =>
    rw [writeLive, writeLive, h p (by simp)]
    exact ih _ fun q hq => h q (by simp [hq])

theorem writeLive_absorb {temps : List Val} (live : List (RegSlot × Temp))
    (hexist : ∀ p ∈ live, p.2 < temps.length) {slots slots' : Slots}
    (h : ∀ s, s ∉ live.map Prod.fst → slots s = slots' s) :
    writeLive host temps live slots = writeLive host temps live slots' := by
  induction live generalizing slots slots' with
  | nil =>
    funext s
    exact h s (by simp)
  | cons p live ih =>
    obtain ⟨v, hv⟩ : ∃ v, temps[p.2]? = some v :=
      ⟨_, List.getElem?_eq_getElem (hexist p (by simp))⟩
    rw [writeLive, writeLive, hv]
    refine ih (fun q hq => hexist q (by simp [hq])) fun s hs => ?_
    simp only [Option.elim_some, writeSlot]
    split
    · rfl
    · rename_i hne
      exact h s (by simp [hne, hs])

@[simp] theorem publish_published (s : Exec W) : (publish host b s).published = true := by
  unfold publish
  split
  · assumption
  · rfl

@[simp] theorem publish_core (s : Exec W) : (publish host b s).core = s.core := by
  unfold publish
  split <;> rfl

theorem runCore_publish {m : CoreM W α} {Q : Prop} {dsts : List Temp}
    (hm : Touches Q dsts m) (s : Exec W)
    (h : s.published = false → ∀ p ∈ liveMap b s.core.mark, p.2 ∉ dsts) :
    runCore m (publish host b s) = ((runCore m s).1, publish host b (runCore m s).2) := by
  cases hp : s.published with
  | true =>
    have hkept : (runCore m s).2.published = true := hp
    simp only [publish, hp, hkept, if_true]
  | false =>
    have hkept : (runCore m s).2.published = false := hp
    have hmark := hm.mark s.core
    have htemps : ∀ p ∈ liveMap b s.core.mark,
        (exec m s.core).2.temps[p.2]? = s.core.temps[p.2]? :=
      fun p hmem => hm.temps s.core p.2 (h hp p hmem)
    have hslots := writeLive_congr host (liveMap b s.core.mark) s.slots htemps
    simp only [publish, hp, hkept, Bool.false_eq_true, if_false]
    show ((exec m s.core).1, (⟨(exec m s.core).2, true, _⟩ : Exec W)) =
      ((exec m s.core).1, ⟨(exec m s.core).2, true, writeLive host (exec m s.core).2.temps
        (liveMap b (exec m s.core).2.mark) s.slots⟩)
    rw [hmark, hslots]

end Publication

/-! ## The eager interpreter -/

/-- Execute one instruction, writing a boundary's mapping out at once. Nothing is ever
pending, so that what the lazy interpreter does to catch up does nothing here. -/
def eagerStep (host : IrHost W) (b : Block) (inst : Inst) (i : Nat) (s : Exec W) :
    Except Error Step × Exec W :=
  if inst.op = .insnStart then
    let (r, s') := step host b inst i
      { s with slots := writeLive host s.core.temps (liveMap b (some inst.aux)) s.slots }
    (r, { s' with published := true })
  else step host b inst i s

def eagerRun (host : IrHost W) (b : Block) (slots : Slots) (world : W) :
    Except Error Outcome × Exec W :=
  execute b (eagerStep host b) stepLimit 0 (start b slots world)

/-- The instructions a run executes, each with the state it finds. -/
def trace (b : Block) (stepper : Stepper W) : Nat → Nat → Exec W → List (Nat × Exec W)
  | 0, _, _ => []
  | budget + 1, i, s =>
    match b.insts[i]? with
    | none => []
    | some inst =>
      (i, s) ::
        match stepper inst i s with
        | (.ok .next, s) => trace b stepper budget (i + 1) s
        | (.ok (.jump target), s) =>
          if b.insts.length ≤ target then [] else trace b stepper budget target s
        | _ => []

def slotsSeen (host : IrHost W) (b : Block) (inst : Inst) (s : Exec W) : Slots :=
  if inst.op = .getSlot then
    (if shadowed b s (slotOf inst) then publish host b s else s).slots
  else (publish host b s).slots

end Rsemu.Ir.Interp

namespace Rsemu.Ir

/-! ## Monotone mappings -/

/-- Control can go from instruction `i` to instruction `j`. -/
def Block.Edge (b : Block) (i j : Nat) : Prop :=
  ∃ inst, b.insts[i]? = some inst ∧ inst.op.isTerminator = false ∧
    (j = i + 1 ∨ inst.op = .brcond ∧ j = inst.aux)

/-- Control can go from instruction `j` to instruction `i` without a helper call on the
way. -/
inductive Block.Quiet (b : Block) (j : Nat) : Nat → Prop where
  | edge {i : Nat} : b.Edge j i → b.Quiet j i
  | step {k i : Nat} {inst : Inst} : b.Quiet j k → b.insts[k]? = some inst →
      inst.op ≠ .callHelper → b.Edge k i → b.Quiet j i

/-- **Once a boundary names a slot, every later boundary reachable before a helper call or
an exit names it too.** -/
def Block.MonotoneLive (b : Block) : Prop :=
  ∀ (j i : Nat) (x y : Inst) (m n : InsnStart), b.insts[j]? = some x →
    b.insts[i]? = some y → b.boundary x = some m → b.boundary y = some n → b.Quiet j i →
    ∀ slot ∈ m.live.map Prod.fst, slot ∈ n.live.map Prod.fst

theorem Block.Edge.lt {b : Block} (hb : Verified b) {i j : Nat} (h : b.Edge i j) : i < j := by
  obtain ⟨inst, hi, -, rfl | ⟨hop, rfl⟩⟩ := h
  · exact Nat.lt_succ_self i
  · exact (hb.forward i inst hi hop).1

theorem Block.Quiet.lt {b : Block} (hb : Verified b) {j i : Nat} (h : b.Quiet j i) : j < i := by
  induction h with
  | edge he => exact he.lt hb
  | step _ _ _ he ih => exact Nat.lt_trans ih (he.lt hb)

end Rsemu.Ir

namespace Rsemu.Ir.Interp

open Fallible (exec exec_bind_ok exec_bind_error)

variable {W : Type}

/-! ## One instruction, both ways -/

/-- What holds on reaching instruction `i`: every temporary is there, and what is pending
is the mapping of a boundary that got here without a helper call. -/
structure Reached (b : Block) (i : Nat) (s : Exec W) : Prop where
  length : s.core.temps.length = b.tempCount
  pending : s.published = false → ∃ j inst mark, b.insts[j]? = some inst ∧
    b.boundary inst = some mark ∧ s.core.mark = some inst.aux ∧ b.Quiet j i

section Simulation

variable {host : IrHost W} {b : Block} {inst : Inst} {i : Nat} {s : Exec W}

theorem boundary_eq_some {mark : InsnStart} (h : b.boundary inst = some mark) :
    inst.op = .insnStart ∧ b.marks[inst.aux]? = some mark := by
  unfold Block.boundary at h
  split at h
  · exact ⟨‹_›, h⟩
  · cases h

theorem Reached.not_mem_dsts (h : Reached b i s) (hb : Verified b) (hi : b.insts[i]? = some inst)
    (hp : s.published = false) : ∀ p ∈ liveMap b s.core.mark, p.2 ∉ inst.dsts := by
  obtain ⟨j, from_, mark, hj, hbound, hmark, hquiet⟩ := h.pending hp
  have hlive : liveMap b s.core.mark = mark.live := by
    simp [liveMap, hmark, (boundary_eq_some hbound).2]
  intro p hmem hdst
  rw [hlive] at hmem
  have hnames : b.Names j p.2 :=
    ⟨from_, hj, by
      simp only [Block.named, hbound, Option.elim_some]
      exact List.mem_map_of_mem hmem⟩
  obtain ⟨d, hd, had⟩ := hb.names j p.2 hnames
  have := hb.once d i p.2 had ⟨inst, hi, hdst⟩
  have := hquiet.lt hb
  omega

theorem Reached.along (h : Reached b i s) (hi : b.insts[i]? = some inst)
    (hop : inst.op ≠ .callHelper) {next : Nat} (hedge : b.Edge i next) {s' : Exec W}
    (hlen : s'.core.temps.length = s.core.temps.length)
    (hpub : s'.published = false → s.published = false ∧ s'.core.mark = s.core.mark) :
    Reached b next s' := by
  refine ⟨hlen.trans h.length, fun hp => ?_⟩
  obtain ⟨hp', hmark'⟩ := hpub hp
  obtain ⟨j, from_, mark, hj, hbound, hmark, hquiet⟩ := h.pending hp'
  exact ⟨j, from_, mark, hj, hbound, hmark'.trans hmark, hquiet.step hi hop hedge⟩

theorem edge_next (hi : b.insts[i]? = some inst) (hterm : inst.op.isTerminator = false) :
    b.Edge i (i + 1) := ⟨inst, hi, hterm, .inl rfl⟩

theorem edge_jump (hi : b.insts[i]? = some inst) (hop : inst.op = .brcond) :
    b.Edge i inst.aux := ⟨inst, hi, by simp [hop, Opcode.isTerminator], .inr ⟨hop, rfl⟩⟩

/-- What has to hold of one instruction: the eager step from the published state is the
lazy step published, and control goes on to a state that was reached. -/
structure StepSim (host : IrHost W) (b : Block) (inst : Inst) (i : Nat) (s : Exec W) : Prop where
  eager : eagerStep host b inst i (publish host b s) =
    ((step host b inst i s).1, publish host b (step host b inst i s).2)
  next : (step host b inst i s).1 = .ok .next → Reached b (i + 1) (step host b inst i s).2
  jump : ∀ t, (step host b inst i s).1 = .ok (.jump t) → Reached b t (step host b inst i s).2

theorem stepSim_core (hb : Verified b) (hi : b.insts[i]? = some inst) (h : Reached b i s)
    (hg : inst.op ≠ .getSlot) (hc : inst.op ≠ .callHelper) (hs : inst.op ≠ .insnStart) :
    StepSim host b inst i s := by
  have hstep : ∀ s : Exec W, step host b inst i s = runCore (coreStep host b inst i) s := by
    intro s
    unfold step
    split
    · exact absurd ‹_› hg
    · exact absurd ‹_› hc
    · exact absurd ‹_› hs
    · rfl
  obtain ⟨htouch, hjump⟩ := coreStep_touches host b inst i
  have hlen : (step host b inst i s).2.core.temps.length = s.core.temps.length := by
    rw [hstep]
    exact htouch.length s.core
  have hpub : (step host b inst i s).2.published = false →
      s.published = false ∧ (step host b inst i s).2.core.mark = s.core.mark := by
    rw [hstep]
    exact fun hp => ⟨hp, htouch.mark s.core⟩
  refine ⟨?_, fun hnext => ?_, fun t ht => ?_⟩
  · rw [eagerStep, if_neg hs, hstep, hstep]
    exact runCore_publish host htouch s (h.not_mem_dsts hb hi)
  · refine h.along hi hc (edge_next hi ?_) hlen hpub
    rw [hstep] at hnext
    cases hterm : inst.op.isTerminator with
    | false => rfl
    | true => exact absurd hnext (coreStep_terminator host b inst i hterm s.core)
  · rw [hstep] at ht
    obtain ⟨hop, rfl⟩ := hjump s.core t ht
    exact h.along hi hc (edge_jump hi hop) hlen hpub

theorem publish_slots_of_not_shadowed {slot : RegSlot} (h : shadowed b s slot = false) :
    (publish host b s).slots slot = s.slots slot := by
  unfold publish
  split
  · rfl
  · rename_i hp
    refine writeLive_of_not_mem host _ _ fun hmem => ?_
    obtain ⟨p, hin, rfl⟩ := List.mem_map.mp hmem
    have hany : (liveMap b s.core.mark).any (fun q => decide (q.1 = p.1)) = true :=
      List.any_eq_true.mpr ⟨p, hin, by simp⟩
    simp [shadowed, hp, hany] at h

theorem shadowed_published (hp : s.published = true) (slot : RegSlot) :
    shadowed b s slot = false := by
  simp [shadowed, hp]

theorem publish_of_published (hp : s.published = true) : publish host b s = s := by
  simp [publish, hp]

theorem stepSim_getSlot (hb : Verified b) (hi : b.insts[i]? = some inst) (h : Reached b i s)
    (hop : inst.op = .getSlot) : StepSim host b inst i s := by
  have hstep : ∀ s : Exec W, step host b inst i s = stepGetSlot host b inst i s := by
    intro s
    simp only [step, hop]
  have htouch : ∀ v, Stays False inst.dsts (do writeDst b inst v i; pure .next : CoreM W Step) :=
    fun v => stays_write b inst i v
  have hterm : inst.op.isTerminator = false := by rw [hop]; rfl
  have heager : eagerStep host b inst i (publish host b s) =
      runCore (do writeDst b inst ((publish host b s).slots (slotOf inst)) i; pure .next)
        (publish host b s) := by
    rw [eagerStep, if_neg (by simp [hop]), hstep, stepGetSlot,
      shadowed_published (publish_published host s)]
    rfl
  cases hsh : shadowed b s (slotOf inst) with
  | true =>
    -- The mapping is written out first: both do the same from there.
    have hlazy : step host b inst i s =
        runCore (do writeDst b inst ((publish host b s).slots (slotOf inst)) i; pure .next)
          (publish host b s) := by
      rw [hstep, stepGetSlot, hsh]
      rfl
    have hpub : (step host b inst i s).2.published = true := by
      rw [hlazy]
      exact publish_published host s
    have hlen : (step host b inst i s).2.core.temps.length = s.core.temps.length := by
      rw [hlazy, ← publish_core host (b := b) s]
      exact (htouch _).length (publish host b s).core
    refine ⟨?_, fun _ => ?_, fun t ht => ?_⟩
    · rw [heager, publish_of_published hpub, hlazy]
    · exact h.along hi (by simp [hop]) (edge_next hi hterm) hlen
        fun hp => absurd hpub (by simp [hp])
    · rw [hlazy] at ht
      exact absurd ht ((htouch _).noJump _ t)
  | false =>
    have hlazy : step host b inst i s =
        runCore (do writeDst b inst (s.slots (slotOf inst)) i; pure .next) s := by
      rw [hstep, stepGetSlot, hsh]
      rfl
    refine ⟨?_, fun _ => ?_, fun t ht => ?_⟩
    · rw [heager, publish_slots_of_not_shadowed hsh, hlazy]
      exact runCore_publish host (htouch _).toTouches s (h.not_mem_dsts hb hi)
    · refine h.along hi (by simp [hop]) (edge_next hi hterm) ?_ ?_
      · rw [hlazy]
        exact (htouch _).length s.core
      · rw [hlazy]
        exact fun hp => ⟨hp, (htouch _).mark s.core⟩
    · rw [hlazy] at ht
      exact absurd ht ((htouch _).noJump _ t)

theorem exec_helperArgs (c : Core W) : (exec (helperArgs inst i) c).2 = c := by
  have hget : ∀ t, (exec (getTemp t i inst.op : CoreM W Val) c).2 = c := by
    intro t
    have hread : exec (getThe (Core W) : CoreM W (Core W)) c = (.ok c, c) := rfl
    unfold getTemp
    rw [exec_bind_ok hread]
    split
    · rfl
    · rfl
  unfold helperArgs
  induction inst.srcs with
  | nil => rfl
  | cons t ts ih =>
    rw [List.mapM_cons]
    rcases h : exec (getTemp t i inst.op : CoreM W Val) c with ⟨e | v, c'⟩
    · rw [exec_bind_error h, ← hget t, h]
    · obtain rfl : c' = c := by rw [← hget t, h]
      rw [exec_bind_ok h]
      rcases h' : exec (ts.mapM fun t => getTemp t i inst.op : CoreM W (List Val)) c' with
        ⟨e | vs, c''⟩
      · rw [exec_bind_error h', ← ih, h']
      · rw [exec_bind_ok h', ← ih, h']
        rfl

theorem touches_helperArgs {Q : Prop} {dsts : List Temp} :
    Touches Q dsts (helperArgs inst i : CoreM W (List Val)) := by
  unfold helperArgs
  induction inst.srcs with
  | nil => exact .pure _
  | cons t ts ih =>
    rw [List.mapM_cons]
    exact (touches_getTemp i t inst.op).bind fun v => ih.bind fun vs => .pure _

theorem writeResults_stays {Q : Prop} (first second : Val) :
    Stays Q inst.dsts (writeResults b inst i first second : CoreM W Step) :=
  .bind (touches_writeSome b inst i (fun d hd => by simp [Inst.dsts, hd]) _) fun _ =>
    .bind (touches_writeSome b inst i (fun d hd => by simp [Inst.dsts, hd]) _) fun _ => .next

theorem callHost_spec {args : List Val} (hp : s.published = true) :
    (callHost host b inst i args s).2.published = true ∧
      (callHost host b inst i args s).2.core.temps.length = s.core.temps.length ∧
      ∀ t, (callHost host b inst i args s).1 ≠ .ok (.jump t) := by
  unfold callHost
  rcases host.callHelper inst.aux args s.slots s.core.world with ⟨r, slots, world⟩
  dsimp only
  split
  · exact ⟨hp, rfl, fun t he => by cases he⟩
  · rename_i first second
    have hstays : Stays False inst.dsts (writeResults b inst i first second : CoreM W Step) :=
      writeResults_stays first second
    exact ⟨hp, hstays.length _, fun t => hstays.noJump _ t⟩

theorem stepSim_callHelper (h : Reached b i s) (hop : inst.op = .callHelper) :
    StepSim host b inst i s := by
  have hstep : ∀ s : Exec W, step host b inst i s = stepCallHelper host b inst i s := by
    intro s
    simp only [step, hop]
  rcases hargs : exec (helperArgs inst i) s.core with ⟨e | args, c⟩
  · -- A malformed call: nothing happens.
    obtain rfl : c = s.core := by rw [← exec_helperArgs s.core, hargs]
    have herr : ∀ s' : Exec W, s'.core = s.core → step host b inst i s' = (.error e, s') := by
      intro s' hcore
      rw [hstep, stepCallHelper, runCore_eq, hcore, hargs, ← hcore]
    refine ⟨?_, fun hn => ?_, fun t ht => ?_⟩
    · rw [eagerStep, if_neg (by simp [hop]), herr s rfl, herr _ (publish_core host s)]
    · rw [herr s rfl] at hn
      cases hn
    · rw [herr s rfl] at ht
      cases ht
  · obtain rfl : c = s.core := by rw [← exec_helperArgs s.core, hargs]
    have hcall : ∀ s' : Exec W, s'.core = s.core → step host b inst i s' =
        callHost host b inst i args
          (publish host b { s' with core := { s'.core with committed := true } }) := by
      intro s' hcore
      rw [hstep, stepCallHelper, runCore_eq, hcore, hargs]
    obtain ⟨hpub, hlen, hjump⟩ := @callHost_spec W host b inst i
      (publish host b { s with core := { s.core with committed := true } }) args
      (publish_published host _)
    rw [← hcall s rfl] at hpub hlen hjump
    rw [publish_core] at hlen
    refine ⟨?_, fun _ => ?_, fun t ht => absurd ht (hjump t)⟩
    · rw [eagerStep, if_neg (by simp [hop]), publish_of_published hpub, hcall s rfl,
        hcall _ (publish_core host s)]
      congr 1
      cases hp : s.published with
      | true => simp [publish, hp]
      | false => simp [publish, hp]
    · exact ⟨hlen.trans h.length, fun hp => absurd hpub (by simp [hp])⟩

theorem stepInsnStart_eq {mark : InsnStart} (hmark : b.marks[inst.aux]? = some mark)
    (hop : inst.op = .insnStart) (s : Exec W) :
    step host b inst i s =
      (.ok (if (1#64).ult (s.core.boundaries + 1#64) &&
          host.spent (host.insnStart mark s.core.world) && !b.terminatorFollows i
        then .done (.spent mark.pc) else .next),
        { core :=
            { s.core with
              mark := some inst.aux
              boundaries := s.core.boundaries + 1#64
              boundaryPc := mark.pc
              retired := s.core.ticks
              committed := false
              world := host.insnStart mark s.core.world }
          published := false
          slots := s.slots }) := by
  simp only [step, hop, stepInsnStart, hmark]
  split
  · rfl
  · rfl

theorem writeLive_publish (hb : Verified b) (hm : b.MonotoneLive) (hi : b.insts[i]? = some inst)
    (h : Reached b i s) {mark : InsnStart} (hbound : b.boundary inst = some mark) :
    writeLive host s.core.temps mark.live (publish host b s).slots =
      writeLive host s.core.temps mark.live s.slots := by
  unfold publish
  split
  · rfl
  · rename_i hp
    obtain ⟨j, from_, old, hj, hold, hmark, hquiet⟩ := h.pending (by simpa using hp)
    have hlive : liveMap b s.core.mark = old.live := by
      simp [liveMap, hmark, (boundary_eq_some hold).2]
    refine writeLive_absorb host mark.live ?_ fun slot hslot => ?_
    · -- What the boundary names was assigned, so it is there.
      intro p hp
      have hnames : b.Names i p.2 := ⟨inst, hi, by
        simp only [Block.named, hbound, Option.elim_some]
        exact List.mem_map_of_mem hp⟩
      obtain ⟨d, -, had⟩ := hb.names i p.2 hnames
      rw [h.length]
      exact hb.allocated d p.2 had
    · refine writeLive_of_not_mem host _ _ fun hmem => hslot ?_
      rw [hlive] at hmem
      exact hm j i from_ inst old mark hj hi hold hbound hquiet slot hmem

theorem stepSim_insnStart (hb : Verified b) (hm : b.MonotoneLive) (hi : b.insts[i]? = some inst)
    (h : Reached b i s) (hop : inst.op = .insnStart) : StepSim host b inst i s := by
  obtain ⟨mark, hmark⟩ := hb.marked i inst hi hop
  have hbound : b.boundary inst = some mark := by simp [Block.boundary, hop, hmark]
  have hlive : liveMap b (some inst.aux) = mark.live := by simp [liveMap, hmark]
  have hlazy := @stepInsnStart_eq W host b inst i mark hmark hop
  refine ⟨?_, fun _ => ?_, fun t ht => ?_⟩
  · rw [eagerStep, if_pos hop, hlazy, hlazy]
    simp only [publish_core, hlive]
    rw [writeLive_publish hb hm hi h hbound]
    simp [publish, hlive]
  · rw [hlazy]
    refine ⟨h.length, fun _ => ⟨i, inst, mark, hi, hbound, rfl, .edge (edge_next hi ?_)⟩⟩
    rw [hop]
    rfl
  · rw [hlazy] at ht
    split at ht <;> cases ht

theorem stepSim (hb : Verified b) (hm : b.MonotoneLive) (hi : b.insts[i]? = some inst)
    (h : Reached b i s) : StepSim host b inst i s := by
  by_cases hg : inst.op = .getSlot
  · exact stepSim_getSlot hb hi h hg
  by_cases hc : inst.op = .callHelper
  · exact stepSim_callHelper h hc
  by_cases hs : inst.op = .insnStart
  · exact stepSim_insnStart hb hm hi h hs
  · exact stepSim_core hb hi h hg hc hs

/-! ## The whole run -/

theorem execute_eager (hb : Verified b) (hm : b.MonotoneLive) (budget : Nat) {i : Nat}
    {s : Exec W} (h : Reached b i s) :
    execute b (eagerStep host b) budget i (publish host b s) =
      ((execute b (step host b) budget i s).1,
        publish host b (execute b (step host b) budget i s).2) := by
  induction budget generalizing i s with
  | zero =>
    unfold execute
    cases b.insts[i]? with
    | none => rfl
    | some inst => rfl
  | succ budget ih =>
    unfold execute
    cases hi : b.insts[i]? with
    | none => rfl
    | some inst =>
      have hsim := @stepSim W host b inst i s hb hm hi h
      dsimp only
      rw [hsim.eager]
      have hnext := hsim.next
      have hjump := hsim.jump
      rcases hst : step host b inst i s with ⟨r, s'⟩
      rw [hst] at hnext hjump
      dsimp only at hnext hjump ⊢
      rcases r with e | (_ | t | o)
      · rfl
      · exact ih (hnext rfl)
      · dsimp only
        split
        · rfl
        · exact ih (hjump t rfl)
      · rfl

/-- What the two hosts hold where the host can look: at a helper call every slot is the
same, at a slot read the slot that is read is, and every slot if the mapping was written
out for it. -/
def SameSlots (host : IrHost W) (b : Block) (x y : Nat × Exec W) : Prop :=
  x.1 = y.1 ∧ ∀ inst, b.insts[x.1]? = some inst →
    (inst.op = .callHelper → slotsSeen host b inst x.2 = slotsSeen host b inst y.2) ∧
    (inst.op = .getSlot →
      slotsSeen host b inst x.2 (slotOf inst) = slotsSeen host b inst y.2 (slotOf inst) ∧
      (shadowed b x.2 (slotOf inst) = true → slotsSeen host b inst x.2 = slotsSeen host b inst y.2))

theorem sameSlots_publish : SameSlots host b (i, s) (i, publish host b s) := by
  refine ⟨rfl, fun inst _ => ⟨fun hop => ?_, fun hop => ?_⟩⟩
  · simp [slotsSeen, hop, publish_of_published (publish_published host s)]
  · simp only [slotsSeen, hop, if_true, shadowed_published (publish_published host s),
      Bool.false_eq_true, if_false]
    cases hsh : shadowed b s (slotOf inst) with
    | true => simp
    | false => simp [publish_slots_of_not_shadowed hsh]

theorem trace_eager (hb : Verified b) (hm : b.MonotoneLive) (budget : Nat) {i : Nat}
    {s : Exec W} (h : Reached b i s) :
    List.Forall₂ (SameSlots host b) (trace b (step host b) budget i s)
      (trace b (eagerStep host b) budget i (publish host b s)) := by
  induction budget generalizing i s with
  | zero => exact .nil
  | succ budget ih =>
    unfold trace
    cases hi : b.insts[i]? with
    | none => exact .nil
    | some inst =>
      have hsim := @stepSim W host b inst i s hb hm hi h
      refine .cons sameSlots_publish ?_
      rw [hsim.eager]
      have hnext := hsim.next
      have hjump := hsim.jump
      rcases hst : step host b inst i s with ⟨r, s'⟩
      rw [hst] at hnext hjump
      dsimp only at hnext hjump ⊢
      rcases r with e | (_ | t | o)
      · exact .nil
      · exact ih (hnext rfl)
      · dsimp only
        split
        · exact .nil
        · exact ih (hjump t rfl)
      · exact .nil

end Simulation

/-- **Lazy publication is eager publication.** For every verified block whose mappings are
monotone and every host: the run ends the same way as the run that writes every boundary
out, with the same value in every slot, the same temporaries and the same world, whatever
the outcome or the error; on the way both execute the same instructions, and the two hosts
hold the same value in every slot at every helper call, and in the slot that is read at
every slot read (in every slot, when the read makes the pending mapping be written out). -/
theorem lazy_eq_eager {b : Block} (hv : verify b = .ok ()) (hm : b.MonotoneLive)
    (host : IrHost W) (slots : Slots) (world : W) :
    run host b slots world = eagerRun host b slots world ∧
      List.Forall₂ (SameSlots host b) (trace b (step host b) stepLimit 0 (start b slots world))
        (trace b (eagerStep host b) stepLimit 0 (start b slots world)) := by
  have hb := verify_ok hv
  have hstart : Reached b 0 (start b slots world) :=
    ⟨by simp [start], fun hp => absurd hp (by simp [start])⟩
  have hpub : publish host b (start b slots world) = start b slots world :=
    publish_of_published rfl
  constructor
  · have := @execute_eager W host b hb hm stepLimit 0 (start b slots world) hstart
    rw [hpub] at this
    rw [eagerRun, this]
    rfl
  · have := @trace_eager W host b hb hm stepLimit 0 (start b slots world) hstart
    rwa [hpub] at this

/-- A host without memory whose helpers do nothing. -/
def idleHost : IrHost Unit where
  keep := fun _ v => v
  load := fun _ _ w => (.error .badAccess, w)
  store := fun _ _ _ w => (.error .badAccess, w)
  charge := fun _ w => w
  insnStart := fun _ w => w
  spent := fun _ => false
  rmw := fun _ _ _ _ _ w => (.error .badAccess, w)
  fence := fun w => w
  callHelper := fun _ _ slots w => (.ok (0#128, 0#128), slots, w)

/-- A boundary that binds slot 0, and a read of slot 1. -/
def otherSlot : Block :=
  { entryPc := 0
    key := 0
    insts :=
      [.plain .mov (some 0) [] (some (.int 5#128)) 0,
        .plain .insnStart none [] none 0,
        .plain .getSlot (some 1) [] none 1,
        .plain .exitTb none [] none 0]
    marks := [⟨0, 4, 0, [(0, 0)]⟩]
    types := [.i64, .i64] }

theorem otherSlot_monotone : otherSlot.MonotoneLive := by
  intro j i x y m n _ _ hm hn _
  have hone : ∀ {k : Nat} {r : InsnStart}, otherSlot.marks[k]? = some r →
      r = ⟨0, 4, 0, [(0, 0)]⟩ := by
    intro k r hr
    cases k with
    | zero => cases hr; rfl
    | succ k => exact absurd hr (by simp [otherSlot])
  rw [hone (boundary_eq_some hm).2, hone (boundary_eq_some hn).2]
  exact fun slot h => h

theorem lazy_eq_eager_otherSlot :
    verify otherSlot = .ok () ∧ otherSlot.MonotoneLive ∧
      run idleHost otherSlot (fun _ => 0#128) () =
        eagerRun idleHost otherSlot (fun _ => 0#128) () :=
  ⟨rfl, otherSlot_monotone, (lazy_eq_eager rfl otherSlot_monotone idleHost _ _).1⟩

/-- At a read of a slot that nothing pending binds, the other slots are not up to date: the
read is of slot 1, and slot 0 still waits for the boundary's mapping. -/
theorem lazy_behind_at_read :
    ¬ ∀ (W : Type) (host : IrHost W) (b : Block) (slots : Slots) (world : W),
      verify b = .ok () → b.MonotoneLive →
      List.Forall₂ (fun x y => x.1 = y.1 ∧ ∀ inst, b.insts[x.1]? = some inst →
          (inst.op = .callHelper ∨ inst.op = .getSlot) →
          slotsSeen host b inst x.2 = slotsSeen host b inst y.2)
        (trace b (step host b) stepLimit 0 (start b slots world))
        (trace b (eagerStep host b) stepLimit 0 (start b slots world)) := by
  intro h
  have htraces := h Unit idleHost otherSlot (fun _ => 0#128) () rfl otherSlot_monotone
  -- The third instruction is the read.
  have hread := (List.forall₂_iff_get.mp htraces).2 2 (by decide +kernel) (by decide +kernel)
  have hzero := congrFun (hread.2 _ rfl (.inr rfl)) 0
  exact absurd hzero (by decide +kernel)

end Rsemu.Ir.Interp
