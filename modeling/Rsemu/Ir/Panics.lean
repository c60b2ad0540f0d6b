import Rsemu.Ir.Publish

/-!
# What the interpreter can panic on

The interpreter promises a message for a malformed block and never a panic, and every run
ends within its step limit. It keeps the second promise, and the first at every operation
but two: the signed divisions guard against a divisor that is zero and then divide by its
low bits.
-/

namespace Rsemu.Ir.Interp

open Fallible (exec exec_bind_ok exec_bind_error)

variable {W : Type} {α : Type}

/-- A host as the trait types it: a helper answers or fails, and a panic is neither. -/
structure TypedHost (W : Type) extends IrHost W where
  helper_returns : ∀ id args slots w e,
    (callHelper id args slots w).1 = .error e → ¬ e.IsPanic

/-- What the loop of a run does from instruction `i` on, with `steps` instructions begun
already: where it ends, what it returns, and how many it begins in all. -/
inductive Ends (host : IrHost W) (b : Block) :
    Nat → Nat → Exec W → Nat → Except Error Outcome → Prop where
  | ranOff {steps i : Nat} {s : Exec W} : b.insts[i]? = none →
      Ends host b steps i s steps
        (.error (.ir s!"block {hex b.entryPc} ran off the end without reaching a terminator"))
  | limit {steps i : Nat} {s : Exec W} {inst : Inst} : b.insts[i]? = some inst →
      stepLimit < steps + 1 →
      Ends host b steps i s steps
        (.error (.ir (s!"block {hex b.entryPc} did not terminate within " ++
          s!"{stepLimit} instructions")))
  | failed {steps i : Nat} {s s' : Exec W} {inst : Inst} {e : Error} : b.insts[i]? = some inst →
      steps + 1 ≤ stepLimit → step host b inst i s = (.error e, s') →
      Ends host b steps i s (steps + 1) (.error e)
  | done {steps i : Nat} {s s' : Exec W} {inst : Inst} {o : Outcome} : b.insts[i]? = some inst →
      steps + 1 ≤ stepLimit → step host b inst i s = (.ok (.done o), s') →
      Ends host b steps i s (steps + 1) (.ok o)
  | outside {steps i t : Nat} {s s' : Exec W} {inst : Inst} : b.insts[i]? = some inst →
      steps + 1 ≤ stepLimit → step host b inst i s = (.ok (.jump t), s') → b.insts.length ≤ t →
      Ends host b steps i s (steps + 1)
        (.error (.ir (irErr i inst.op "the branch target is outside the block")))
  | next {steps i n : Nat} {s s' : Exec W} {inst : Inst} {r : Except Error Outcome} :
      b.insts[i]? = some inst → steps + 1 ≤ stepLimit → step host b inst i s = (.ok .next, s') →
      Ends host b (steps + 1) (i + 1) s' n r → Ends host b steps i s n r
  | jump {steps i t n : Nat} {s s' : Exec W} {inst : Inst} {r : Except Error Outcome} :
      b.insts[i]? = some inst → steps + 1 ≤ stepLimit → step host b inst i s = (.ok (.jump t), s') →
      t < b.insts.length → Ends host b (steps + 1) t s' n r → Ends host b steps i s n r

/-- **A run returns.** It ends after at most the limit's number of instructions, and not in
a panic. -/
def Returns (host : IrHost W) (b : Block) (slots : Slots) (world : W) : Prop :=
  ∃ n r, n ≤ stepLimit ∧ Ends host b 0 0 (start b slots world) n r ∧
    r = (run host b slots world).1 ∧ ∀ e, r = .error e → ¬ e.IsPanic

/-- The step divides, with sign, by a divisor that is not zero but whose low bits are. -/
structure DividesByLowZero (inst : Inst) (temps : List Val) : Prop where
  op : inst.op = .divS ∨ inst.op = .remS
  int : inst.ty.isInt = true
  dividend : ∃ t x, inst.srcs[0]? = some t ∧ temps[t]? = some x
  divisor : ∃ t y, inst.srcs[1]? = some t ∧ temps[t]? = some y ∧ y ≠ 0#128 ∧
    y &&& maskBits inst.ty.bits = 0#128

section Division

variable {inst : Inst} {i : Nat} {c : Core W}

theorem operand_cases (inst : Inst) (i k : Nat) (c : Core W) :
    (∃ t v, inst.srcs[k]? = some t ∧ c.temps[t]? = some v ∧
        exec (operand inst i k) c = (.ok v, c)) ∨
      ((∀ t v, inst.srcs[k]? = some t → c.temps[t]? ≠ some v) ∧
        ∃ what, exec (operand inst i k) c = (.error (.ir what), c)) := by
  have hread : exec (getThe (Core W) : CoreM W (Core W)) c = (.ok c, c) := rfl
  unfold operand src
  cases ht : inst.srcs[k]? with
  | none => exact .inr ⟨fun t v h => absurd h (by simp), _, rfl⟩
  | some t =>
    have hpure : exec (pure t : CoreM W Temp) c = (.ok t, c) := rfl
    rw [exec_bind_ok hpure, getTemp, exec_bind_ok hread]
    cases hv : c.temps[t]? with
    | none =>
      refine .inr ⟨fun u v hu h => ?_, _, rfl⟩
      cases hu
      rw [hv] at h
      cases h
    | some v => exact .inl ⟨t, v, rfl, hv, rfl⟩

theorem exec_requireInt (h : inst.ty.isInt = true) :
    exec (requireInt inst i : CoreM W Unit) c = (.ok (), c) := by
  rw [requireInt, if_pos h]
  rfl

theorem not_panics {Q : Prop} {m : CoreM W Step} {dsts : List Temp} (hm : Touches Q dsts m)
    (hQ : ¬ Q) (c : Core W) : ¬ ∃ e, (exec m c).1 = .error e ∧ e.IsPanic := by
  intro h
  obtain ⟨e, he, hp⟩ := h
  exact hQ (hm.calm c e he hp)

theorem exec_stepDiv (b : Block) {x y : Val} (hint : inst.ty.isInt = true)
    (hx : exec (operand inst i 0) c = (.ok x, c)) (hy : exec (operand inst i 1) c = (.ok y, c)) :
    ((∃ e, (exec (stepDiv b inst i) c).1 = .error e ∧ e.IsPanic) ↔
      (inst.op = .divS ∨ inst.op = .remS) ∧ y ≠ 0#128 ∧ y &&& maskBits inst.ty.bits = 0#128) := by
  have hpos := inst.ty.bits_pos
  rw [stepDiv, exec_bind_ok (exec_requireInt hint), exec_bind_ok hx, exec_bind_ok hy,
    ← sext_eq_zero hpos inst.ty.bits_le]
  split
  · rename_i hzero
    exact iff_of_false (not_panics (.fail _ _ _ : Touches False [] _) not_false c) fun h => h.2.1 hzero
  · rename_i hzero
    by_cases hlow : (inst.op = .divS ∨ inst.op = .remS) ∧ sext y inst.ty.bits = 0#128
    · obtain ⟨what, hwhat⟩ := Checked.divide_panics (x := x) hpos hlow
      rw [hwhat]
      exact iff_of_true ⟨_, rfl, trivial⟩ ⟨hlow.1, hzero, hlow.2⟩
    · have hok := Checked.ok_divide (x := x) hpos hzero hlow
      exact iff_of_false (not_panics (stays_writeChecked b inst i hok).toTouches not_false c)
        fun h => hlow ⟨h.1, h.2.2⟩

theorem stepDiv_panics (b : Block) :
    (∃ e, (exec (stepDiv b inst i) c).1 = .error e ∧ e.IsPanic) ↔
      DividesByLowZero inst c.temps := by
  cases hint : inst.ty.isInt with
  | false =>
    refine iff_of_false (fun h => ?_) fun h => by rw [h.int] at hint; cases hint
    have hreq : exec (requireInt inst i : CoreM W Unit) c =
        (.error (.ir (irErr i inst.op "arithmetic on a non-integer type")), c) := by
      rw [requireInt, if_neg (by simp [hint])]
      rfl
    obtain ⟨e, he, hp⟩ := h
    rw [stepDiv, exec_bind_error hreq] at he
    cases he
    exact hp
  | true =>
    have hreq := exec_requireInt (W := W) (i := i) (c := c) hint
    rcases operand_cases inst i 0 c with ⟨t, x, ht, hx, hget⟩ | ⟨hnone, what, hget⟩
    · rcases operand_cases inst i 1 c with ⟨u, y, hu, hy, hget'⟩ | ⟨hnone, what, hget'⟩
      · rw [exec_stepDiv b hint hget hget']
        constructor
        · intro h
          exact ⟨h.1, hint, ⟨t, x, ht, hx⟩, ⟨u, y, hu, hy, h.2⟩⟩
        · intro h
          obtain ⟨u', y', hu', hy', hne⟩ := h.divisor
          rw [hu] at hu'
          cases hu'
          rw [hy] at hy'
          cases hy'
          exact ⟨h.op, hne⟩
      · refine iff_of_false (fun h => ?_) fun h => ?_
        · obtain ⟨e, he, hp⟩ := h
          rw [stepDiv, exec_bind_ok hreq, exec_bind_ok hget, exec_bind_error hget'] at he
          cases he
          exact hp
        · obtain ⟨u, y, hu, hy, -⟩ := h.divisor
          exact hnone u y hu hy
    · refine iff_of_false (fun h => ?_) fun h => ?_
      · obtain ⟨e, he, hp⟩ := h
        rw [stepDiv, exec_bind_ok hreq, exec_bind_error hget] at he
        cases he
        exact hp
      · obtain ⟨t, x, ht, hx⟩ := h.dividend
        exact hnone t x ht hx

end Division

section Run

variable (host : TypedHost W) (b : Block)

theorem stepCallHelper_returns (inst : Inst) (i : Nat) (s : Exec W) (e : Error)
    (h : (stepCallHelper host.toIrHost b inst i s).1 = .error e) : ¬ e.IsPanic := by
  unfold stepCallHelper at h
  rw [runCore_eq] at h
  rcases hargs : exec (helperArgs inst i) s.core with ⟨e' | args, c⟩
  · rw [hargs] at h
    cases h
    exact (touches_helperArgs : Touches False [] _).calm s.core e (congrArg Prod.fst hargs)
  · rw [hargs] at h
    dsimp only at h
    unfold callHost at h
    generalize publish host.toIrHost b _ = s' at h
    have hhelper := host.helper_returns inst.aux args s'.slots s'.core.world
    rcases hcall : host.callHelper inst.aux args s'.slots s'.core.world with ⟨r, slots, world⟩
    rw [hcall] at h hhelper
    cases r with
    | error e' =>
      cases h
      exact hhelper e rfl
    | ok v => exact (writeResults_stays (Q := False) v.1 v.2).calm _ e h

theorem step_panics (inst : Inst) (i : Nat) (s : Exec W) :
    (∃ e, (step host.toIrHost b inst i s).1 = .error e ∧ e.IsPanic) ↔
      DividesByLowZero inst s.core.temps := by
  by_cases hdiv : inst.op = .divS ∨ inst.op = .remS
  · have hstep : step host.toIrHost b inst i s = runCore (stepDiv b inst i) s := by
      rcases hdiv with hop | hop
      all_goals simp only [step, coreStep, hop]
    rw [hstep]
    exact stepDiv_panics b
  · refine iff_of_false (fun hp => ?_) fun hz => hdiv hz.op
    obtain ⟨e, he, hp⟩ := hp
    unfold step at he
    split at he
    · exact (stays_write (Q := False) b inst i _).calm _ e he hp
    · exact stepCallHelper_returns host b inst i s e he hp
    · -- A boundary that points at no record is an error of the block.
      unfold stepInsnStart at he
      split at he
      · cases he
        exact hp
      · dsimp only at he
        split at he
        · cases he
        · cases he
    · exact hdiv ((coreStep_touches host.toIrHost b inst i).1.calm s.core e he hp)

theorem execute_panics (budget : Nat) {i : Nat} {s : Exec W} :
    (∃ e, (execute b (step host.toIrHost b) budget i s).1 = .error e ∧ e.IsPanic) ↔
      ∃ x ∈ trace b (step host.toIrHost b) budget i s, ∃ inst, b.insts[x.1]? = some inst ∧
        DividesByLowZero inst x.2.core.temps := by
  have hir : ∀ {m : String} {s : Exec W}, ¬ ∃ e,
      ((Except.error (.ir m), s) : Except Error Outcome × Exec W).1 = .error e ∧ e.IsPanic := by
    intro m s h
    obtain ⟨e, he, hp⟩ := h
    cases he
    exact hp
  induction budget generalizing i s with
  | zero =>
    unfold execute trace
    refine iff_of_false ?_ (by simp)
    split
    · exact hir
    · exact hir
  | succ budget ih =>
    unfold execute trace
    cases hi : b.insts[i]? with
    | none => exact iff_of_false hir (by simp)
    | some inst =>
      have hstep := step_panics host b inst i s
      dsimp only
      rcases hst : step host.toIrHost b inst i s with ⟨r, s'⟩
      rw [hst] at hstep
      -- This step panics, or the rest of the run does.
      have hsplit : ∀ rest : List (Nat × Exec W),
          (∃ x ∈ (i, s) :: rest, ∃ inst, b.insts[x.1]? = some inst ∧
            DividesByLowZero inst x.2.core.temps) ↔ DividesByLowZero inst s.core.temps ∨
            ∃ x ∈ rest, ∃ inst, b.insts[x.1]? = some inst ∧
              DividesByLowZero inst x.2.core.temps := by
        intro rest
        simp [hi]
      rw [hsplit, ← hstep]
      rcases r with e | (_ | t | o)
      · simp
      · have hrest := @ih (i + 1) s'
        refine hrest.trans ?_
        simp
      · dsimp only
        split
        · simp [Error.IsPanic]
        · have hrest := @ih t s'
          refine hrest.trans ?_
          simp
      · simp

theorem execute_ends (host : IrHost W) (left : Nat) {steps i : Nat} {s : Exec W}
    (hleft : steps + left = stepLimit) :
    ∃ n ≤ stepLimit, Ends host b steps i s n (execute b (step host b) left i s).1 := by
  induction left generalizing steps i s with
  | zero =>
    unfold execute
    cases hi : b.insts[i]? with
    | none => exact ⟨steps, by omega, .ranOff hi⟩
    | some inst => exact ⟨steps, by omega, .limit hi (by omega)⟩
  | succ left ih =>
    unfold execute
    cases hi : b.insts[i]? with
    | none => exact ⟨steps, by omega, .ranOff hi⟩
    | some inst =>
      dsimp only
      rcases hst : step host b inst i s with ⟨r, s'⟩
      rcases r with e | (_ | t | o)
      · exact ⟨steps + 1, by omega, .failed hi (by omega) hst⟩
      · obtain ⟨n, hn, hends⟩ := @ih (steps + 1) (i + 1) s' (by omega)
        exact ⟨n, hn, .next hi (by omega) hst hends⟩
      · dsimp only
        split
        · rename_i hout
          exact ⟨steps + 1, by omega, .outside hi (by omega) hst hout⟩
        · obtain ⟨n, hn, hends⟩ := @ih (steps + 1) t s' (by omega)
          exact ⟨n, hn, .jump hi (by omega) hst (by omega) hends⟩
      · exact ⟨steps + 1, by omega, .done hi (by omega) hst⟩

/-- **When a run returns.** For every block, verified or not, and every host: the run ends
within its limit of instructions with an outcome or an error, exactly when none of the
steps it takes is a signed division by a divisor that is not zero while its low bits, as
many as the instruction's type has, are. -/
theorem run_returns_iff (slots : Slots) (world : W) :
    Returns host.toIrHost b slots world ↔
      ∀ x ∈ trace b (step host.toIrHost b) stepLimit 0 (start b slots world),
        ∀ inst, b.insts[x.1]? = some inst → ¬ DividesByLowZero inst x.2.core.temps := by
  have hpanics := @execute_panics W host b stepLimit 0 (start b slots world)
  constructor
  · intro h x hx inst hi hz
    obtain ⟨e, he, hp⟩ := hpanics.mpr ⟨x, hx, inst, hi, hz⟩
    obtain ⟨n, r, -, -, hr, hcalm⟩ := h
    exact hcalm e (hr.trans he) hp
  · intro h
    obtain ⟨n, hn, hends⟩ :=
      @execute_ends W b host.toIrHost stepLimit 0 0 (start b slots world) (Nat.zero_add _)
    refine ⟨n, _, hn, hends, rfl, fun e he hp => ?_⟩
    obtain ⟨x, hx, inst, hi, hz⟩ := hpanics.mp ⟨e, he, hp⟩
    exact h x hx inst hi hz

end Run

def typedIdle : TypedHost Unit where
  toIrHost := idleHost
  helper_returns := fun _ _ _ _ _ h => by cases h

/-- A block the verifier accepts, with a 32-bit division by a 64-bit 2³². -/
def lowZero : Block :=
  { entryPc := 0
    key := 0
    insts :=
      [.plain .mov (some 0) [] (some (.int 5#128)) 0,
        .plain .mov (some 1) [] (some (.int 0x100000000#128)) 0,
        { Inst.plain .divS (some 2) [0, 1] none 0 with ty := .i32 },
        .plain .exitTb none [] none 0]
    marks := []
    types := [.i32, .i64, .i32] }

/-- The divisor is not zero, and as a 32-bit number it is. -/
theorem lowZero_panics :
    verify lowZero = .ok () ∧
      (run typedIdle.toIrHost lowZero (fun _ => 0#128) ()).1 =
        .error (.panic "attempt to divide by zero") ∧
      ¬ Returns typedIdle.toIrHost lowZero (fun _ => 0#128) () := by
  have hrun : (run typedIdle.toIrHost lowZero (fun _ => 0#128) ()).1 =
      .error (.panic "attempt to divide by zero") := by decide +kernel
  refine ⟨rfl, hrun, fun h => ?_⟩
  obtain ⟨n, r, -, -, hr, hcalm⟩ := h
  exact hcalm _ (hr.trans hrun) trivial

end Rsemu.Ir.Interp
