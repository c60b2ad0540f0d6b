import Rsemu.Ir.Block
import Mathlib.Data.List.Forall2

/-!
# Deferred bookkeeping

Generated code does nothing at a tick charge or at a guest instruction boundary. The compiler
collects them into an array of events, cuts the block into regions, and emits a flush that
replays a region's events in the gap before the instruction that ends it. A branch lands after
the flush at its target, so that the taken path does not replay what it jumped over.

`PlanInv` is the invariant of the pass: what a region has pending is what its instructions do,
and nothing that a flush point has behind it changes any more. Along a path, what has been
replayed with what is pending is what the interpreter has done; nothing is pending where the
host can look.
-/

namespace Rsemu.Jit

open Ir

/-- What an instruction means to the bookkeeping: a charge, or a boundary with whether a
terminator follows it. -/
inductive Act where
  | charge (ticks : BitVec 64)
  | insnStart (mark : Nat) (exit : Bool)
  deriving DecidableEq

/-- A deferred event. A boundary carries the charge fused into it, zero for none. -/
inductive Event where
  | charge (ticks : BitVec 64)
  | boundary (mark : Nat) (exit : Bool) (ticks : BitVec 64)

def Event.replay : Event → List Act
  | .charge ticks => [.charge ticks]
  | .boundary mark exit ticks =>
    .insnStart mark exit :: if ticks ≠ 0#64 then [.charge ticks] else []

def replayAll (events : List Event) : List Act := events.flatMap Event.replay

/-- Why a block is not compiled. -/
inductive Refusal where
  | shape (what : String)

/-- Whether the backend has a lowering for it. -/
def compiles : Opcode → Bool
  | .mov | .getSlot | .extS | .extZ | .trunc | .bswap | .deposit | .extract
  | .add | .sub | .mul | .neg | .mulu2 | .muls2
  | .and | .or | .xor | .not | .andc | .shl | .shr | .sar
  | .rotl | .rotr | .rotlc | .rotrc | .clz | .ctz | .popcount
  | .setcond | .movcond | .brcond | .ld | .st | .fence
  | .gotoTb | .exitTb | .lookupAndGoto | .charge | .insnStart => true
  | _ => false

def callsInside : Opcode → Bool
  | .ld | .st | .getSlot => true
  | _ => false

/-- Which events are deferred, and where they are replayed. -/
structure Plan where
  events : List Event
  /-- By instruction, the range of events a flush ahead of it replays. -/
  flushes : List (Option (Nat × Nat))

/-- The plan so far. -/
structure PlanState where
  events : List Event
  flushes : List (Option (Nat × Nat))
  /-- Where the events of the region begin. -/
  region : Nat

def isTarget (b : Block) (i : Nat) : Bool :=
  b.insts.any fun inst => decide (inst.op = .brcond ∧ inst.aux = i)

def endsRegion (b : Block) (i : Nat) (inst : Inst) : Bool :=
  isTarget b i || callsInside inst.op || decide (inst.op = .fence) ||
    decide (inst.op = .brcond) || inst.op.isTerminator

def cut (b : Block) (i : Nat) (inst : Inst) (s : PlanState) : PlanState :=
  if endsRegion b i inst then
    { s with
      flushes := s.flushes ++ [if s.region < s.events.length then some (s.region, s.events.length)
        else none]
      region := s.events.length }
  else { s with flushes := s.flushes ++ [none] }

/-- A charge, fused into a boundary right before it. -/
def addCharge (region : Nat) (events : List Event) (ticks : BitVec 64) : List Event :=
  match events.getLast? with
  | some (.boundary mark exit slot) =>
    if region < events.length ∧ ticks ≠ 0#64 ∧ slot = 0#64 then
      events.dropLast ++ [.boundary mark exit ticks]
    else events ++ [.charge ticks]
  | _ => events ++ [.charge ticks]

/-- One instruction of the pass. -/
def planStep (b : Block) (i : Nat) (inst : Inst) (s : PlanState) : Except Refusal PlanState :=
  let s := cut b i inst s
  if inst.op = .charge then
    match inst.imm with
    | none => .error (.shape "a charge needs a tick count")
    | some c => .ok { s with events := addCharge s.region s.events (c.bits.setWidth 64) }
  else if inst.op = .insnStart then
    match b.marks[inst.aux]? with
    | none => .error (.shape "the boundary marker points at no record")
    | some _ =>
      .ok { s with events := s.events ++ [.boundary inst.aux (b.terminatorFollows i) 0#64] }
  else .ok s

def planFrom (b : Block) : Nat → PlanState → List Inst → Except Refusal PlanState
  | _, s, [] => .ok s
  | i, s, inst :: rest =>
    match planStep b i inst s with
    | .error e => .error e
    | .ok s => planFrom b (i + 1) s rest

def plan (b : Block) : Except Refusal Plan :=
  match planFrom b 0 ⟨[], [], 0⟩ b.insts with
  | .error e => .error e
  | .ok s => .ok ⟨s.events, s.flushes⟩

def Plan.flush (p : Plan) (i : Nat) : List Act :=
  (p.flushes[i]?.getD none).elim [] fun range => replayAll ((p.events.take range.2).drop range.1)

def acts (b : Block) (i : Nat) (inst : Inst) : List Act :=
  if inst.op = .charge then (inst.imm.map fun c => Act.charge (c.bits.setWidth 64)).toList
  else if inst.op = .insnStart then [.insnStart inst.aux (b.terminatorFollows i)]
  else []

def interpTrace (b : Block) (taken : Nat → Bool) : Nat → Nat → List Act → List (Nat × List Act)
  | 0, _, _ => []
  | steps + 1, i, done =>
    match b.insts[i]? with
    | none => []
    | some inst =>
      (i, done) :: (successor taken i inst).elim [] fun next =>
        interpTrace b taken steps next (done ++ acts b i inst)

/-- The instructions of a path, each with what the generated code has replayed before it.
A taken branch lands after the flush. -/
def jitTrace (b : Block) (p : Plan) (taken : Nat → Bool) :
    Nat → Nat → Bool → List Act → List (Nat × List Act)
  | 0, _, _, _ => []
  | steps + 1, i, jumped, replayed =>
    match b.insts[i]? with
    | none => []
    | some inst =>
      let replayed := if jumped then replayed else replayed ++ p.flush i
      (i, replayed) :: (successor taken i inst).elim [] fun next =>
        jitTrace b p taken steps next (decide (inst.op = .brcond ∧ taken i = true)) replayed

/-- Where the host can look: slot reads, accesses, atomics, fences, helper calls and the
instructions that leave. -/
def hostObservable (op : Opcode) : Bool :=
  match op with
  | .getSlot | .ld | .st | .cmpxchg | .xchg | .ldExcl | .stExcl | .fence | .callHelper => true
  | op => op.isFetch || op.isTerminator

theorem replayAll_append (x y : List Event) : replayAll (x ++ y) = replayAll x ++ replayAll y :=
  List.flatMap_append

theorem addCharge_spec {region : Nat} {events : List Event} (h : region ≤ events.length)
    (ticks : BitVec 64) :
    (addCharge region events ticks).take region = events.take region ∧
      events.length ≤ (addCharge region events ticks).length ∧
      replayAll ((addCharge region events ticks).drop region) =
        replayAll (events.drop region) ++ [.charge ticks] := by
  have hpush : (events ++ [Event.charge ticks]).take region = events.take region ∧
      events.length ≤ (events ++ [Event.charge ticks]).length ∧
      replayAll ((events ++ [Event.charge ticks]).drop region) =
        replayAll (events.drop region) ++ [.charge ticks] := by
    refine ⟨List.take_append_of_le_length h, by simp, ?_⟩
    rw [List.drop_append_of_le_length h, replayAll_append]
    rfl
  unfold addCharge
  split
  · rename_i mark exit slot hlast
    split
    · rename_i hfuse
      obtain ⟨hopen, hticks, rfl⟩ := hfuse
      obtain ⟨front, rfl⟩ := List.getLast?_eq_some_iff.mp hlast
      have hle : region ≤ front.length := by
        simp only [List.length_append, List.length_singleton] at hopen
        omega
      rw [List.dropLast_concat]
      refine ⟨?_, by simp, ?_⟩
      · rw [List.take_append_of_le_length hle, List.take_append_of_le_length hle]
      · rw [List.drop_append_of_le_length hle, List.drop_append_of_le_length hle,
          replayAll_append, replayAll_append, List.append_assoc]
        simp [replayAll, Event.replay, hticks]
    · exact hpush
  · exact hpush

/-- What one instruction of the pass does. -/
structure Planned (b : Block) (i : Nat) (inst : Inst) (s s' : PlanState) : Prop where
  region : s'.region = if endsRegion b i inst then s.events.length else s.region
  flushes : s'.flushes = s.flushes ++
    [if endsRegion b i inst ∧ s.region < s.events.length then some (s.region, s.events.length)
      else none]
  /-- What a region has behind it stays. -/
  frozen : s'.events.take s'.region = s.events.take s'.region
  grows : s.events.length ≤ s'.events.length
  pending : replayAll (s'.events.drop s'.region) =
    replayAll (s.events.drop s'.region) ++ acts b i inst

variable {b : Block}

theorem planStep_ok {i : Nat} {inst : Inst} {s s' : PlanState} (h : planStep b i inst s = .ok s')
    (hle : s.region ≤ s.events.length) : Planned b i inst s s' := by
  have hevents : (cut b i inst s).events = s.events := by
    unfold cut
    split <;> rfl
  have hregion : (cut b i inst s).region =
      if endsRegion b i inst then s.events.length else s.region := by
    unfold cut
    split <;> rfl
  have hflushes : (cut b i inst s).flushes = s.flushes ++
      [if endsRegion b i inst ∧ s.region < s.events.length then
        some (s.region, s.events.length) else none] := by
    unfold cut
    split
    · rename_i hends
      simp [hends]
    · rename_i hends
      simp [hends]
  have hcut : (cut b i inst s).region ≤ s.events.length := by
    rw [hregion]
    split
    · exact Nat.le_refl _
    · exact hle
  simp only [planStep] at h
  split at h
  · rename_i hop
    split at h
    · cases h
    · rename_i c himm
      cases h
      obtain ⟨hfrozen, hgrows, hpending⟩ :=
        addCharge_spec hcut (c.bits.setWidth 64)
      refine ⟨hregion, hflushes, ?_, ?_, ?_⟩
      · simpa [hevents] using hfrozen
      · simpa [hevents] using hgrows
      · simpa [hevents, acts, hop, himm] using hpending
  · rename_i hop
    split at h
    · rename_i hstart
      split at h
      · cases h
      · cases h
        refine ⟨hregion, hflushes, ?_, ?_, ?_⟩
        · simp only [hevents]
          exact List.take_append_of_le_length hcut
        · simp [hevents]
        · simp only [hevents]
          rw [List.drop_append_of_le_length hcut, replayAll_append]
          simp [replayAll, Event.replay, acts, hstart]
    · rename_i hstart
      cases h
      refine ⟨hregion, hflushes, ?_, ?_, ?_⟩
      · rw [hevents]
      · rw [hevents]
      · simp [hevents, acts, hop, hstart]

/-- The states of the pass, one before every instruction and one after the last. -/
structure Stages (b : Block) (stage : Nat → PlanState) : Prop where
  start : stage 0 = ⟨[], [], 0⟩
  step : ∀ (i : Nat) (inst : Inst), b.insts[i]? = some inst →
    planStep b i inst (stage i) = .ok (stage (i + 1))

theorem planFrom_stages {f : PlanState} (rest : List Inst) {k : Nat} {s : PlanState}
    (h : planFrom b k s rest = .ok f) (hrest : b.insts.drop k = rest) (hk : k ≤ b.insts.length) :
    ∃ stage : Nat → PlanState, stage k = s ∧ stage b.insts.length = f ∧
      ∀ (i : Nat) (inst : Inst), k ≤ i → b.insts[i]? = some inst →
        planStep b i inst (stage i) = .ok (stage (i + 1)) := by
  induction rest generalizing k s with
  | nil =>
    have hlen := List.drop_eq_nil_iff.mp hrest
    obtain rfl : k = b.insts.length := by omega
    cases h
    refine ⟨fun _ => f, rfl, rfl, fun i inst hki hi => ?_⟩
    have := (List.getElem?_eq_some_iff.mp hi).1
    omega
  | cons head tail ih =>
    unfold planFrom at h
    split at h
    · exact absurd h (by simp)
    · rename_i s' hs'
      have hhead : b.insts[k]? = some head := by
        have := congrArg (fun l => l[0]?) hrest
        simpa using this
      have htail : b.insts.drop (k + 1) = tail := by
        rw [← List.drop_drop, hrest, List.drop_one, List.tail_cons]
      have hlt := (List.getElem?_eq_some_iff.mp hhead).1
      obtain ⟨stage, hk', hend, hstep⟩ := ih h htail (by omega)
      -- The stages from the next instruction on, with this state put before them.
      refine ⟨fun i => if i = k then s else stage i, by simp, ?_, fun i inst hki hi => ?_⟩
      · simp only [if_neg (show b.insts.length ≠ k by omega)]
        exact hend
      · by_cases hik : i = k
        · subst hik
          rw [hhead] at hi
          cases hi
          simp only [if_true, if_neg (show i + 1 ≠ i by omega), hk']
          exact hs'
        · simp only [if_neg hik, if_neg (show i + 1 ≠ k by omega)]
          exact hstep i inst (by omega) hi

theorem planStep_total (hb : Verified b) {i : Nat} {inst : Inst} (hi : b.insts[i]? = some inst)
    (s : PlanState) : ∃ s', planStep b i inst s = .ok s' := by
  simp only [planStep]
  split
  · rename_i hop
    obtain ⟨c, hc⟩ := hb.charged i inst hi hop
    simp [hc]
  · split
    · rename_i hop
      obtain ⟨mark, hmark⟩ := hb.marked i inst hi hop
      simp [hmark]
    · exact ⟨_, rfl⟩

theorem planFrom_total (hb : Verified b) (rest : List Inst) {k : Nat} (s : PlanState)
    (hrest : b.insts.drop k = rest) : ∃ f, planFrom b k s rest = .ok f := by
  induction rest generalizing k s with
  | nil => exact ⟨s, rfl⟩
  | cons head tail ih =>
    have hhead : b.insts[k]? = some head := by
      have := congrArg (fun l => l[0]?) hrest
      simpa using this
    have htail : b.insts.drop (k + 1) = tail := by
      rw [← List.drop_drop, hrest, List.drop_one, List.tail_cons]
    obtain ⟨s', hs'⟩ := planStep_total hb hhead s
    obtain ⟨f, hf⟩ := ih s' htail
    exact ⟨f, by rw [planFrom, hs']; exact hf⟩

theorem plan_stages (hb : Verified b) :
    ∃ stage, Stages b stage ∧
      plan b = .ok ⟨(stage b.insts.length).events, (stage b.insts.length).flushes⟩ := by
  obtain ⟨f, hf⟩ := planFrom_total hb b.insts ⟨[], [], 0⟩ List.drop_zero
  obtain ⟨stage, hstart, hend, hstep⟩ := planFrom_stages b.insts hf List.drop_zero (Nat.zero_le _)
  refine ⟨stage, ⟨hstart, fun i inst hi => hstep i inst (Nat.zero_le _) hi⟩, ?_⟩
  simp [plan, hf, hend]

namespace Stages

variable {b : Block} {stage : Nat → PlanState}

variable {i : Nat} {inst : Inst}

theorem region_le (h : Stages b stage) (hi : i ≤ b.insts.length) :
    (stage i).region ≤ (stage i).events.length := by
  induction i with
  | zero => simp [h.start]
  | succ i ih =>
    have hstep := planStep_ok (h.step i b.insts[i] (List.getElem?_eq_getElem hi))
      (ih (by omega))
    have hgrows := hstep.grows
    rw [hstep.region]
    split
    · exact hgrows
    · omega

theorem planned (h : Stages b stage) (hi : b.insts[i]? = some inst) :
    Planned b i inst (stage i) (stage (i + 1)) :=
  planStep_ok (h.step i inst hi) (h.region_le (Nat.le_of_lt (List.getElem?_eq_some_iff.mp hi).1))

theorem frozen (h : Stages b stage) {j : Nat} (hij : i ≤ j) (hj : j ≤ b.insts.length) :
    (stage i).region ≤ (stage j).region ∧
      (stage j).events.take (stage i).region = (stage i).events.take (stage i).region := by
  induction j with
  | zero =>
    obtain rfl : i = 0 := by omega
    exact ⟨Nat.le_refl _, rfl⟩
  | succ j ih =>
    by_cases he : i = j + 1
    · subst he
      exact ⟨Nat.le_refl _, rfl⟩
    · obtain ⟨hmono, htake⟩ := ih (by omega) (by omega)
      have hstep := h.planned (List.getElem?_eq_getElem hj)
      have hle := h.region_le (show j ≤ b.insts.length by omega)
      have hnext : (stage j).region ≤ (stage (j + 1)).region := by
        rw [hstep.region]
        split
        · exact hle
        · exact Nat.le_refl _
      refine ⟨Nat.le_trans hmono hnext, ?_⟩
      -- What lies before the old region lies before the new one.
      have hcut : ∀ l : List Event, l.take (stage i).region =
          (l.take (stage (j + 1)).region).take (stage i).region := by
        intro l
        rw [List.take_take, Nat.min_eq_left (Nat.le_trans hmono hnext)]
      rw [← htake, hcut, hstep.frozen, ← hcut]

theorem length_flushes (h : Stages b stage) (hi : i ≤ b.insts.length) :
    (stage i).flushes.length = i := by
  induction i with
  | zero => simp [h.start]
  | succ i ih =>
    rw [(h.planned (List.getElem?_eq_getElem hi)).flushes, List.length_append, ih (by omega)]
    rfl

theorem getElem?_flushes (h : Stages b stage) {j : Nat} (hi : b.insts[i]? = some inst) (hij : i < j)
    (hj : j ≤ b.insts.length) :
    (stage j).flushes[i]? =
      some (if endsRegion b i inst ∧ (stage i).region < (stage i).events.length then
        some ((stage i).region, (stage i).events.length) else none) := by
  induction j with
  | zero => omega
  | succ j ih =>
    have hlen := h.length_flushes (show j ≤ b.insts.length by omega)
    by_cases he : i = j
    · subst he
      rw [(h.planned hi).flushes, List.getElem?_append_right (by omega), hlen, Nat.sub_self]
      rfl
    · rw [(h.planned (List.getElem?_eq_getElem hj)).flushes,
        List.getElem?_append_left (by omega)]
      exact ih (by omega) (by omega)

def pending (stage : Nat → PlanState) (i : Nat) : List Act :=
  replayAll ((stage i).events.drop (stage i).region)

def deferred (stage : Nat → PlanState) (i : Nat) : List Act :=
  replayAll ((stage i).events.drop (stage (i + 1)).region)

theorem deferred_eq_nil (h : Stages b stage) (hi : b.insts[i]? = some inst)
    (hends : endsRegion b i inst = true) : deferred stage i = [] := by
  unfold deferred
  rw [(h.planned hi).region, if_pos hends, List.drop_length]
  rfl

theorem flush_append_deferred (h : Stages b stage) (hi : b.insts[i]? = some inst) :
    Plan.flush ⟨(stage b.insts.length).events, (stage b.insts.length).flushes⟩ i ++
      deferred stage i = pending stage i := by
  have hlt := (List.getElem?_eq_some_iff.mp hi).1
  have hentry := h.getElem?_flushes hi hlt (Nat.le_refl _)
  have hregion := (h.planned hi).region
  unfold Plan.flush
  simp only [hentry, Option.getD_some]
  cases hends : endsRegion b i inst with
  | false =>
    have hsame : (stage (i + 1)).region = (stage i).region := by simp [hregion, hends]
    simp [deferred, pending, hsame]
  | true =>
    rw [h.deferred_eq_nil hi hends, List.append_nil]
    by_cases hsome : (stage i).region < (stage i).events.length
    · -- The events of the region are in the finished plan as they are now.
      have hhere : (stage (i + 1)).region = (stage i).events.length := by simp [hregion, hends]
      have hfinal := (h.frozen (show i + 1 ≤ b.insts.length by omega) (Nat.le_refl _)).2
      rw [(h.planned hi).frozen, hhere, List.take_length] at hfinal
      simp only [hsome, and_self, if_true, Option.elim_some]
      rw [hfinal]
      rfl
    · have hnil : (stage i).events.drop (stage i).region = [] :=
        List.drop_eq_nil_of_le (Nat.not_lt.mp hsome)
      simp [hsome, pending, hnil, replayAll]

theorem deferred_append_acts (h : Stages b stage) (hi : b.insts[i]? = some inst) :
    deferred stage i ++ acts b i inst = pending stage (i + 1) :=
  (h.planned hi).pending.symm

end Stages

/-- Two traces go over the same instructions, and agree at those that are looked at. -/
def AgreeWhere (b : Block) (look : Nat → Inst → Prop) (x y : List (Nat × List Act)) : Prop :=
  List.Forall₂ (fun x y => x.1 = y.1 ∧ ∀ inst, b.insts[x.1]? = some inst → look x.1 inst →
    x.2 = y.2) x y

theorem endsRegion_target {i : Nat} {inst : Inst} (hi : b.insts[i]? = some inst)
    (hop : inst.op = .brcond) (target : Inst) : endsRegion b inst.aux target = true := by
  have htarget : isTarget b inst.aux = true :=
    List.any_eq_true.mpr ⟨inst, List.mem_of_getElem? hi, by simp [hop]⟩
  simp [endsRegion, htarget]

theorem traces_agree {stage : Nat → PlanState} (h : Stages b stage) (taken : Nat → Bool)
    (steps : Nat) {i : Nat} {jumped : Bool} {replayed done : List Act}
    (hjump : jumped = true → replayed = done ∧ ∀ inst, b.insts[i]? = some inst →
      endsRegion b i inst = true)
    (hfall : jumped = false → replayed ++ Stages.pending stage i = done) :
    AgreeWhere b (fun i inst => endsRegion b i inst = true)
      (jitTrace b ⟨(stage b.insts.length).events, (stage b.insts.length).flushes⟩ taken steps i
        jumped replayed)
      (interpTrace b taken steps i done) := by
  induction steps generalizing i jumped replayed done with
  | zero => exact .nil
  | succ steps ih =>
    unfold jitTrace interpTrace
    cases hi : b.insts[i]? with
    | none => exact .nil
    | some inst =>
      dsimp only
      generalize hp : (⟨(stage b.insts.length).events, (stage b.insts.length).flushes⟩ : Plan) = p
        at ih ⊢
      generalize hr : (if jumped = true then replayed else replayed ++ p.flush i) = replayed'
      -- After the flush, or past it.
      have hmid : replayed' ++ Stages.deferred stage i = done := by
        cases jumped with
        | true =>
          obtain ⟨hdone, hends⟩ := hjump rfl
          rw [← hr, if_pos rfl, h.deferred_eq_nil hi (hends inst hi), List.append_nil, hdone]
        | false =>
          rw [← hr, if_neg (by simp), List.append_assoc, ← hp, h.flush_append_deferred hi]
          exact hfall rfl
      refine .cons ⟨rfl, fun inst' hi' hends => ?_⟩ ?_
      · rw [hi] at hi'
        cases hi'
        rw [h.deferred_eq_nil hi hends, List.append_nil] at hmid
        exact hmid
      · cases hs : successor taken i inst with
        | none => exact .nil
        | some next =>
          unfold successor at hs
          split at hs
          · exact absurd hs (by simp)
          · split at hs
            · -- The branch is taken: nothing was pending, and nothing is skipped.
              rename_i hbr
              cases hs
              refine ih ?_ ?_
              · intro _
                have hends : endsRegion b i inst = true := by simp [endsRegion, hbr.1]
                rw [h.deferred_eq_nil hi hends, List.append_nil] at hmid
                refine ⟨by simp [hmid, acts, hbr.1], fun target _ => ?_⟩
                exact endsRegion_target hi hbr.1 target
              · intro hno
                simp [hbr] at hno
            · rename_i hbr
              cases hs
              refine ih ?_ ?_
              · intro hyes
                exact absurd (by simpa using hyes) hbr
              · intro _
                rw [← h.deferred_append_acts hi, ← List.append_assoc, hmid]

theorem endsRegion_observable {i : Nat} {inst : Inst} (hobs : hostObservable inst.op = true)
    (hcomp : compiles inst.op = true) : endsRegion b i inst = true := by
  unfold endsRegion
  cases hop : inst.op <;> simp_all [hostObservable, compiles, callsInside, Opcode.isFetch,
    Opcode.isTerminator]

/-- **The deferred bookkeeping is exact.** The pass goes through on every verified block,
and along every path the charges and boundaries replayed by the flush points are, at every
instruction the host can observe and the backend lowers, the charges and boundaries the
interpreter has executed on the same path, in the same order. -/
theorem deferred_bookkeeping_exact {b : Block} (hv : verify b = .ok ()) :
    ∃ p, plan b = .ok p ∧ ∀ (taken : Nat → Bool) (steps : Nat),
      AgreeWhere b (fun _ inst => hostObservable inst.op = true ∧ compiles inst.op = true)
        (jitTrace b p taken steps 0 false []) (interpTrace b taken steps 0 []) := by
  obtain ⟨stage, hstages, hplan⟩ := plan_stages (verify_ok hv)
  refine ⟨_, hplan, fun taken steps => ?_⟩
  have hagree := @traces_agree b stage hstages taken steps 0 false [] [] (by simp)
    (by simp [Stages.pending, hstages.start, replayAll])
  refine hagree.imp ?_
  rintro x y ⟨hindex, hlook⟩
  exact ⟨hindex, fun inst hi ⟨hobs, hcomp⟩ => hlook inst hi (endsRegion_observable hobs hcomp)⟩

/-- Two guest instructions, where the first may jump over the second's boundary and charge
to the slot read they share. -/
def branchy : Block :=
  { entryPc := 0
    key := 0
    insts :=
      [.plain .insnStart none [] none 0,
        .plain .charge none [] (some (.int 1#128)) 0,
        .plain .mov (some 0) [] (some (.int 1#128)) 0,
        .plain .brcond none [0] none 6,
        .plain .insnStart none [] none 1,
        .plain .charge none [] (some (.int 2#128)) 0,
        .plain .getSlot (some 1) [] none 3,
        .plain .exitTb none [] none 0]
    marks := [⟨0, 4, 0, []⟩, ⟨4, 8, 1, []⟩]
    types := [.i1, .i64] }

theorem deferred_bookkeeping_exact_branchy :
    verify branchy = .ok () ∧ ∃ p, plan branchy = .ok p ∧ ∀ (taken : Nat → Bool) (steps : Nat),
      AgreeWhere branchy (fun _ inst => hostObservable inst.op = true ∧ compiles inst.op = true)
        (jitTrace branchy p taken steps 0 false []) (interpTrace branchy taken steps 0 []) :=
  ⟨rfl, deferred_bookkeeping_exact rfl⟩

/-- A guest instruction that calls a helper, which the backend does not lower. -/
def helperCall : Block :=
  { entryPc := 0
    key := 0
    insts :=
      [.plain .insnStart none [] none 0,
        .plain .charge none [] (some (.int 1#128)) 0,
        .plain .callHelper none [] none 0,
        .plain .exitTb none [] none 0]
    marks := [⟨0, 4, 0, []⟩]
    types := [] }

/-- A helper call is no flush point of the pass: nothing has been replayed when it is
reached. Such a block is refused later, when its call has no lowering. -/
theorem deferred_at_helperCall :
    ¬ ∀ b : Block, verify b = .ok () → ∃ p, plan b = .ok p ∧
      ∀ (taken : Nat → Bool) (steps : Nat),
        AgreeWhere b (fun _ inst => hostObservable inst.op = true)
          (jitTrace b p taken steps 0 false []) (interpTrace b taken steps 0 []) := by
  intro h
  obtain ⟨p, hp, hagree⟩ := h helperCall rfl
  cases hp
  have hthree := hagree (fun _ => false) 3
  -- The third instruction is the call.
  have hcall := (List.forall₂_iff_get.mp hthree).2 2 (by decide) (by decide)
  exact absurd (hcall.2 _ rfl rfl) (by decide)

end Rsemu.Jit
