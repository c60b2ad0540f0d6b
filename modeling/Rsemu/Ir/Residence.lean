import Rsemu.Ir.Regalloc

/-!
# Running a block out of registers

Two ways to run a block: with one frame slot for every temporary, and with every temporary in
the home an allocation gave it. In the second, a result is written to its register and through
to the frame when a boundary names it, and a call into the host leaves whatever it likes in
the volatile registers, in the gap before an instruction or between its reads and its writes.

What an instruction computes is left open: any function of its operands, of its place and of a
world it may change. `run_eq` says that under a sound allocation the two runs read the same
operands at every instruction and find the same values at every boundary.
-/

namespace Rsemu.Ir

variable {σ V : Type}

/-- What an instruction does, by its index and operands. -/
abbrev Effect (σ V : Type) := σ → Nat → List V → σ × V × V

/-- What can be seen of one step. -/
structure Seen (V : Type) where
  /-- Its index. -/
  index : Nat
  operands : List V
  /-- What the homes of the temporaries named at the boundary hold when it is reached. -/
  held : List V
  /-- What the boundary's record materializes from the frame. -/
  live : List V

def Block.heldAt (b : Block) (inst : Inst) : List Temp :=
  (b.named inst).filter fun t => t ∉ inst.dsts

def putFrame (frame : Temp → V) (dst : Option Temp) (v : V) : Temp → V :=
  fun t => if dst = some t then v else frame t

/-- What is seen when every temporary is in its slot. -/
def frameRun (b : Block) (effect : Effect σ V) (taken : Nat → Bool) :
    Nat → Nat → σ → (Temp → V) → List (Seen V)
  | 0, _, _, _ => []
  | steps + 1, i, world, frame =>
    match b.insts[i]? with
    | none => []
    | some inst =>
      let operands := inst.srcs.map frame
      let out := effect world i operands
      let frame' := putFrame (putFrame frame inst.dst out.2.1) inst.dst2 out.2.2
      ⟨i, operands, (b.heldAt inst).map frame, (b.named inst).map frame'⟩ ::
        (successor taken i inst).elim [] fun next =>
          frameRun b effect taken steps next out.1 frame'

/-- The registers and the frame. -/
structure Machine (V : Type) where
  regs : Nat → V
  frame : Temp → V

namespace Machine

def get (a : Allocation) (m : Machine V) (t : Temp) : V :=
  match a.home t with
  | .frame => m.frame t
  | .reg r => m.regs r

def put (a : Allocation) (m : Machine V) (dst : Option Temp) (v : V) : Machine V where
  regs r := if dst.any (fun t => decide (a.home t = .reg r)) then v else m.regs r
  frame t := if dst = some t ∧ a.frameBacked t = true then v else m.frame t

def call (banks : RegBanks) (junk : Nat → V) (m : Machine V) : Machine V :=
  { m with regs := fun r => if r ∈ banks.volatile then junk r else m.regs r }

def callIf (banks : RegBanks) (calls : List Bool) (junk : Nat → V) (i : Nat) (m : Machine V) :
    Machine V :=
  if calls[i]? = some true then m.call banks junk else m

end Machine

/-- What the calls of a run leave in the volatile registers: by instruction, in the gap
before it and inside it. -/
structure Junk (V : Type) where
  before : Nat → Nat → V
  inside : Nat → Nat → V

/-- What is seen when each is in its home. -/
def regRun (b : Block) (banks : RegBanks) (sites : CallSites) (a : Allocation)
    (effect : Effect σ V) (taken : Nat → Bool) (junk : Junk V) :
    Nat → Nat → σ → Machine V → List (Seen V)
  | 0, _, _, _ => []
  | steps + 1, i, world, m =>
    match b.insts[i]? with
    | none => []
    | some inst =>
      let entered := m.callIf banks sites.before (junk.before i) i
      let operands := inst.srcs.map (entered.get a)
      let out := effect world i operands
      let called := entered.callIf banks sites.inside (junk.inside i) i
      let m' := (called.put a inst.dst out.2.1).put a inst.dst2 out.2.2
      ⟨i, operands, (b.heldAt inst).map (entered.get a), (b.named inst).map m'.frame⟩ ::
        (successor taken i inst).elim [] fun next =>
          regRun b banks sites a effect taken junk steps next out.1 m'

/-- The machine holds what the frame holds: in the slots that back a value always, and in
the registers for the temporaries that are needed. -/
structure Agrees (a : Allocation) (need : Temp → Prop) (frame : Temp → V) (m : Machine V) :
    Prop where
  backed : ∀ t, a.frameBacked t = true → m.frame t = frame t
  regs : ∀ t r, need t → a.home t = .reg r → m.regs r = frame t

theorem frameBacked_of_frame {a : Allocation} {t : Temp} (h : a.home t = .frame) :
    a.frameBacked t = true := by
  simp [Allocation.frameBacked, h]

namespace Agrees

variable {a : Allocation} {need need' : Temp → Prop} {frame : Temp → V} {m : Machine V}

theorem get_eq (h : Agrees a need frame m) {t : Temp} (ht : need t) : m.get a t = frame t := by
  unfold Machine.get
  split
  · rename_i hh
    exact h.backed t (frameBacked_of_frame hh)
  · rename_i r hh
    exact h.regs t r ht hh

theorem mono (h : Agrees a need frame m)
    (hsub : ∀ t r, a.home t = .reg r → need' t → need t) : Agrees a need' frame m :=
  ⟨h.backed, fun t r ht hh => h.regs t r (hsub t r hh ht) hh⟩

theorem callIf (h : Agrees a need frame m) {banks : RegBanks} {calls : List Bool} {i : Nat}
    (junk : Nat → V) (hsub : ∀ t, need' t → need t)
    (hsaved : calls[i]? = some true → ∀ t r, need' t → a.home t = .reg r → r ∉ banks.volatile) :
    Agrees a need' frame (m.callIf banks calls junk i) := by
  unfold Machine.callIf
  split
  · rename_i hcall
    refine ⟨h.backed, fun t r ht hh => ?_⟩
    show (if r ∈ banks.volatile then junk r else m.regs r) = frame t
    rw [if_neg (hsaved hcall t r ht hh)]
    exact h.regs t r (hsub t ht) hh
  · exact ⟨h.backed, fun t r ht hh => h.regs t r (hsub t ht) hh⟩

theorem put (h : Agrees a need frame m) (dst : Option Temp) (v : V)
    (hneed : ∀ t, need' t → dst = some t ∨ need t)
    (hother : ∀ t u r, need' t → dst = some u → t ≠ u → a.home t = .reg r → a.home u ≠ .reg r) :
    Agrees a need' (putFrame frame dst v) (m.put a dst v) := by
  refine ⟨fun t ht => ?_, fun t r ht hh => ?_⟩
  · simp only [Machine.put, putFrame, ht, and_true]
    split
    · rfl
    · exact h.backed t ht
  · simp only [Machine.put, putFrame]
    cases dst with
    | none =>
      exact h.regs t r ((hneed t ht).resolve_left (by simp)) hh
    | some u =>
      by_cases hut : u = t
      · subst hut
        simp [hh]
      · have hu := hother t u r ht rfl (fun he => hut he.symm) hh
        rw [if_neg (by simpa using hu), if_neg (by simpa using hut)]
        exact h.regs t r ((hneed t ht).resolve_left (by simpa using hut)) hh

end Agrees

/-- What is needed on reaching instruction `i`: what was assigned before and is used there
or later. -/
def Block.NeededAt (b : Block) (i : Nat) (t : Temp) : Prop :=
  (∃ d < i, b.Assigns d t) ∧ ∃ j, i ≤ j ∧ b.Uses j t

/-- Assigned before instruction `i`, and used after it. -/
def Block.NeededPast (b : Block) (i : Nat) (t : Temp) : Prop :=
  (∃ d < i, b.Assigns d t) ∧ ∃ j, i < j ∧ b.Uses j t

section Step

variable {b : Block} {banks : RegBanks} {sites : CallSites} {a : Allocation} {i : Nat}
  {inst : Inst} {frame : Temp → V} {m : Machine V}

theorem saved_before (hb : Verified b) (ha : SoundAllocation b banks sites a)
    (hdisj : ∀ r ∈ banks.saved, r ∉ banks.volatile) (hcall : sites.before[i]? = some true)
    {t r : Nat} (ht : b.NeededAt i t) (hh : a.home t = .reg r) : r ∉ banks.volatile := by
  obtain ⟨⟨d, hd, had⟩, j, hj, huj⟩ := ht
  obtain ⟨stop, hiv, huse, -⟩ := interval_spec hb had
  exact hdisj r (ha.before _ hiv r i hh hd (Nat.le_trans hj (huse j huj)) hcall)

theorem saved_inside (hb : Verified b) (ha : SoundAllocation b banks sites a)
    (hdisj : ∀ r ∈ banks.saved, r ∉ banks.volatile) (hcall : sites.inside[i]? = some true)
    {t r : Nat} (ht : b.NeededPast i t) (hh : a.home t = .reg r) : r ∉ banks.volatile := by
  obtain ⟨⟨d, hd, had⟩, j, hj, huj⟩ := ht
  obtain ⟨stop, hiv, huse, -⟩ := interval_spec hb had
  exact hdisj r (ha.inside _ hiv r i hh hd (Nat.lt_of_lt_of_le hj (huse j huj)) hcall)

theorem home_ne_of_past (ha : SoundAllocation b banks sites a) {t u r : Nat}
    (ht : b.NeededPast i t) (hu : b.Assigns i u) (hne : t ≠ u) (hh : a.home t = .reg r) :
    a.home u ≠ .reg r := by
  intro hhu
  obtain ⟨⟨d, hd, had⟩, j, hj, huj⟩ := ht
  have := (ha.apart t u r hne hh hhu d i had hu (Nat.le_of_lt hd)).2 j huj
  omega

theorem needed_successor (hb : Verified b) (ha : SoundAllocation b banks sites a)
    {taken : Nat → Bool} {next : Nat} (hi : b.insts[i]? = some inst)
    (hnext : successor taken i inst = some next) {t r : Nat} (hh : a.home t = .reg r)
    (ht : b.NeededAt next t) : b.NeededPast i t ∨ t ∈ inst.dsts := by
  obtain ⟨⟨d, hd, had⟩, j, hj, huj⟩ := ht
  have hlt : i < next := by
    unfold successor at hnext
    split at hnext
    · cases hnext
    · split at hnext
      · rename_i hbr
        cases hnext
        exact (hb.forward i inst hi hbr.1).1
      · cases hnext
        exact Nat.lt_succ_self i
  rcases Nat.lt_trichotomy d i with hdi | rfl | hid
  · exact .inl ⟨⟨d, hdi, had⟩, j, by omega, huj⟩
  · obtain ⟨inst', hi', hmem⟩ := had
    rw [hi] at hi'
    cases hi'
    exact .inr hmem
  · -- Assigned between here and there: the branch was taken, and skips it.
    unfold successor at hnext
    split at hnext
    · cases hnext
    · split at hnext
      · rename_i hbr
        cases hnext
        rw [ha.skipped t d j i inst hi hbr.1 hid hd hj had huj] at hh
        cases hh
      · cases hnext
        omega

theorem step_agrees (hb : Verified b) (ha : SoundAllocation b banks sites a)
    (hdisj : ∀ r ∈ banks.saved, r ∉ banks.volatile) (hi : b.insts[i]? = some inst)
    (h : Agrees a (b.NeededAt i) frame m) (junk : Junk V) (v₁ v₂ : V) :
    let entered := m.callIf banks sites.before (junk.before i) i
    let called := entered.callIf banks sites.inside (junk.inside i) i
    (∀ t ∈ inst.srcs, entered.get a t = frame t) ∧
      (∀ t ∈ b.heldAt inst, entered.get a t = frame t) ∧
      Agrees a (fun t => b.NeededPast i t ∨ t ∈ inst.dsts)
        (putFrame (putFrame frame inst.dst v₁) inst.dst2 v₂)
        ((called.put a inst.dst v₁).put a inst.dst2 v₂) := by
  intro entered called
  have hentered : Agrees a (b.NeededAt i) frame entered :=
    h.callIf _ (fun _ ht => ht) fun hcall t r ht hh => saved_before hb ha hdisj hcall ht hh
  have hcalled : Agrees a (b.NeededPast i) frame called := by
    refine hentered.callIf _ ?_ fun hcall t r ht hh => saved_inside hb ha hdisj hcall ht hh
    rintro t ⟨had, j, hj, huj⟩
    exact ⟨had, j, Nat.le_of_lt hj, huj⟩
  have hassigns : ∀ t, t ∈ inst.dsts → b.Assigns i t := fun t ht => ⟨inst, hi, ht⟩
  have hdst : ∀ {u}, inst.dst = some u → u ∈ inst.dsts := fun h => by simp [Inst.dsts, h]
  have hdst2 : ∀ {u}, inst.dst2 = some u → u ∈ inst.dsts := fun h => by simp [Inst.dsts, h]
  refine ⟨?_, ?_, ?_⟩
  · intro t ht
    refine hentered.get_eq ⟨hb.reads i t ⟨inst, hi, ht⟩, i, Nat.le_refl i, .inl ⟨inst, hi, ht⟩⟩
  · intro t ht
    obtain ⟨hnamed, hnot⟩ := List.mem_filter.mp ht
    obtain ⟨d, hd, had⟩ := hb.names i t ⟨inst, hi, hnamed⟩
    have hdi : d ≠ i := by
      rintro rfl
      obtain ⟨inst', hi', hmem⟩ := had
      rw [hi] at hi'
      cases hi'
      simp [hmem] at hnot
    exact hentered.get_eq ⟨⟨d, by omega, had⟩, i, Nat.le_refl i, .inr ⟨inst, hi, hnamed⟩⟩
  · -- The first result, then the second.
    have hfirst : Agrees a (fun t => b.NeededPast i t ∨ inst.dst = some t)
        (putFrame frame inst.dst v₁) (called.put a inst.dst v₁) := by
      refine hcalled.put inst.dst v₁ (fun t ht => ht.symm) ?_
      rintro t u r (ht | ht) hu hne hh
      · exact home_ne_of_past ha ht (hassigns u (hdst hu)) hne hh
      · rw [hu] at ht
        exact absurd (Option.some.inj ht).symm hne
    refine hfirst.put inst.dst2 v₂ ?_ ?_
    · rintro t (ht | ht)
      · exact .inr (.inl ht)
      · rcases List.mem_append.mp ht with ht | ht
        · exact .inr (.inr (by simpa using ht))
        · exact .inl (by simpa using ht)
    · rintro t u r (ht | ht) hu hne hh
      · exact home_ne_of_past ha ht (hassigns u (hdst2 hu)) hne hh
      · -- Two results of one instruction never share a register.
        intro hhu
        have := (ha.apart t u r hne hh hhu i i (hassigns t ht) (hassigns u (hdst2 hu))
          (Nat.le_refl i)).1
        omega

end Step

theorem run_eq {b : Block} (hb : Verified b) {banks : RegBanks} {sites : CallSites}
    {a : Allocation} (ha : SoundAllocation b banks sites a)
    (hdisj : ∀ r ∈ banks.saved, r ∉ banks.volatile) (effect : Effect σ V) (taken : Nat → Bool)
    (junk : Junk V) (steps : Nat) {i : Nat} {world : σ} {frame : Temp → V} {m : Machine V}
    (h : Agrees a (b.NeededAt i) frame m) :
    regRun b banks sites a effect taken junk steps i world m =
      frameRun b effect taken steps i world frame := by
  induction steps generalizing i world frame m with
  | zero => rfl
  | succ steps ih =>
    simp only [regRun, frameRun]
    cases hi : b.insts[i]? with
    | none => rfl
    | some inst =>
      dsimp only
      have hreads := (step_agrees hb ha hdisj hi h junk (m.frame 0) (m.frame 0)).1
      have hheld := (step_agrees hb ha hdisj hi h junk (m.frame 0) (m.frame 0)).2.1
      have hops : inst.srcs.map ((m.callIf banks sites.before (junk.before i) i).get a) =
          inst.srcs.map frame := List.map_congr_left hreads
      rw [hops, List.map_congr_left hheld]
      have hnext := (step_agrees hb ha hdisj hi h junk
        (effect world i (inst.srcs.map frame)).2.1 (effect world i (inst.srcs.map frame)).2.2).2.2
      congr 1
      · -- The boundary finds its values in the frame.
        congr 1
        refine List.map_congr_left fun t ht => hnext.backed t ?_
        exact ha.backed t i ⟨inst, hi, ht⟩
      · cases hs : successor taken i inst with
        | none => rfl
        | some next =>
          exact ih (hnext.mono fun t r hh ht => needed_successor hb ha hi hs hh ht)

/-- **Register allocation is sound on every path.** In the allocation of a verified block,
for any two disjoint banks and any call sites: temporaries that share a register are
never both waited for; an interval that a call can reach is in a saved register or in the
frame; a definition that a branch can skip is in the frame when something at the branch's
target or after still needs it; and whatever the branches do, whatever the calls leave in
the volatile registers and whatever the registers hold at the start, running out of the
allotted homes reads the same operands at every instruction, and finds the same values at
every boundary, as running with one zeroed frame slot for every temporary. -/
theorem linearScan_every_path {b : Block} (hv : verify b = .ok ()) {banks : RegBanks}
    (hdisj : ∀ r ∈ banks.saved, r ∉ banks.volatile) (sites : CallSites) :
    (∀ t u r i, t ≠ u → (linearScan b (liveness b) banks sites).home t = .reg r →
      (linearScan b (liveness b) banks sites).home u = .reg r →
      ¬ (b.Pending i t ∧ b.Pending i u)) ∧
    (∀ iv ∈ intervals (liveness b), ∀ c,
      (iv.start < c ∧ c < iv.stop ∧ sites.inside[c]? = some true) ∨
        (iv.start < c ∧ c ≤ iv.stop ∧ sites.before[c]? = some true) →
      (linearScan b (liveness b) banks sites).home iv.temp = .frame ∨
        ∃ r ∈ banks.saved, (linearScan b (liveness b) banks sites).home iv.temp = .reg r) ∧
    (∀ t d j i, ∀ inst : Inst, b.insts[i]? = some inst → inst.op = .brcond → i < d →
      d < inst.aux → b.Assigns d t → inst.aux ≤ j → b.Uses j t →
      (linearScan b (liveness b) banks sites).home t = .frame) ∧
    ∀ (σ V : Type) [Zero V] (effect : Effect σ V) (taken : Nat → Bool) (junk : Junk V)
      (regs : Nat → V) (world : σ) (steps : Nat),
      regRun b banks sites (linearScan b (liveness b) banks sites) effect taken junk steps 0
          world ⟨regs, fun _ => 0⟩ =
        frameRun b effect taken steps 0 world fun _ => 0 := by
  have hb := verify_ok hv
  have ha := linearScan_sound hb banks sites
  refine ⟨?_, ?_, ?_, ?_⟩
  · intro t u r i hne ht hu
    exact ha.pending hne ht hu i
  · intro iv hiv c hc
    cases hh : (linearScan b (liveness b) banks sites).home iv.temp with
    | frame => exact .inl rfl
    | reg r =>
      right
      rcases hc with ⟨hlo, hhi, hcall⟩ | ⟨hlo, hhi, hcall⟩
      · exact ⟨r, ha.inside iv hiv r c hh hlo hhi hcall, rfl⟩
      · exact ⟨r, ha.before iv hiv r c hh hlo hhi hcall, rfl⟩
  · intro t d j i inst hi hop hid hda hd haj hu
    exact ha.skipped t d j i inst hi hop hid hda haj hd hu
  · intro σ V _ effect taken junk regs world steps
    refine run_eq hb ha hdisj effect taken junk steps ⟨fun _ _ => rfl, ?_⟩
    -- Nothing has been assigned yet, so nothing is needed.
    rintro t r ⟨⟨d, hd, -⟩, -⟩
    omega

/-- A block whose third instruction jumps over a value that only the skipped stretch
reads. -/
def skippedStretch : Block :=
  { entryPc := 0
    key := 0
    insts :=
      [.plain .insnStart none [] none 0,
        .plain .mov (some 0) [] (some (.int 1#128)) 0,
        .plain .brcond none [0] none 5,
        .plain .mov (some 1) [] (some (.int 7#128)) 0,
        .plain .mov (some 2) [1] none 0,
        .plain .exitTb none [] none 0]
    marks := [⟨0, 4, 0, []⟩]
    types := [.i1, .i64, .i64] }

theorem linearScan_every_path_skippedStretch :
    verify skippedStretch = .ok () ∧ (∀ r ∈ [0, 1], r ∉ [2, 3]) ∧
      regRun skippedStretch ⟨[0, 1], [2, 3]⟩ ⟨[], []⟩
          (linearScan skippedStretch (liveness skippedStretch) ⟨[0, 1], [2, 3]⟩ ⟨[], []⟩)
          (fun (_ : Unit) i ops => ((), i + ops.sum, 0)) (fun _ => false)
          ⟨fun _ _ => 9, fun _ _ => 9⟩ 6 0 () ⟨fun _ => 5, fun _ => 0⟩ =
        frameRun skippedStretch (fun (_ : Unit) i ops => ((), i + ops.sum, 0)) (fun _ => false)
          6 0 () fun _ => 0 :=
  ⟨rfl, by decide, (@linearScan_every_path skippedStretch rfl ⟨[0, 1], [2, 3]⟩ (by decide)
    ⟨[], []⟩).2.2.2 Unit Nat _ _ _ _ _ _⟩

/-- A definition that a branch can skip may have a register: the value of the skipped
stretch is not needed where the branch lands. -/
theorem linearScan_skipped_in_register :
    ¬ ∀ (b : Block) (banks : RegBanks) (sites : CallSites), verify b = .ok () →
      (∀ r ∈ banks.saved, r ∉ banks.volatile) → ∀ (t d i : Nat) (inst : Inst),
        b.insts[i]? = some inst → inst.op = .brcond → i < d → d < inst.aux → b.Assigns d t →
        (linearScan b (liveness b) banks sites).home t = .frame := by
  intro h
  have := h skippedStretch ⟨[0, 1], [2, 3]⟩ ⟨[], []⟩ rfl (by decide) 1 3 2
    (.plain .brcond none [0] none 5) rfl rfl (by decide) (by decide) ⟨_, rfl, by decide⟩
  exact absurd this (by decide)

end Rsemu.Ir
