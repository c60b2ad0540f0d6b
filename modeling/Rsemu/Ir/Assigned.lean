import Rsemu.Ir.Linked
import Rsemu.Ir.Regalloc
import Mathlib.Logic.Relation

/-!
# What is assigned on the way

The verifier takes "earlier in the list" for "before, on every path". A branch can jump
over an instruction, so a temporary that is defined earlier in the list need not have been
assigned on the way; and an instruction can name a result that the interpreter never writes.

`Path` is a way through a block under some outcomes of its branches.
`definitelyAssigned_iff` says for which verified blocks everything read or named was
assigned on the way, and `execute_agrees` that a run of such a block does not depend on what
the temporaries held before it.
-/

namespace Rsemu.Ir

namespace Block

variable (b : Block)

/-- A way from the entry to an instruction, with the instructions executed before it, last
first. -/
inductive Path : List Nat → Nat → Prop where
  | entry : Path [] 0
  | step {done : List Nat} {i j : Nat} : Path done i → b.Edge i j → Path (i :: done) j

/-- Instruction `j` writes the temporary. -/
def Writes (j : Nat) (t : Temp) : Prop := ∃ inst, b.insts[j]? = some inst ∧ t ∈ inst.writes

/-- **Definite assignment.** On every way through the block, what an instruction reads, or
its boundary names, was written by an instruction executed before. -/
def DefinitelyAssigned : Prop :=
  ∀ done i t, b.Path done i → b.Uses i t → ∃ j ∈ done, b.Writes j t

/-- Control can get from one instruction to another. -/
def Leads : Nat → Nat → Prop := Relation.ReflTransGen b.Edge

/-- **No use is skipped.** What an instruction that can be reached uses is written by an
earlier instruction, and no branch that can be reached jumps over that instruction to where
the use can be reached from. -/
structure NoSkippedUse : Prop where
  written : ∀ i t, b.Leads 0 i → b.Uses i t → ∃ d < i, b.Writes d t
  unskipped : ∀ (k d i : Nat) (t : Temp) (inst : Inst), b.Leads 0 k → b.insts[k]? = some inst →
    inst.op = .brcond → k < d → d < inst.aux → b.Writes d t → b.Leads inst.aux i → ¬ b.Uses i t

variable {b}

theorem Writes.assigns {j : Nat} {t : Temp} (h : b.Writes j t) : b.Assigns j t := by
  obtain ⟨inst, hi, ht⟩ := h
  exact ⟨inst, hi, inst.mem_dsts_of_writes ht⟩

theorem Leads.le (hb : Verified b) {i j : Nat} (h : b.Leads i j) : i ≤ j := by
  induction h with
  | refl => exact Nat.le_refl _
  | tail _ he ih => exact Nat.le_trans ih (Nat.le_of_lt (he.lt hb))

namespace Path

variable {done : List Nat} {i : Nat}

theorem lt (h : b.Path done i) (hb : Verified b) : ∀ j ∈ done, j < i := by
  induction h with
  | entry => simp
  | step _ he ih =>
    intro j hj
    have hlt := he.lt hb
    rcases List.mem_cons.mp hj with rfl | hj
    · exact hlt
    · exact Nat.lt_trans (ih j hj) hlt

theorem leads (h : b.Path done i) : b.Leads 0 i := by
  induction h with
  | entry => exact .refl
  | step _ he ih => exact ih.tail he

theorem extend (h : b.Path done i) (hb : Verified b) {j : Nat} (hj : b.Leads i j) :
    ∃ more, b.Path (more ++ done) j ∧ ∀ k ∈ more, i ≤ k := by
  induction hj with
  | refl => exact ⟨[], h, by simp⟩
  | @tail k m hik he ih =>
    obtain ⟨more, hp, hmore⟩ := ih
    refine ⟨k :: more, hp.step he, fun n hn => ?_⟩
    rcases List.mem_cons.mp hn with rfl | hn
    · exact Leads.le hb hik
    · exact hmore n hn

theorem mem_or_skipped (h : b.Path done i) {d : Nat} (hd : d < i) :
    d ∈ done ∨ ∃ (k : Nat) (inst : Inst), b.Leads 0 k ∧ b.insts[k]? = some inst ∧
      inst.op = .brcond ∧ k < d ∧ d < inst.aux ∧ b.Leads inst.aux i := by
  induction h with
  | entry => omega
  | @step done i j hp he ih =>
    by_cases hdi : d < i
    · rcases ih hdi with hmem | ⟨k, inst, hk, hi, hop, hlt, hgt, hl⟩
      · exact .inl (List.mem_cons_of_mem i hmem)
      · exact .inr ⟨k, inst, hk, hi, hop, hlt, hgt, hl.tail he⟩
    · by_cases heq : d = i
      · exact .inl (by simp [heq])
      · -- past `i` and before `j`: the edge is a jump
        obtain ⟨inst, hi, -, hnext⟩ := he
        rcases hnext with rfl | ⟨hop, rfl⟩
        · omega
        · exact .inr ⟨i, inst, hp.leads, hi, hop, by omega, hd, .refl⟩

end Path

theorem exists_path {i : Nat} (h : b.Leads 0 i) : ∃ done, b.Path done i := by
  induction h with
  | refl => exact ⟨[], .entry⟩
  | tail _ he ih =>
    obtain ⟨done, hp⟩ := ih
    exact ⟨_, hp.step he⟩

theorem definitelyAssigned_iff_noSkippedUse (hb : Verified b) :
    b.DefinitelyAssigned ↔ b.NoSkippedUse := by
  constructor
  · intro h
    refine ⟨fun i t hi hu => ?_, fun k d i t inst hk hki hop hlt hgt hw hl hu => ?_⟩
    · obtain ⟨done, hp⟩ := exists_path hi
      obtain ⟨j, hj, hw⟩ := h done i t hp hu
      exact ⟨j, hp.lt hb j hj, hw⟩
    · -- Take the branch, and go on to the use: the definition is not on the way.
      obtain ⟨done, hp⟩ := exists_path hk
      have hjump : b.Path (k :: done) inst.aux :=
        hp.step ⟨inst, hki, by simp [hop, Opcode.isTerminator], .inr ⟨hop, rfl⟩⟩
      obtain ⟨more, hway, hmore⟩ := hjump.extend hb hl
      obtain ⟨j, hj, hwj⟩ := h _ i t hway hu
      obtain rfl := hb.once j d t hwj.assigns hw.assigns
      rcases List.mem_append.mp hj with hj | hj
      · have := hmore j hj
        omega
      · rcases List.mem_cons.mp hj with rfl | hj
        · omega
        · have := hp.lt hb j hj
          omega
  · intro h done i t hp hu
    obtain ⟨d, hd, hw⟩ := h.written i t hp.leads hu
    rcases hp.mem_or_skipped hd with hmem | ⟨k, inst, hk, hi, hop, hlt, hgt, hl⟩
    · exact ⟨d, hmem, hw⟩
    · exact absurd hu (h.unskipped k d i t inst hk hi hop hlt hgt hw hl)

end Block

end Rsemu.Ir

namespace Rsemu.Ir.Interp

open Fallible (exec Sim Alike)

variable {W : Type}

def AgreeOn (b : Block) (done : List Nat) : TempRel := fun ws l l' =>
  l'.length = l.length ∧ ∀ t, ((∃ j ∈ done, b.Writes j t) ∨ t ∈ ws) → l'[t]? = l[t]?

/-- Two runs that agree on what was written on the way, and on everything but the
temporaries. -/
structure Agree (b : Block) (done : List Nat) (s s' : Exec W) : Prop where
  core : Rel (AgreeOn b done) [] s.core s'.core
  published : s'.published = s.published
  slots : s'.slots = s.slots
  /-- What is pending was written. -/
  pending : ∀ p ∈ liveMap b s.core.mark, ∃ j ∈ done, b.Writes j p.2

section Agree

variable {host : IrHost W} {b : Block} {inst : Inst} {i : Nat} {done : List Nat}
  {s s' : Exec W}

theorem linked_agree (hread : ∀ t ∈ inst.srcs, ∃ j ∈ done, b.Writes j t) :
    Linked b b inst inst.srcs (AgreeOn b done) fun k v v' => k < inst.srcs.length ∧ v = v' := by
  refine ⟨rfl, fun _ _ _ h => h.1, ?_, ?_, fun _ _ => rfl, ?_, ?_, ?_, ?_,
    fun _ _ _ _ h => h.2⟩
  · intro l l' hT k t t' ht ht'
    obtain ⟨hk, -⟩ := List.getElem?_eq_some_iff.mp ht
    rw [ht] at ht'
    cases ht'
    have hsame := hT.2 t (.inl (hread t (List.mem_of_getElem? ht)))
    cases hl : l[t]? with
    | none => exact .inl ⟨rfl, hsame.trans hl⟩
    | some v => exact .inr ⟨v, v, rfl, hsame.trans hl, hk, rfl⟩
  · intro t t' ht ht'
    rw [ht] at ht'
    cases ht'
    rfl
  · intro ws l l' hT d _
    rw [hT.1]
  · intro ws l l' hT d _ v
    refine ⟨by rw [List.length_set, List.length_set, hT.1], fun t ht => ?_⟩
    by_cases hd : d = t
    · subst hd
      rw [List.getElem?_set, List.getElem?_set, hT.1, if_pos rfl, if_pos rfl]
    · rw [List.getElem?_set_ne hd, List.getElem?_set_ne hd]
      refine hT.2 t (ht.imp_right fun hm => ?_)
      exact (List.mem_cons.mp hm).resolve_left fun he => hd he.symm
  · intro ws ws' l l' hT hsub
    exact ⟨hT.1, fun t ht => hT.2 t (ht.imp_right (hsub t))⟩
  · rintro k v _ ⟨-, rfl⟩
    exact .refl v

theorem Agree.mark (h : Agree b done s s') : s'.core.mark = s.core.mark := by
  rw [h.core.2]

theorem Agree.world (h : Agree b done s s') : s'.core.world = s.core.world := by
  rw [h.core.2]

theorem Agree.publish (host : IrHost W) (h : Agree b done s s') :
    Agree b done (publish host b s) (publish host b s') := by
  unfold Interp.publish
  rw [h.published, h.mark]
  split
  · exact h
  · refine ⟨h.core, rfl, ?_, h.pending⟩
    rw [h.slots]
    exact writeLive_congr host _ _ fun p hp => h.core.1.2 p.2 (.inl (h.pending p hp))

theorem Agree.next (h : Agree b done s s') (hi : b.insts[i]? = some inst) {c c' : Core W}
    (hrel : Rel (AgreeOn b done) inst.writes c c') (hmark : c.mark = s.core.mark) :
    Agree b (i :: done) { s with core := c } { s' with core := c' } := by
  refine ⟨⟨⟨hrel.1.1, fun t ht => hrel.1.2 t ?_⟩, hrel.2⟩, h.published, h.slots, fun p hp => ?_⟩
  · rcases ht with ⟨j, hj, hw⟩ | ht
    · rcases List.mem_cons.mp hj with rfl | hj
      · obtain ⟨inst', hi', hmem⟩ := hw
        rw [hi] at hi'
        cases hi'
        exact .inr hmem
      · exact .inl ⟨j, hj, hw⟩
    · cases ht
  · have hp' : p ∈ liveMap b s.core.mark := by rwa [← hmark]
    obtain ⟨j, hj, hw⟩ := h.pending p hp'
    exact ⟨j, List.mem_cons_of_mem i hj, hw⟩

/-- What has to hold of one instruction: both runs decide the same, agree where they stop,
and agree on the results where they go on. -/
structure StepAgree (host : IrHost W) (b : Block) (inst : Inst) (i : Nat) (done : List Nat)
    (s s' : Exec W) : Prop where
  result : (step host b inst i s').1 = (step host b inst i s).1
  stops : Agree b done (step host b inst i s).2 (step host b inst i s').2
  goes : ∀ x, (step host b inst i s).1 = .ok x → (∀ o, x ≠ .done o) →
    Agree b (i :: done) (step host b inst i s).2 (step host b inst i s').2

theorem stepAgree_of_runCore {x x' : Exec W} (h : Agree b done x x') (hi : b.insts[i]? = some inst)
    {m m' : CoreM W Step} (hs : step host b inst i s = runCore m x)
    (hs' : step host b inst i s' = runCore m' x') (hmark : ∀ c, (exec m c).2.mark = c.mark)
    (hsim : Lockstep W (AgreeOn b done) inst.writes m m') : StepAgree host b inst i done s s' := by
  rw [runCore_eq] at hs hs'
  have halike := hsim x.core x'.core h.core
  have hm := hmark x.core
  revert halike hm hs hs'
  show _ → _ → Alike _ _ (exec m x.core) (exec m' x'.core) → _
  generalize exec m x.core = y
  generalize exec m' x'.core = y'
  intro hs hs' halike hm
  have hstop : ∀ {c c' : Core W}, Rel (AgreeOn b done) [] c c' → c.mark = x.core.mark →
      Agree b done { x with core := c } { x' with core := c' } := by
    intro c c' hrel hmark
    exact ⟨hrel, h.published, h.slots, fun p hp => h.pending p (hmark ▸ hp)⟩
  cases halike with
  | ok hq =>
    obtain ⟨rfl, hrel, hgo⟩ := hq
    refine ⟨by rw [hs, hs'], by rw [hs, hs']; exact hstop hrel hm, fun y hy hne => ?_⟩
    rw [hs] at hy ⊢
    rw [hs']
    cases hy
    exact h.next hi (hgo hne) hm
  | error he =>
    refine ⟨by rw [hs, hs'], by rw [hs, hs']; exact hstop he hm, fun y hy => ?_⟩
    rw [hs] at hy
    cases hy

theorem stepAgree_core (h : Agree b done s s') (hi : b.insts[i]? = some inst)
    (hread : ∀ t ∈ inst.srcs, ∃ j ∈ done, b.Writes j t)
    (hg : inst.op ≠ .getSlot) (hc : inst.op ≠ .callHelper) (hs : inst.op ≠ .insnStart) :
    StepAgree host b inst i done s s' := by
  have hstep : ∀ s : Exec W, step host b inst i s = runCore (coreStep host b inst i) s := by
    intro s
    unfold step
    split
    · exact absurd ‹_› hg
    · exact absurd ‹_› hc
    · exact absurd ‹_› hs
    · rfl
  exact stepAgree_of_runCore h hi (hstep s) (hstep s') (coreStep_touches host b inst i).1.mark
    (coreStep_sim host i (linked_agree hread) (.of_same fun _ _ _ he => he.2))

theorem stepAgree_getSlot (h : Agree b done s s') (hi : b.insts[i]? = some inst)
    (hread : ∀ t ∈ inst.srcs, ∃ j ∈ done, b.Writes j t) (hop : inst.op = .getSlot) :
    StepAgree host b inst i done s s' := by
  have hwrites : inst.writes = inst.dst.toList := by
    unfold Inst.writes
    rw [hop]
  have hsh : shadowed b s' (slotOf inst) = shadowed b s (slotOf inst) := by
    unfold shadowed
    rw [h.published, h.mark]
  -- both catch up, or neither
  have hcaught : Agree b done (if shadowed b s (slotOf inst) then publish host b s else s)
      (if shadowed b s (slotOf inst) then publish host b s' else s') := by
    split
    · exact h.publish host
    · exact h
  have hstep : ∀ s : Exec W, step host b inst i s = stepGetSlot host b inst i s := by
    intro s
    simp only [step, hop]
  have hread₁ : step host b inst i s =
      runCore (do
        writeDst b inst ((if shadowed b s (slotOf inst) then publish host b s else s).slots
          (slotOf inst)) i
        pure .next) (if shadowed b s (slotOf inst) then publish host b s else s) := hstep s
  have hread₂ : step host b inst i s' =
      runCore (do
        writeDst b inst ((if shadowed b s (slotOf inst) then publish host b s else s).slots
          (slotOf inst)) i
        pure .next) (if shadowed b s (slotOf inst) then publish host b s' else s') := by
    rw [← hcaught.slots, ← hsh]
    exact hstep s'
  exact stepAgree_of_runCore hcaught hi hread₁ hread₂ (stays_write (Q := False) b inst i _).mark
    (hwrites ▸ sim_write (linked_agree hread) (.of_eq _))

theorem sim_helperArgs (hread : ∀ t ∈ inst.srcs, ∃ j ∈ done, b.Writes j t) :
    Along W (AgreeOn b done) Eq (helperArgs inst i) (helperArgs inst i) := by
  have hall : ∀ ts : List Temp, (∀ t ∈ ts, t ∈ inst.srcs) →
      Along W (AgreeOn b done) Eq (ts.mapM fun t => getTemp t i inst.op)
        (ts.mapM fun t => getTemp t i inst.op) := by
    intro ts
    induction ts with
    | nil => exact fun _ => .pure fun _ _ hr => ⟨rfl, hr⟩
    | cons t ts ih =>
      intro hsub
      rw [List.mapM_cons]
      obtain ⟨k, hk, hkt⟩ := List.getElem_of_mem (hsub t (by simp))
      have ht : inst.srcs[k]? = some t := by rw [List.getElem?_eq_getElem hk, hkt]
      refine (sim_getTemp (linked_agree hread) ht ht).and_bind fun v v' ⟨_, hv⟩ => ?_
      obtain rfl := hv
      refine (ih fun u hu => hsub u (List.mem_cons_of_mem t hu)).and_bind fun vs vs' hvs => ?_
      subst hvs
      exact .pure fun _ _ hr => ⟨rfl, hr⟩
  exact hall inst.srcs fun _ h => h

theorem sim_writeResults (hread : ∀ t ∈ inst.srcs, ∃ j ∈ done, b.Writes j t) (first second : Val) :
    Lockstep W (AgreeOn b done) inst.dsts (writeResults b inst i first second)
      (writeResults b inst i first second) := by
  have L := linked_agree hread
  refine (sim_writeSome L (fun d hd => by simp [Inst.dsts, hd]) first).bind fun _ _ => ?_
  refine (sim_writeSome L (fun d hd => by simp [Inst.dsts, hd]) second).bind fun _ _ =>
    sim_next L fun t ht => ?_
  rcases List.mem_append.mp ht with h | h
  · exact List.mem_append.mpr (.inr (List.mem_append.mpr (.inl h)))
  · exact List.mem_append.mpr (.inl h)

theorem Agree.update (h : Agree b done s s') (f : Core W → Core W)
    (hcomm : ∀ c l, f { c with temps := l } = { f c with temps := l })
    (hkeep : ∀ c, (f c).temps = c.temps) (slots : Slots) (hmark : ∀ c, (f c).mark = c.mark) :
    Agree b done { s with core := f s.core, slots := slots }
      { s' with core := f s'.core, slots := slots } := by
  exact ⟨h.core.update f hkeep hcomm, h.published, rfl,
    fun p hp => h.pending p (hmark s.core ▸ hp)⟩

theorem stepAgree_callHelper (h : Agree b done s s') (hi : b.insts[i]? = some inst)
    (hread : ∀ t ∈ inst.srcs, ∃ j ∈ done, b.Writes j t) (hop : inst.op = .callHelper) :
    StepAgree host b inst i done s s' := by
  have hwrites : inst.writes = inst.dsts := by
    unfold Inst.writes
    rw [hop]
  have hstep : ∀ s : Exec W, step host b inst i s = stepCallHelper host b inst i s := by
    intro s
    simp only [step, hop]
  have hargs := sim_helperArgs hread (i := i) s.core s'.core h.core
  have hsame : (exec (helperArgs inst i) s.core).2 = s.core := exec_helperArgs s.core
  have hsame' : (exec (helperArgs inst i) s'.core).2 = s'.core := exec_helperArgs s'.core
  revert hargs hsame hsame'
  show Alike _ _ (exec (helperArgs inst i) s.core) (exec (helperArgs inst i) s'.core) → _
  rcases hx : exec (helperArgs inst i) s.core with ⟨r, c⟩
  rcases hx' : exec (helperArgs inst i) s'.core with ⟨r', c'⟩
  rintro hargs rfl rfl
  cases hargs with
  | @error e _ _ he =>
    have herr : step host b inst i s = (.error e, s) := by
      rw [hstep, stepCallHelper, runCore_eq, hx]
    have herr' : step host b inst i s' = (.error e, s') := by
      rw [hstep, stepCallHelper, runCore_eq, hx']
    refine ⟨by rw [herr, herr'], by rw [herr, herr']; exact h, fun y hy => ?_⟩
    rw [herr] at hy
    cases hy
  | @ok args _ _ _ hq =>
    obtain ⟨rfl, -⟩ := hq
    -- The call finds the same slots and the same world.
    have hcommit := h.update (fun c => { c with committed := true }) (fun _ _ => rfl)
      (fun _ => rfl) s.slots fun _ => rfl
    have hpub := hcommit.publish host
    have hcall : step host b inst i s = callHost host b inst i args (publish host b
        { s with core := { s.core with committed := true } }) := by
      rw [hstep, stepCallHelper, runCore_eq, hx]
    have hcall' : step host b inst i s' = callHost host b inst i args (publish host b
        { s' with core := { s'.core with committed := true } }) := by
      rw [hstep, stepCallHelper, runCore_eq, hx']
    have hslots : ({ s' with
        core := { s'.core with committed := true }, slots := s.slots } : Exec W) =
          { s' with core := { s'.core with committed := true } } := by
      rw [← h.slots]
    rw [hslots] at hpub
    revert hpub hcall hcall'
    generalize publish host b { s with core := { s.core with committed := true } } = x
    generalize publish host b { s' with core := { s'.core with committed := true } } = x'
    intro hpub hcall hcall'
    unfold callHost at hcall hcall'
    rw [hpub.slots, hpub.world] at hcall'
    rcases hhost : host.callHelper inst.aux args x.slots x.core.world with ⟨q, slots, world⟩
    rw [hhost] at hcall hcall'
    have hafter := hpub.update (fun c => { c with world := world }) (fun _ _ => rfl)
      (fun _ => rfl) slots fun _ => rfl
    cases q with
    | error e =>
      refine ⟨by rw [hcall, hcall'], by rw [hcall, hcall']; exact hafter, fun y hy => ?_⟩
      rw [hcall] at hy
      cases hy
    | ok v =>
      have hstays := @writeResults_stays W b inst i False v.1 v.2
      exact stepAgree_of_runCore hafter hi hcall hcall' hstays.mark
        (hwrites ▸ sim_writeResults hread v.1 v.2)

theorem stepAgree_insnStart (h : Agree b done s s') (hi : b.insts[i]? = some inst)
    (hnames : ∀ t, b.Names i t → ∃ j ∈ done, b.Writes j t) (hop : inst.op = .insnStart) :
    StepAgree host b inst i done s s' := by
  cases hmark : b.marks[inst.aux]? with
  | none =>
    have herr : ∀ s : Exec W, step host b inst i s =
        (.error (.ir (irErr i inst.op "the boundary marker points at no record")), s) := by
      intro s
      simp only [step, hop, stepInsnStart, hmark]
    refine ⟨by rw [herr, herr], by rw [herr, herr]; exact h, fun y hy => ?_⟩
    rw [herr] at hy
    cases hy
  | some mark =>
    have hlive : ∀ p ∈ liveMap b (some inst.aux), ∃ j ∈ done, b.Writes j p.2 := by
      intro p hp
      refine hnames p.2 ⟨inst, hi, ?_⟩
      simp only [Block.named, Block.boundary, hop, if_true, hmark, Option.elim_some]
      simp only [liveMap, Option.bind_some, hmark, Option.elim_some] at hp
      exact List.mem_map_of_mem hp
    have hcore := h.core.update (fun c =>
      { c with
        mark := some inst.aux
        boundaries := c.boundaries + 1#64
        boundaryPc := mark.pc
        retired := c.ticks
        committed := false
        world := host.insnStart mark c.world }) (fun _ => rfl) fun _ _ => rfl
    have hwrites : inst.writes = [] := by
      unfold Inst.writes
      rw [hop]
    have hstop : ∀ d : List Nat, (∀ t, (∃ j ∈ d, b.Writes j t) → ∃ j ∈ done, b.Writes j t) →
        (∀ j ∈ done, j ∈ d) →
        Agree b d (step host b inst i s).2 (step host b inst i s').2 := by
      intro d hsub hsup
      rw [stepInsnStart_eq hmark hop, stepInsnStart_eq hmark hop]
      refine ⟨⟨⟨hcore.1.1, fun t ht => hcore.1.2 t (ht.imp_left (hsub t))⟩, hcore.2⟩, rfl, h.slots,
        fun p hp => ?_⟩
      obtain ⟨j, hj, hw⟩ := hlive p hp
      exact ⟨j, hsup j hj, hw⟩
    refine ⟨?_, hstop done (fun _ h => h) fun _ h => h, fun _ _ _ => hstop _ ?_
      fun j hj => List.mem_cons_of_mem i hj⟩
    · rw [stepInsnStart_eq hmark hop, stepInsnStart_eq hmark hop, h.world]
      have hcount : s'.core.boundaries = s.core.boundaries := by rw [h.core.2]
      rw [hcount]
    · -- a boundary writes nothing
      rintro t ⟨j, hj, hw⟩
      rcases List.mem_cons.mp hj with rfl | hj
      · obtain ⟨inst', hi', ht⟩ := hw
        rw [hi] at hi'
        cases hi'
        rw [hwrites] at ht
        cases ht
      · exact ⟨j, hj, hw⟩

theorem stepAgree (host : IrHost W) (hb : b.DefinitelyAssigned) (hp : b.Path done i)
    (hi : b.insts[i]? = some inst) (h : Agree b done s s') : StepAgree host b inst i done s s' := by
  have hread : ∀ t ∈ inst.srcs, ∃ j ∈ done, b.Writes j t :=
    fun t ht => hb done i t hp (.inl ⟨inst, hi, ht⟩)
  by_cases hg : inst.op = .getSlot
  · exact stepAgree_getSlot h hi hread hg
  by_cases hc : inst.op = .callHelper
  · exact stepAgree_callHelper h hi hread hc
  by_cases hs : inst.op = .insnStart
  · exact stepAgree_insnStart h hi (fun t ht => hb done i t hp (.inr ht)) hs
  · exact stepAgree_core h hi hread hg hc hs

theorem step_leads (host : IrHost W) (b : Block) (inst : Inst) (i : Nat) (s : Exec W) :
    (inst.op.isTerminator = true → (step host b inst i s).1 ≠ .ok .next) ∧
      ∀ t, (step host b inst i s).1 = .ok (.jump t) → inst.op = .brcond ∧ t = inst.aux := by
  unfold step
  split
  · rename_i hop
    refine ⟨fun hterm => absurd hterm (by simp [hop, Opcode.isTerminator]), fun t ht => ?_⟩
    exact absurd ht ((stays_write (Q := False) b inst i _).noJump _ t)
  · rename_i hop
    refine ⟨fun hterm => absurd hterm (by simp [hop, Opcode.isTerminator]), fun t ht => ?_⟩
    unfold stepCallHelper at ht
    split at ht
    · cases ht
    · exact absurd ht ((callHost_spec (publish_published host _)).2.2 t)
  · rename_i hop
    refine ⟨fun hterm => absurd hterm (by simp [hop, Opcode.isTerminator]), fun t ht => ?_⟩
    unfold stepInsnStart at ht
    split at ht
    · cases ht
    · dsimp only at ht
      split at ht
      · cases ht
      · cases ht
  · exact ⟨fun hterm => coreStep_terminator host b inst i hterm s.core,
      fun t ht => (coreStep_touches host b inst i).2 s.core t ht⟩

theorem execute_agrees (host : IrHost W) (hb : b.DefinitelyAssigned) (budget : Nat)
    (hp : b.Path done i) (h : Agree b done s s') :
    (execute b (step host b) budget i s').1 = (execute b (step host b) budget i s).1 ∧
      ∃ d, Agree b d (execute b (step host b) budget i s).2
        (execute b (step host b) budget i s').2 := by
  induction budget generalizing done i s s' with
  | zero =>
    unfold execute
    cases b.insts[i]? with
    | none => exact ⟨rfl, done, h⟩
    | some inst => exact ⟨rfl, done, h⟩
  | succ budget ih =>
    unfold execute
    cases hi : b.insts[i]? with
    | none => exact ⟨rfl, done, h⟩
    | some inst =>
      have hagree := stepAgree host hb hp hi h
      obtain ⟨hnext, hjump⟩ := step_leads host b inst i s
      dsimp only
      rcases hst : step host b inst i s with ⟨r, x⟩
      rcases hst' : step host b inst i s' with ⟨r', x'⟩
      have hres := hagree.result
      have hstop := hagree.stops
      have hgo := hagree.goes
      rw [hst] at hres hstop hgo hnext hjump
      rw [hst'] at hres hstop hgo
      dsimp only at hres hstop hgo hnext hjump ⊢
      subst hres
      rcases r' with e | (_ | t | o)
      · exact ⟨rfl, done, hstop⟩
      · have hedge : b.Edge i (i + 1) := edge_next hi (by simpa using fun ht => hnext ht rfl)
        exact ih (hp.step hedge) (hgo _ rfl fun o ho => by cases ho)
      · dsimp only
        split
        · exact ⟨rfl, done, hstop⟩
        · obtain ⟨hop, rfl⟩ := hjump t rfl
          exact ih (hp.step (edge_jump hi hop)) (hgo _ rfl fun o ho => by cases ho)
      · exact ⟨rfl, done, hstop⟩

end Agree

def runFrom (host : IrHost W) (b : Block) (slots : Slots) (world : W) (temps : List Val) :
    Except Error Outcome × Exec W :=
  let s := start b slots world
  let s := { s with core := { s.core with temps := temps } }
  let (r, s) := execute b (step host b) stepLimit 0 s
  (r, publish host b s)

/-- **Definite assignment.** Of the blocks that the verifier accepts, in exactly those
without a skipped use everything that is read, or named at a boundary, was written before on
every way through the block; and what the temporaries hold when a run of one starts makes no
difference to how it ends, to the guest's slots or to the world. -/
theorem definitelyAssigned_iff {b : Block} (hv : verify b = .ok ()) :
    (b.DefinitelyAssigned ↔ b.NoSkippedUse) ∧
      (b.NoSkippedUse → ∀ (W : Type) (host : IrHost W) (slots : Slots) (world : W)
        (temps : List Val), temps.length = b.tempCount →
          (runFrom host b slots world temps).1 = (run host b slots world).1 ∧
            (runFrom host b slots world temps).2.slots = (run host b slots world).2.slots ∧
            (runFrom host b slots world temps).2.core =
              { (run host b slots world).2.core with
                temps := (runFrom host b slots world temps).2.core.temps }) := by
  have hiff := Block.definitelyAssigned_iff_noSkippedUse (verify_ok hv)
  refine ⟨hiff, fun hskip W host slots world temps hlen => ?_⟩
  have hstart : Agree b [] (start b slots world)
      { start b slots world with core := { (start b slots world).core with temps := temps } } := by
    refine ⟨⟨⟨by simpa [start] using hlen, fun t ht => ?_⟩, rfl⟩, rfl, rfl, fun p hp => ?_⟩
    · rcases ht with ⟨j, hj, -⟩ | ht
      · cases hj
      · cases ht
    · cases hp
  obtain ⟨hres, d, hagree⟩ :=
    execute_agrees host (hiff.mpr hskip) stepLimit .entry hstart
  have hpub := hagree.publish host
  exact ⟨hres, hpub.slots, hpub.core.2⟩

theorem definitelyAssigned_iff_otherSlot :
    verify otherSlot = .ok () ∧ (otherSlot.DefinitelyAssigned ↔ otherSlot.NoSkippedUse) :=
  ⟨rfl, (definitelyAssigned_iff rfl).1⟩

/-- A block whose branch jumps over the definition of what it reads where the branch lands,
and gives to slot 0 at the boundary of its exit. -/
def skippedUse : Block :=
  { entryPc := 0
    key := 0
    insts :=
      [.plain .mov (some 0) [] (some (.int 1#128)) 0,
        .plain .brcond none [0] none 3,
        .plain .mov (some 1) [] (some (.int 7#128)) 0,
        .plain .mov (some 2) [1] none 0,
        .plain .insnStart none [] none 0,
        .plain .exitTb none [] none 0]
    marks := [⟨0, 4, 0, [(0, 2)]⟩]
    types := [.i1, .i64, .i64] }

/-- The verifier accepts it. With the branch taken it reads a temporary that nothing on the
way assigned, and what the temporary held before the run ends up in the guest's slot. -/
theorem skipped_use_read :
    verify skippedUse = .ok () ∧ ¬ skippedUse.DefinitelyAssigned ∧
      (run idleHost skippedUse (fun _ => 0#128) ()).2.slots 0 = 0#128 ∧
      (runFrom idleHost skippedUse (fun _ => 0#128) () [0#128, 9#128, 0#128]).2.slots 0 =
        9#128 := by
  have hdiffer : (run idleHost skippedUse (fun _ => 0#128) ()).2.slots 0 = 0#128 ∧
      (runFrom idleHost skippedUse (fun _ => 0#128) () [0#128, 9#128, 0#128]).2.slots 0 =
        9#128 := by decide +kernel
  refine ⟨rfl, fun h => ?_, hdiffer⟩
  -- the way that takes the branch
  have hway : skippedUse.Path [1, 0] 3 :=
    (Block.Path.entry.step ⟨_, rfl, rfl, .inl rfl⟩).step ⟨_, rfl, rfl, .inr ⟨rfl, rfl⟩⟩
  obtain ⟨j, hj, inst, hi, hw⟩ := h [1, 0] 3 1 hway (.inl ⟨_, rfl, by decide⟩)
  rcases List.mem_cons.mp hj with rfl | hj
  · cases hi
    exact absurd hw (by decide)
  · rw [List.mem_singleton.mp hj] at hi
    cases hi
    exact absurd hw (by decide)

end Rsemu.Ir.Interp
