import Mathlib.Data.Rat.Floor
import Mathlib.Algebra.Order.Floor.Semifield
import Mathlib.Tactic.LinearCombination
import Rsemu.Clock.Reparent

/-!
# Every run of a forest

The invariant over whole runs, and what it buys: exact conversion between the
domains of a tree, and no tick lost or made up by any call.

The two halves of `call_inv` are the topology changes, proved one by one in the
modules before, and the calls that only move a position, which are here.
-/

namespace Rsemu.Clock

open Word Forest

namespace ClockForest

/-! ## Advancing -/

/-- What an advance of `tree` did: no counter went back, and none stirred that should not. -/
structure Advances (f g : ClockForest) (tree : OscillatorId) : Prop where
  length : g.domains.length = f.domains.length
  /-- Exact counts, before the counter's width is taken into account. -/
  exact_le : ∀ d, d < f.domains.length → (f.dom d).gated = false →
    (g.dom d).gated = false ∧ (g.dom d).baseTicks = (f.dom d).baseTicks
      ∧ (g.dom d).baseUnit = (f.dom d).baseUnit
      ∧ (g.dom d).unitsPerTick = (f.dom d).unitsPerTick
      ∧ (f.dom d).position (f.treeUnits d) ≤ (g.dom d).position (g.treeUnits d)
  gated : ∀ d, d < f.domains.length → (f.dom d).gated = true → g.count d = f.count d
  other : ∀ d, d < f.domains.length → (f.dom d).root ≠ tree → g.count d = f.count d

theorem Advances.refl (f : ClockForest) (tree : OscillatorId) : Advances f f tree :=
  ⟨rfl, fun _ _ hg => ⟨hg, rfl, rfl, rfl, Nat.le_refl _⟩, fun _ _ _ => rfl, fun _ _ _ => rfl⟩

/-- The forest's counters as the `u64` they are kept in do not wrap. -/
def CountsFit (f : ClockForest) : Prop :=
  ∀ d, d < f.domains.length → (f.dom d).gated = false →
    (f.dom d).baseTicks
      + ((f.dom d).position (f.treeUnits d) - (f.dom d).baseUnit) / (f.dom d).unitsPerTick < 2 ^ 64

theorem Advances.count_le {f g : ClockForest} {tree : OscillatorId} (ha : Advances f g tree)
    (hf : f.Inv) (hg : g.Inv) (hfit : g.CountsFit) {d : DomainId} (hd : d < f.domains.length) :
    f.count d ≤ g.count d := by
  by_cases hgate : (f.dom d).gated = true
  · exact Nat.le_of_eq (ha.gated d hd hgate).symm
  have hgate : (f.dom d).gated = false := by simpa using hgate
  have hd' : d < g.domains.length := ha.length ▸ hd
  obtain ⟨hgate', hticks, hbase, htick, hpos⟩ := ha.exact_le d hd hgate
  have hfit' := hfit d hd' hgate'
  rw [count_running hgate (hf.doms d hd) (hf.treeUnits_lt hd),
    count_running hgate' (hg.doms d hd') (hg.treeUnits_lt hd'), wrappingAdd_of_lt hfit', hticks,
    hbase, htick]
  calc wrappingAdd 64 (f.dom d).baseTicks
        (((f.dom d).position (f.treeUnits d) - (f.dom d).baseUnit) / (f.dom d).unitsPerTick)
      ≤ (f.dom d).baseTicks
        + ((f.dom d).position (f.treeUnits d) - (f.dom d).baseUnit) / (f.dom d).unitsPerTick :=
        Nat.mod_le _ _
    _ ≤ (f.dom d).baseTicks
        + ((g.dom d).position (g.treeUnits d) - (f.dom d).baseUnit) / (f.dom d).unitsPerTick :=
        Nat.add_le_add_left (Nat.div_le_div_right (Nat.sub_le_sub_right hpos _)) _

/-- An advance that succeeded, or one that changed nothing. -/
structure Moves (f : ClockForest) (tree : OscillatorId) {α : Type}
    (r : ClockForest × ClockResult α) : Prop where
  ok : ∀ a, r.2 = .ok a → r.1.Inv ∧ f.Advances r.1 tree
  refused : ∀ e, r.2 = .error e → r.1 = f

section Advance

variable {f : ClockForest} {α : Type}

theorem moves_error (tree : OscillatorId) (e : Fault) : Moves (α := α) f tree (f, .error e) :=
  ⟨fun _ h => absurd h (by simp), fun _ _ => rfl⟩

theorem moves_ok {tree : OscillatorId} {g : ClockForest} {a : α} (h : g.Inv)
    (ha : f.Advances g tree) : Moves f tree (g, .ok a) :=
  ⟨fun _ _ => ⟨h, ha⟩, fun _ he => absurd he (by simp)⟩

theorem accumulate_ok {o o' : Oscillator} {n : Nat} (h : o.accumulate n = .ok o') :
    ∃ t r, o' = { o with time := t, residual := r } := by
  unfold Oscillator.accumulate at h
  split at h
  · cases h
  split at h
  · cases h
  split at h
  · cases h
  split at h
  · cases h
  split at h
  · split at h
    · cases h
    · exact ⟨_, _, (Except.ok.inj h).symm⟩
  · exact ⟨_, _, (Except.ok.inj h).symm⟩

theorem advanceUnits_moves (h : f.Inv) (o : OscillatorId) (n : Nat) :
    Moves f o (f.advanceUnits o n) := by
  unfold advanceUnits
  split
  · exact moves_error _ _
  rename_i hcheck
  have ho := checkOsc_ok hcheck
  split
  · exact moves_error _ _
  rename_i u hu
  obtain ⟨hlt, rfl⟩ := checkedAdd_eq_some.mp hu
  split
  · exact moves_error _ _
  rename_i o' ho'
  obtain ⟨t, r, rfl⟩ := accumulate_ok ho'
  set g := f.modOsc o fun _ =>
    { ({ f.osc o with time := t, residual := r } : Oscillator) with units := (f.osc o).units + n }
    with hg
  have hself : g.osc o = { f.osc o with
      time := t, residual := r, units := (f.osc o).units + n } := modOsc_osc_self f ho _
  have hne : ∀ o', o' ≠ o → g.osc o' = f.osc o' := fun o' hn => modOsc_osc_ne f (Ne.symm hn) _
  have holen : g.oscillators.length = f.oscillators.length := modOsc_length f o _
  have hfields : ∀ o', (g.osc o').root = (f.osc o').root ∧ (g.osc o').active = (f.osc o').active
      ∧ (g.osc o').unitMul = (f.osc o').unitMul ∧ (g.osc o').unitRate = (f.osc o').unitRate
      ∧ (g.osc o').freq = (f.osc o').freq ∧ (f.osc o').units ≤ (g.osc o').units := by
    intro o'
    by_cases he : o' = o
    · subst he
      rw [hself]
      exact ⟨rfl, rfl, rfl, rfl, rfl, Nat.le_add_right _ _⟩
    · rw [hne o' he]
      exact ⟨rfl, rfl, rfl, rfl, rfl, Nat.le_refl _⟩
  have hu : ∀ d, f.treeUnits d ≤ g.treeUnits d := fun d => (hfields _).2.2.2.2.2
  have hpos : ∀ d, (f.dom d).position (f.treeUnits d) ≤ (g.dom d).position (g.treeUnits d) :=
    fun d => max_le_max_right _ (hu d)
  refine moves_ok ?_ ⟨rfl, fun d _ hgate => ⟨hgate, rfl, rfl, rfl, hpos d⟩, ?_, ?_⟩
  · exact
      { shape := h.shape.congr rfl holen (fun d => SameLinks.refl _)
          fun o' => ⟨(hfields o').1, (hfields o').2.1⟩
        doms := fun d hd =>
          { h.doms d hd with
            anchored := fun hgate => Nat.le_trans ((h.doms d hd).anchored hgate) (hpos d) }
        oscs := by
          intro o' ho'
          rw [holen] at ho'
          by_cases he : o' = o
          · subst he
            rw [hself]
            exact { h.oscs o' ho with units_lt := hlt }
          · rw [hne o' he]
            exact h.oscs o' ho'
        up := fun _ _ _ _ => trivial
        rated := fun d hd _ =>
          (h.rated d hd trivial).congr (g := g) rfl rfl rfl fun _ _ => rfl
        ticked := by
          intro d hd _
          rw [(hfields _).2.2.1]
          exact h.ticked d hd trivial
        settled := fun _ _ hn => absurd trivial hn
        tuned := by
          intro o' ho' hact _
          unfold Tuned
          rw [(hfields o').2.2.2.1, (hfields o').2.2.2.2.1, (hfields o').2.2.1]
          exact h.tuned o' (holen ▸ ho') ((hfields o').2.1 ▸ hact) trivial }
  · intro d _ hgate
    unfold count
    rw [ticksAt_gated hgate, ticksAt_gated (d := g.dom d) hgate]
    rfl
  · intro d _ hroot
    unfold count treeUnits
    rw [show g.dom d = f.dom d from rfl, hne _ hroot]

theorem advanceDomain_moves (h : f.Inv) (id : DomainId) (n : Nat) :
    Moves f (f.dom id).root (f.advanceDomain id n) := by
  unfold advanceDomain
  split
  · exact moves_error _ _
  split
  · exact moves_error _ _
  split
  · exact moves_error _ _
  · exact advanceUnits_moves h _ _

theorem advanceTreeTo_moves (h : f.Inv) (o : OscillatorId) (n : Nat) :
    Moves f o (f.advanceTreeTo o n) := by
  unfold advanceTreeTo
  split
  · exact moves_error _ _
  split
  · exact advanceUnits_moves h _ _
  · exact moves_ok h (Advances.refl f o)

theorem advanceToGlobal_moves (h : f.Inv) (o : OscillatorId) (t : Nat) :
    Moves f o (f.advanceToGlobal o t) := by
  unfold advanceToGlobal
  split
  · exact moves_error _ _
  split
  · exact moves_error _ _
  rename_i target _
  split
  · exact moves_ok h (Advances.refl f o)
  have hm := advanceUnits_moves h o (target - (f.osc o).units)
  dsimp only
  split
  · rename_i f' e he
    rw [he] at hm
    rw [show f' = f from hm.refused e rfl]
    exact moves_error _ _
  · rename_i f' he
    rw [he] at hm
    exact moves_ok (hm.ok () rfl).1 (hm.ok () rfl).2

theorem retouch_one (h : f.Inv) {id : DomainId} (hid : id < f.domains.length)
    {upd : ClockDomain → ClockDomain} (hlink : SameLinks (f.dom id) (upd (f.dom id)))
    (hratio : (upd (f.dom id)).ratio = (f.dom id).ratio)
    (htick : (upd (f.dom id)).unitsPerTick = (f.dom id).unitsPerTick)
    (hok : (upd (f.dom id)).Ok (f.treeUnits id)) : (f.modDom id upd).Inv := by
  have hself := modDom_dom_self f hid upd
  have hne : ∀ d, d ≠ id → (f.modDom id upd).dom d = f.dom d :=
    fun d hd => modDom_dom_ne f (Ne.symm hd) _
  have hrel : ∀ d, SameLinks (f.dom d) ((f.modDom id upd).dom d)
      ∧ ((f.modDom id upd).dom d).ratio = (f.dom d).ratio
      ∧ ((f.modDom id upd).dom d).unitsPerTick = (f.dom d).unitsPerTick := by
    intro d
    by_cases hd : d = id
    · subst hd
      rw [hself]
      exact ⟨hlink, hratio, htick⟩
    · rw [hne d hd]
      exact ⟨SameLinks.refl _, rfl, rfl⟩
  refine h.retouch (modDom_length f id _) rfl (fun d => (hrel d).1) (fun d => (hrel d).2) ?_
    (fun _ hS => hS) (fun _ _ _ _ => trivial) (fun _ _ hn => absurd trivial hn)
  intro d hd
  have hu : (f.modDom id upd).treeUnits d = f.treeUnits d := by
    unfold treeUnits
    rw [(hrel d).1.root]
    rfl
  rw [hu]
  by_cases he : d = id
  · subst he
    rw [hself]
    exact hok
  · rw [hne d he]
    exact h.doms d hd

theorem advanceAlone_moves (h : f.Inv) (id : DomainId) (n : Nat) :
    Moves f (f.dom id).root (f.advanceAlone id n) := by
  unfold advanceAlone
  split
  · exact moves_error _ _
  rename_i hcheck
  have hid := checkDomain_ok hcheck
  split
  · exact moves_error _ _
  rename_i hgate
  have hgate : (f.dom id).gated = false := by simpa using hgate
  dsimp only
  split
  · exact moves_error _ _
  rename_i own hown
  obtain ⟨delta, _, hadd⟩ := Option.bind_eq_some_iff.mp hown
  obtain ⟨hlt, rfl⟩ := checkedAdd_eq_some.mp hadd
  have hok := h.doms id hid
  set upd : ClockDomain → ClockDomain :=
    fun d => { d with own := (f.dom id).position (f.treeUnits id) + delta } with hupd
  have hself : (f.modDom id upd).dom id = upd (f.dom id) := modDom_dom_self f hid _
  have hne : ∀ d, d ≠ id → (f.modDom id upd).dom d = f.dom d :=
    fun d hd => modDom_dom_ne f (Ne.symm hd) _
  have hpos : (f.dom id).position (f.treeUnits id)
      ≤ (upd (f.dom id)).position (f.treeUnits id) :=
    Nat.le_trans (Nat.le_add_right _ _) (Nat.le_max_right _ _)
  have hu : ∀ d, (f.modDom id upd).treeUnits d = f.treeUnits d := by
    intro d
    unfold treeUnits
    by_cases he : d = id
    · subst he
      rw [hself]
      rfl
    · rw [hne d he]
      rfl
  refine moves_ok (retouch_one h hid ⟨rfl, rfl, rfl, rfl, rfl⟩ rfl rfl
    { hok with
      anchored := fun hg => Nat.le_trans (hok.anchored hg) hpos
      own_lt := hlt }) ⟨modDom_length f id _, ?_, ?_, ?_⟩
  · intro d _ hg
    rw [hu d]
    by_cases he : d = id
    · subst he
      rw [hself]
      exact ⟨hg, rfl, rfl, rfl, hpos⟩
    · rw [hne d he]
      exact ⟨hg, rfl, rfl, rfl, Nat.le_refl _⟩
  · intro d _ hg
    have he : d ≠ id := by
      rintro rfl
      rw [hgate] at hg
      cases hg
    unfold count
    rw [hu d, hne d he]
  · intro d _ hroot
    have he : d ≠ id := fun he => hroot (by rw [he])
    unfold count
    rw [hu d, hne d he]

end Advance

/-! ## Restoring a snapshot -/

section Restore

variable {f : ClockForest}

theorem restoreTicks_inv (h : f.Inv) (id : DomainId) {n : Nat} (hn : n < 2 ^ 64) :
    (f.restoreTicks id n).1.Inv := by
  unfold restoreTicks
  split
  · exact h
  rename_i hcheck
  have hid := checkDomain_ok hcheck
  have hok := h.doms id hid
  refine retouch_one h hid ⟨rfl, rfl, rfl, rfl, rfl⟩ rfl rfl ⟨hok.tick_pos, ?_, ?_, hn, ?_⟩
  · intro _
    exact Nat.le_trans (Nat.sub_le _ _) (Nat.le_max_left _ _)
  · exact Nat.lt_of_le_of_lt (Nat.sub_le _ _) (h.treeUnits_lt hid)
  · exact Nat.two_pow_pos 64

theorem restoreLead_inv (h : f.Inv) (id : DomainId) (lead : Nat) :
    (f.restoreLead id lead).1.Inv := by
  unfold restoreLead
  split
  · exact h
  rename_i hcheck
  have hid := checkDomain_ok hcheck
  split
  · exact h
  rename_i own hown
  obtain ⟨hlt, rfl⟩ := checkedAdd_eq_some.mp hown
  have hok := h.doms id hid
  refine retouch_one h hid ⟨rfl, rfl, rfl, rfl, rfl⟩ rfl rfl
    ⟨hok.tick_pos, ?_, ?_, hok.baseTicks_lt, hlt⟩
  · intro _
    exact Nat.le_trans (Nat.sub_le _ _) (Nat.le_max_right _ _)
  · exact Nat.lt_of_le_of_lt (Nat.sub_le _ _) hlt

/-- A position no running domain of the tree is anchored past. -/
def AnchorsBefore (f : ClockForest) (o : OscillatorId) (units : Nat) : Prop :=
  ∀ d, d < f.domains.length → (f.dom d).root = o → (f.dom d).gated = false →
    (f.dom d).baseUnit ≤ units

theorem map_dom (upd : ClockDomain → ClockDomain) {d : DomainId} (hd : d < f.domains.length) :
    ({ f with domains := f.domains.map upd } : ClockForest).dom d = upd (f.dom d) := by
  simp [dom, List.getD_eq_getElem?_getD, List.getElem?_eq_getElem hd]

theorem restoreUnitPosition_eq {o : OscillatorId} (ho : o < f.oscillators.length) (units : Nat) :
    ∃ bt t r bu, (f.restoreUnitPosition o units).1
      = ({ f with domains := f.domains.map fun d => if d.root = o then { d with own := 0 } else d }
          : ClockForest).modOsc o fun _ =>
        { f.osc o with
          units := units, baseUnits := bu, baseTime := bt, time := t, residual := r } := by
  have hcheck : f.checkOsc o = .ok () := by
    unfold checkOsc
    rw [if_neg (Nat.not_le.mpr ho)]
  unfold restoreUnitPosition
  simp only [hcheck]
  split
  · exact ⟨_, _, _, _, rfl⟩
  · split
    · exact ⟨_, _, _, _, rfl⟩
    · exact ⟨_, _, _, _, rfl⟩

theorem restoreUnitPosition_inv (h : f.Inv) {o : OscillatorId} {units : Nat}
    (hlt : units < 2 ^ 64) (hanch : f.AnchorsBefore o units) :
    (f.restoreUnitPosition o units).1.Inv := by
  by_cases ho : o < f.oscillators.length
  swap
  · have hcheck : f.checkOsc o = .error (.err (.unknownOscillator o)) := by
      unfold checkOsc
      rw [if_pos (Nat.not_lt.mp ho)]
    unfold restoreUnitPosition
    simp only [hcheck]
    exact h
  obtain ⟨bt, t, r, bu, hg⟩ := restoreUnitPosition_eq ho units
  rw [hg]
  set g := ({ f with domains := f.domains.map fun d =>
      if d.root = o then { d with own := 0 } else d } : ClockForest).modOsc o fun _ =>
    { f.osc o with units := units, baseUnits := bu, baseTime := bt, time := t, residual := r }
    with hg
  have hself : g.osc o = { f.osc o with
      units := units, baseUnits := bu, baseTime := bt, time := t, residual := r } :=
    modOsc_osc_self _ ho _
  have hne : ∀ o', o' ≠ o → g.osc o' = f.osc o' := fun o' hn => modOsc_osc_ne _ (Ne.symm hn) _
  have hlen : g.domains.length = f.domains.length := by simp [hg]
  have holen : g.oscillators.length = f.oscillators.length := modOsc_length _ o _
  have hdom : ∀ d, d < f.domains.length →
      g.dom d = if (f.dom d).root = o then { f.dom d with own := 0 } else f.dom d := by
    intro d hd
    exact map_dom _ hd
  have hrel : ∀ d, SameLinks (f.dom d) (g.dom d) ∧ (g.dom d).ratio = (f.dom d).ratio
      ∧ (g.dom d).unitsPerTick = (f.dom d).unitsPerTick := by
    intro d
    rcases Nat.lt_or_ge d f.domains.length with hd | hd
    · rw [hdom d hd]
      split
      · exact ⟨⟨rfl, rfl, rfl, rfl, rfl⟩, rfl, rfl⟩
      · exact ⟨SameLinks.refl _, rfl, rfl⟩
    · rw [f.dom_of_length_le hd, g.dom_of_length_le (hlen ▸ hd)]
      exact ⟨SameLinks.refl _, rfl, rfl⟩
  have hfields : ∀ o', (g.osc o').root = (f.osc o').root ∧ (g.osc o').active = (f.osc o').active
      ∧ (g.osc o').unitMul = (f.osc o').unitMul ∧ (g.osc o').unitRate = (f.osc o').unitRate
      ∧ (g.osc o').freq = (f.osc o').freq := by
    intro o'
    by_cases he : o' = o
    · subst he
      rw [hself]
      exact ⟨rfl, rfl, rfl, rfl, rfl⟩
    · rw [hne o' he]
      exact ⟨rfl, rfl, rfl, rfl, rfl⟩
  have hpar : ∀ d, g.parent d = f.parent d := fun d => (hrel d).1.parent
  exact
    { shape := h.shape.congr hlen holen (fun d => (hrel d).1)
        fun o' => ⟨(hfields o').1, (hfields o').2.1⟩
      doms := by
        intro d hd
        rw [hlen] at hd
        have hok := h.doms d hd
        have hu : g.treeUnits d = (g.osc (f.dom d).root).units := by
          unfold treeUnits
          rw [(hrel d).1.root]
        rw [hu, hdom d hd]
        by_cases hroot : (f.dom d).root = o
        · rw [if_pos hroot, hroot, hself]
          exact
            { hok with
              anchored := fun hgate =>
                Nat.le_trans (hanch d hd hroot hgate) (Nat.le_max_left _ _)
              own_lt := Nat.two_pow_pos 64 }
        · rw [if_neg hroot, hne _ hroot]
          exact hok
      oscs := by
        intro o' ho'
        rw [holen] at ho'
        by_cases he : o' = o
        · subst he
          rw [hself]
          exact { h.oscs o' ho' with units_lt := hlt }
        · rw [hne o' he]
          exact h.oscs o' ho'
      up := fun _ _ _ _ => trivial
      rated := by
        intro d hd _
        exact (h.rated d (hlen ▸ hd) trivial).congr (hpar d) (hrel d).1.mul (hrel d).1.div
          fun p _ => (hrel p).2.1
      ticked := by
        intro d hd _
        have ht := h.ticked d (hlen ▸ hd) trivial
        rw [(hrel d).1.root, (hfields _).2.2.1]
        refine ⟨?_, ?_, ?_⟩
        · rw [(hrel d).2.1]; exact ht.num_pos
        · rw [(hrel d).2.1]; exact ht.num_dvd
        · rw [(hrel d).2.1, (hrel d).2.2]; exact ht.tick_eq
      settled := fun _ _ hn => absurd trivial hn
      tuned := by
        intro o' ho' hact _
        unfold Tuned
        rw [(hfields o').2.2.2.1, (hfields o').2.2.2.2, (hfields o').2.2.1]
        exact h.tuned o' (holen ▸ ho') ((hfields o').2.1 ▸ hact) trivial }

end Restore

/-! ## Runs -/

theorem inv_new : new.Inv where
  shape :=
    { links := ⟨fun c p => by simp [parent, children, dom, new, default,
        instInhabitedClockDomain.default], fun p => by simp [children, dom, new, default,
        instInhabitedClockDomain.default]⟩
      ranked := ⟨fun _ => 0, fun c p hp => absurd (lt_of_parent _ hp) (Nat.not_lt_zero _)⟩
      parent_lt := fun d p hp => absurd (lt_of_parent _ hp) (Nat.not_lt_zero _)
      root_eq := fun d p hp => absurd (lt_of_parent _ hp) (Nat.not_lt_zero _)
      root_lt := fun d hd => absurd hd (Nat.not_lt_zero _)
      top := fun d hd => absurd hd (Nat.not_lt_zero _)
      active := fun o ho => absurd ho (Nat.not_lt_zero _)
      locked := fun o ho => absurd ho (Nat.not_lt_zero _)
      rated := fun d hd => absurd hd (Nat.not_lt_zero _) }
  doms := fun d hd => absurd hd (Nat.not_lt_zero _)
  oscs := fun o ho => absurd ho (Nat.not_lt_zero _)
  up := fun _ _ _ _ => trivial
  rated := fun d hd => absurd hd (Nat.not_lt_zero _)
  ticked := fun d hd => absurd hd (Nat.not_lt_zero _)
  settled := fun d hd => absurd hd (Nat.not_lt_zero _)
  tuned := fun o ho => absurd ho (Nat.not_lt_zero _)

end ClockForest

namespace Call

open ClockForest

/-- The call neither advances nor restores. -/
def IsTopology (c : Call) : Prop := ¬ c.IsAdvance ∧ ¬ c.IsRestore

/-- The domains a topology change re-rates: their phase is not theirs to keep. -/
def rerated (f : ClockForest) : Call → DomainId → Prop
  | setRating id _ _, d => Desc f.parent id d
  | setRatings changes, d => ∃ r ∈ changes, Desc f.parent r.domain d
  | setFrequency o _, d => (f.dom d).root = o
  | reparent id _ _ _, d => Desc f.parent id d
  | lockOscillator o _ _ _, d => Desc f.parent (f.osc o).root d
  | setGated id _, d => d = id
  | _, _ => False

def tree (f : ClockForest) : Call → OscillatorId
  | advanceDomain id _ | advanceAlone id _ => (f.dom id).root
  | advanceTreeTo o _ | advanceUnits o _ | advanceToGlobal o _ => o
  | _ => 0

/-- The call does not panic. -/
def Returns (f : ClockForest) (c : Call) : Prop := c.Succeeds f ∨ c.Refused f

/--
A call that came back, and that is not a restore of a position some running domain
of the tree is anchored past.
-/
def Orderly (f : ClockForest) (c : Call) : Prop :=
  c.Returns f ∧ ∀ o u, c = restoreUnitPosition o u → f.AnchorsBefore o u.toNat

variable {f : ClockForest}

theorem sound_unit {P : DomainId → Prop} {α : Type} {r : ClockForest × ClockResult α}
    (h : Sound f P r) : Sound f P (unit r) := by
  obtain ⟨g, out⟩ := r
  cases out with
  | ok a => exact ⟨fun _ _ => h.ok a rfl, fun _ he => absurd he (by simp [unit, Except.map])⟩
  | error e =>
    refine ⟨fun _ he => absurd he (by simp [unit, Except.map]), fun e' he => ?_⟩
    simp only [unit, Except.map, Except.error.injEq] at he
    exact h.refused e' (by rw [he])

theorem moves_unit {tree : OscillatorId} {α : Type} {r : ClockForest × ClockResult α}
    (h : Moves f tree r) : Moves f tree (unit r) := by
  obtain ⟨g, out⟩ := r
  cases out with
  | ok a => exact ⟨fun _ _ => h.ok a rfl, fun _ he => absurd he (by simp [unit, Except.map])⟩
  | error e => exact ⟨fun _ he => absurd he (by simp [unit, Except.map]), fun e' _ => h.refused e rfl⟩

theorem topology_sound (h : f.Inv) {c : Call} (hc : c.IsTopology) :
    Sound f (c.rerated f) (c.apply f) := by
  cases c with
  | addOscillator name freq => exact sound_unit (addOscillator_sound h name freq)
  | addDomain name parent mul div => exact sound_unit (addDomain_sound h name parent mul div)
  | setRating id mul div => exact setRating_sound h id mul div
  | setRatings changes => exact setRatings_sound h changes
  | setFrequency o freq => exact setFrequency_sound h o freq
  | reparent id np mul div => exact reparent_sound mul div h id np
  | lockOscillator o parent mul div => exact lockOscillator_sound mul div h o parent
  | setGated id gated => exact setGated_sound h id gated
  | advanceDomain | advanceAlone | advanceTreeTo | advanceUnits | advanceToGlobal =>
    exact absurd trivial hc.1
  | restoreUnitPosition | restoreTicks | restoreLead => exact absurd trivial hc.2

theorem advance_moves (h : f.Inv) {c : Call} (hc : c.IsAdvance) :
    Moves f (c.tree f) (c.apply f) := by
  cases c with
  | advanceDomain id n => exact advanceDomain_moves h id _
  | advanceAlone id n => exact advanceAlone_moves h id _
  | advanceTreeTo o n => exact advanceTreeTo_moves h o _
  | advanceUnits o n => exact advanceUnits_moves h o _
  | advanceToGlobal o t => exact moves_unit (advanceToGlobal_moves h o _)
  | addOscillator | addDomain | setRating | setRatings | setFrequency | reparent
  | lockOscillator | setGated | restoreUnitPosition | restoreTicks | restoreLead =>
    exact absurd hc (by simp [IsAdvance])

theorem call_inv (h : f.Inv) {c : Call} (hc : c.Orderly f) : (c.apply f).1.Inv := by
  by_cases htop : c.IsTopology
  · have hs := topology_sound h htop
    rcases hc.1 with hok | ⟨e, he⟩
    · exact (hs.ok () hok).1
    · rw [hs.refused e he]
      exact h
  by_cases hadv : c.IsAdvance
  · have hm := advance_moves h hadv
    rcases hc.1 with hok | ⟨e, he⟩
    · exact (hm.ok () hok).1
    · rw [hm.refused _ he]
      exact h
  cases c with
  | restoreUnitPosition o u => exact restoreUnitPosition_inv h u.toNat_lt (hc.2 o u rfl)
  | restoreTicks id n => exact restoreTicks_inv h id n.toNat_lt
  | restoreLead id n => exact restoreLead_inv h id _
  | advanceDomain | advanceAlone | advanceTreeTo | advanceUnits | advanceToGlobal =>
    exact absurd trivial hadv
  | addOscillator | addDomain | setRating | setRatings | setFrequency | reparent
  | lockOscillator | setGated =>
    exact absurd ⟨fun hf => hf, fun hf => hf⟩ htop

end Call

theorem Reaches.mono {ok ok' : ClockForest → Call → Prop} (hok : ∀ f c, ok f c → ok' f c)
    {f : ClockForest} (h : Reaches ok f) : Reaches ok' f := by
  induction h with
  | init => exact Reaches.init
  | tail c _ hc ih => exact Reaches.tail c ih (hok _ c hc)

theorem inv_reachable {f : ClockForest} (h : Reaches (fun f c => c.Orderly f) f) : f.Inv := by
  induction h with
  | init => exact ClockForest.inv_new
  | tail c _ hc ih => exact Call.call_inv ih hc

/-! ## The representation invariant, spelled out -/

namespace ClockForest

/-- The product of the ratings on the way from a domain up to its root. -/
inductive PathProduct (f : ClockForest) : DomainId → ℚ → Prop where
  | root {d : DomainId} : f.parent d = none → PathProduct f d 1
  | child {d p : DomainId} {q : ℚ} : f.parent d = some p → PathProduct f p q →
      PathProduct f d (q * (((f.dom d).mul.toNat : ℚ) / ((f.dom d).div.toNat : ℚ)))

def rate (f : ClockForest) (d : DomainId) : ℚ :=
  (f.osc (f.dom d).root).freq.toQ * (f.dom d).ratio.toQ

/-- What the fields of a forest mean to each other. -/
structure Represented (f : ClockForest) : Prop where
  /-- A domain's ratio is the product of the ratings above it, in lowest terms. -/
  ratio : ∀ o, o < f.oscillators.length → (f.osc o).active = true →
    ∀ d ∈ f.subtree (f.osc o).root,
      f.PathProduct d (f.dom d).ratio.toQ ∧ Nat.Coprime (f.dom d).ratio.num (f.dom d).ratio.den
  /-- One tick of a domain is a whole, positive number of unit ticks, and the exact one. -/
  tick : ∀ o, o < f.oscillators.length → (f.osc o).active = true →
    ∀ d ∈ f.subtree (f.osc o).root,
      (f.dom d).ratio.num ∣ (f.osc o).unitMul
        ∧ (f.dom d).unitsPerTick * (f.dom d).ratio.num = (f.osc o).unitMul * (f.dom d).ratio.den
        ∧ 0 < (f.dom d).unitsPerTick
  /-- The unit tick runs at the crystal's frequency times the unit multiplier. -/
  unitRate : ∀ o, o < f.oscillators.length → (f.osc o).active = true →
    (f.osc o).unitRate.toQ = (f.osc o).freq.toQ * ((f.osc o).unitMul : ℚ)
  /-- Parent and child links agree, and there is no cycle. -/
  links : Links f.parent f.children
  acyclic : Ranked f.parent
  /-- A running domain stands at or past its anchor. -/
  anchored : ∀ o, o < f.oscillators.length → (f.osc o).active = true →
    ∀ d ∈ f.subtree (f.osc o).root, (f.dom d).gated = false →
      (f.dom d).baseUnit ≤ max (f.osc o).units (f.dom d).own
  /-- A conversion that does not overflow is the exact one, rounded down. -/
  convert : ∀ a b n v, f.convertTicks a b n = .ok v →
    v = ⌊(n : ℚ) * f.rate b / f.rate a⌋₊

section Represented

variable {f : ClockForest}

theorem Inv.pathProduct (h : f.Inv) :
    ∀ d, d < f.domains.length → f.PathProduct d (f.dom d).ratio.toQ := by
  refine h.shape.ranked.induction ?_ ?_
  · intro d hp hd
    rw [(h.rated d hd trivial).root hp, Rational.toQ_one]
    exact PathProduct.root hp
  · intro d p hp ih hd
    rw [(h.rated d hd trivial).child p hp]
    exact PathProduct.child hp (ih (h.shape.parent_lt d p hp))

theorem Inv.tick_mul (h : f.Inv) {d : DomainId} (hd : d < f.domains.length) :
    (f.dom d).unitsPerTick * (f.dom d).ratio.num
      = (f.osc (f.dom d).root).unitMul * (f.dom d).ratio.den := by
  have ht := h.ticked d hd trivial
  rw [ht.tick_eq, Nat.mul_right_comm, Nat.div_mul_cancel ht.num_dvd]

theorem Inv.rate_mul_tick (h : f.Inv) {d : DomainId} (hd : d < f.domains.length) :
    f.rate d * ((f.dom d).unitsPerTick : ℚ)
      = (f.osc (f.dom d).root).freq.toQ * ((f.osc (f.dom d).root).unitMul : ℚ) := by
  have hm : ((f.dom d).unitsPerTick : ℚ) * ((f.dom d).ratio.num : ℚ)
      = ((f.osc (f.dom d).root).unitMul : ℚ) * ((f.dom d).ratio.den : ℚ) := by
    exact_mod_cast h.tick_mul hd
  have hr : (f.dom d).ratio.toQ * ((f.dom d).unitsPerTick : ℚ)
      = ((f.osc (f.dom d).root).unitMul : ℚ) := by
    unfold Rational.toQ
    rw [div_mul_eq_mul_div, div_eq_iff (f.dom d).ratio.den_ne_zero, mul_comm]
    exact hm
  rw [rate, mul_assoc, hr]

theorem Inv.rate_pos (h : f.Inv) {d : DomainId} (hd : d < f.domains.length) : 0 < f.rate d :=
  mul_pos (Rational.toQ_pos (h.oscs _ (h.shape.root_lt d hd)).freq_pos)
    (Rational.toQ_pos (h.ticked d hd trivial).num_pos)

theorem Inv.convertTicks_eq (h : f.Inv) {a b : DomainId} {n v : Nat}
    (hv : f.convertTicks a b n = .ok v) : v = ⌊(n : ℚ) * f.rate b / f.rate a⌋₊ := by
  unfold convertTicks at hv
  split at hv
  · cases hv
  rename_i hca
  have ha := checkDomain_ok hca
  split at hv
  · cases hv
  rename_i hcb
  have hb := checkDomain_ok hcb
  split at hv
  · cases hv
  rename_i hroot
  have hroot := not_not.mp hroot
  split at hv
  · cases hv
  rename_i units hunits
  obtain ⟨_, rfl⟩ := checkedMul_eq_some.mp hunits
  obtain rfl := Except.ok.inj hv
  have hka := h.rate_mul_tick ha
  have hkb := h.rate_mul_tick hb
  rw [hroot] at hka
  have hpa := h.rate_pos ha
  have hkpos : (0 : ℚ) < ((f.dom b).unitsPerTick : ℚ) := Nat.cast_pos.mpr (h.doms b hb).tick_pos
  have hq : (n : ℚ) * f.rate b / f.rate a
      = ((n * (f.dom a).unitsPerTick : Nat) : ℚ) / ((f.dom b).unitsPerTick : ℚ) := by
    rw [div_eq_div_iff (ne_of_gt hpa) (ne_of_gt hkpos), Nat.cast_mul]
    linear_combination (n : ℚ) * hkb - (n : ℚ) * hka
  rw [hq, Nat.floor_div_eq_div]

theorem Inv.represented (h : f.Inv) : f.Represented where
  ratio := by
    intro o ho hact d hd
    obtain ⟨hlt, _⟩ := (h.shape.mem_tree ho hact).mp hd
    exact ⟨h.pathProduct d hlt, (f.dom d).ratio.reduced⟩
  tick := by
    intro o ho hact d hd
    obtain ⟨hlt, rfl⟩ := (h.shape.mem_tree ho hact).mp hd
    exact ⟨(h.ticked d hlt trivial).num_dvd, h.tick_mul hlt, (h.doms d hlt).tick_pos⟩
  unitRate := fun o ho hact => h.tuned o ho hact trivial
  links := h.shape.links
  acyclic := h.shape.ranked
  anchored := by
    intro o ho hact d hd hgate
    obtain ⟨hlt, rfl⟩ := (h.shape.mem_tree ho hact).mp hd
    exact (h.doms d hlt).anchored hgate
  convert := fun a b n v hv => h.convertTicks_eq hv

end Represented

end ClockForest

/--
**The representation invariant.** Whatever crystals and domains were added, rated,
moved, locked, gated and advanced, and in whatever order, the derived fields of
every tree are the exact consequences of its ratings.
-/
theorem represented_reachable {f : ClockForest}
    (h : Reaches (fun f c => ¬ c.IsRestore ∧ c.Succeeds f) f) : f.Represented := by
  refine (inv_reachable (h.mono fun f c hc => ⟨Or.inl hc.2, ?_⟩)).represented
  rintro o u rfl
  exact absurd trivial hc.1

def nesCalls : List Call :=
  [.addOscillator "master" (Rational.integer 21477272), .addDomain "cpu" 0 1 12,
    .addDomain "ppu" 1 3 1, .advanceDomain 1 5, .setRating 2 2 1, .reparent 2 0 1 4]

def Call.applyAll : List Call → ClockForest → ClockForest
  | [], f => f
  | c :: rest, f => applyAll rest (c.apply f).1

theorem represented_nes : (Call.applyAll nesCalls ClockForest.new).Represented :=
  represented_reachable
    (((((((Reaches.init.tail _ ⟨fun h => h, rfl⟩).tail _ ⟨fun h => h, rfl⟩).tail _
      ⟨fun h => h, rfl⟩).tail _ ⟨fun h => h, rfl⟩).tail _ ⟨fun h => h, rfl⟩).tail _
      ⟨fun h => h, rfl⟩))

/-! ## No tick lost, none made up -/

namespace ClockForest

theorem ticks_eq (f : ClockForest) {d n : Nat} :
    f.ticks d = .ok n ↔ d < f.domains.length ∧ n = f.count d := by
  unfold ticks checkDomain
  by_cases hd : f.domains.length ≤ d
  · rw [if_pos hd]
    exact ⟨nofun, fun h => absurd h.1 (Nat.not_lt.mpr hd)⟩
  · rw [if_neg hd]
    simp only [Except.ok.injEq]
    exact ⟨fun h => ⟨Nat.not_le.mp hd, h.symm⟩, fun h => h.2.symm⟩

end ClockForest

/--
**No tick is lost or made up.** From any state an orderly run reaches, a topology
change, whether it succeeds or is refused, leaves every count as it was, and leaves
a running domain it did not re-rate the same number of seconds from its next tick.
An advance takes no count back, and moves neither a gated domain nor another tree.
-/
theorem ticks_kept {f : ClockForest} (h : Reaches (fun f c => c.Orderly f) f) (c : Call)
    (hret : c.Returns f) :
    (c.IsTopology →
      (∀ d n, f.ticks d = .ok n → (c.apply f).1.ticks d = .ok n)
        ∧ ∀ d, d < f.domains.length → ¬ c.rerated f d → (f.dom d).gated = false →
          ((c.apply f).1.dom d).gated = false
            ∧ (c.apply f).1.secondsToTick d = f.secondsToTick d)
      ∧ (c.IsAdvance → (c.apply f).1.CountsFit →
        ∀ d n, f.ticks d = .ok n → ∃ n', (c.apply f).1.ticks d = .ok n' ∧ n ≤ n'
          ∧ ((f.dom d).gated = true → n' = n) ∧ ((f.dom d).root ≠ c.tree f → n' = n)) := by
  have hinv := inv_reachable h
  constructor
  · intro htop
    have hs := Call.topology_sound hinv htop
    have hk : f.Keeps (c.apply f).1 (c.rerated f) := by
      rcases hret with hok | ⟨e, he⟩
      · exact (hs.ok () hok).2
      · rw [hs.refused e he]
        exact ClockForest.Keeps.refl f _
    constructor
    · intro d n hn
      obtain ⟨hd, rfl⟩ := (f.ticks_eq).mp hn
      exact (ClockForest.ticks_eq _).mpr
        ⟨Nat.lt_of_lt_of_le hd hk.length_le, (hk.count d hd).symm⟩
    · intro d hd hP hgate
      exact ⟨(hk.gated d hd hP).trans hgate, hk.phase d hd hP hgate⟩
  · intro hadv hfit d n hn
    obtain ⟨hd, rfl⟩ := (f.ticks_eq).mp hn
    have hm := Call.advance_moves hinv hadv
    have ha : (c.apply f).1.Inv ∧ f.Advances (c.apply f).1 (c.tree f) := by
      rcases hret with hok | ⟨e, he⟩
      · exact hm.ok () hok
      · rw [hm.refused _ he]
        exact ⟨hinv, ClockForest.Advances.refl f _⟩
    refine ⟨(c.apply f).1.count d,
      (ClockForest.ticks_eq _).mpr ⟨ha.2.length ▸ hd, rfl⟩, ?_, ?_, ?_⟩
    · exact ha.2.count_le hinv ha.1 hfit hd
    · exact fun hgate => ha.2.gated d hd hgate
    · exact fun hroot => ha.2.other d hd hroot

/-- The NES board after five CPU ticks, and its PPU re-rated once more: it has counted fifteen. -/
theorem ticks_kept_nes :
    (Call.applyAll nesCalls ClockForest.new).ticks 2 = .ok 15
      ∧ ((Call.setRating 2 1 8).apply (Call.applyAll nesCalls ClockForest.new)).1.ticks 2
        = .ok 15 := by
  have hr : Reaches (fun f c => c.Orderly f) (Call.applyAll nesCalls ClockForest.new) :=
    (((((((Reaches.init.tail _ ⟨Or.inl rfl, by simp⟩).tail _ ⟨Or.inl rfl, by simp⟩).tail _
      ⟨Or.inl rfl, by simp⟩).tail _ ⟨Or.inl rfl, by simp⟩).tail _
      ⟨Or.inl rfl, by simp⟩).tail _ ⟨Or.inl rfl, by simp⟩))
  have h15 : (Call.applyAll nesCalls ClockForest.new).ticks 2 = .ok 15 := rfl
  exact ⟨h15, ((ticks_kept hr (.setRating 2 1 8) (Or.inl rfl)).1
    ⟨fun hf => hf, fun hf => hf⟩).1 2 15 h15⟩

end Rsemu.Clock
