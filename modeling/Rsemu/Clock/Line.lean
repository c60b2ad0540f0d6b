import Mathlib.Logic.Relation
import Rsemu.Clock.Restoring

/-!
# A count as a line

`tick_line` hands a reader a line instead of a number, so that a device can be read many
times in a round without asking the forest again. The remainder the floor dropped goes
with it, and that is what keeps a reader that anchors again from seeing one tick less
(`Onward.reads_le`).

The line is the count wherever the domain stands at or past its anchor (`Placed`). The
one call that can leave a running domain behind its anchor is the restore of a tree's
position, until the restore of the domain's own count, and there the line and the count
say different things: one saturates what the other subtracts (`unplaced_line`).
-/

namespace Rsemu.Clock

open Word Forest

namespace ClockForest

/-- The domain is gated, or not ahead of its tree. -/
def Placed (f : ClockForest) (id : DomainId) : Prop :=
  (f.dom id).gated = true ∨ (f.dom id).baseUnit ≤ (f.dom id).position (f.treeUnits id)

/-- **The count lies on the line**, in each of the three shapes a line has. -/
structure LiesOn (f : ClockForest) (id : DomainId) (units whole rem per : Nat) : Prop where
  /-- A line that moves: every later position whose count fits the counter. -/
  moving : per ≠ 0 → ∀ x, units + x < 2 ^ 64 → whole + (rem + x) / per < 2 ^ 64 →
    f.ticksAtUnits id (units + x) = .ok (whole + (rem + x) / per)
  /-- A gated domain reads the same everywhere. -/
  gated : per = 0 → (f.dom id).gated = true → ∀ x, f.ticksAtUnits id (units + x) = .ok whole
  /-- A domain ahead of the reader reads the same until the reader gets there. -/
  ahead : per = 0 → (f.dom id).gated = false →
    ∀ x, units + x ≤ max (f.treeUnits id) (f.dom id).own →
      f.ticksAtUnits id (units + x) = .ok whole

section Line

variable {f : ClockForest} {id : DomainId}

def frontAt (f : ClockForest) (id : DomainId) (units : Nat) : Nat :=
  (f.dom id).position (max units (f.treeUnits id))

theorem frontAt_eq (f : ClockForest) (id : DomainId) (units : Nat) :
    f.frontAt id units = max units ((f.dom id).position (f.treeUnits id)) := by
  exact max_assoc _ _ _

theorem ticksAtUnits_eq (hid : id < f.domains.length) (units : Nat) :
    f.ticksAtUnits id units = .ok ((f.dom id).ticksAt (f.frontAt id units)) := by
  unfold ticksAtUnits checkDomain
  rw [if_neg (Nat.not_le.mpr hid)]
  rfl

theorem tickLine_ok {units whole rem per : Nat} (h : f.tickLine id units = .ok (whole, rem, per)) :
    id < f.domains.length ∧
      ((((f.dom id).gated = true ∨ f.frontAt id units ≠ units) ∧ per = 0
          ∧ whole = (f.dom id).ticksAt (f.frontAt id units))
        ∨ ((f.dom id).gated = false ∧ f.frontAt id units = units
          ∧ whole = wrappingAdd 64 (f.dom id).baseTicks
              ((units - (f.dom id).baseUnit) / (f.dom id).unitsPerTick)
          ∧ rem = (units - (f.dom id).baseUnit) % (f.dom id).unitsPerTick
          ∧ per = (f.dom id).unitsPerTick)) := by
  unfold tickLine at h
  split at h
  · exact absurd h (by simp)
  rename_i hcheck
  refine ⟨checkDomain_ok hcheck, ?_⟩
  dsimp only at h
  split at h
  · rename_i hflat
    simp only [Bool.or_eq_true, bne_iff_ne] at hflat
    simp only [Except.ok.injEq, Prod.mk.injEq] at h
    obtain ⟨hw, _, hp⟩ := h
    exact Or.inl ⟨hflat, hp.symm, hw.symm⟩
  · rename_i hline
    simp only [Bool.or_eq_true, bne_iff_ne, not_or, Bool.not_eq_true, ne_eq, not_not] at hline
    simp only [Except.ok.injEq, Prod.mk.injEq] at h
    obtain ⟨hw, hr, hp⟩ := h
    rw [hline.2] at hw hr
    exact Or.inr ⟨hline.1, hline.2, hw.symm, hr.symm, hp.symm⟩

theorem carried_div (n x : Nat) {m : Nat} (hm : 0 < m) : (n + x) / m = n / m + (n % m + x) / m := by
  conv_lhs => rw [← Nat.div_add_mod n m, Nat.add_assoc, Nat.add_comm, Nat.add_mul_div_left _ _ hm]
  exact Nat.add_comm _ _

theorem tickLine_liesOn {units whole rem per : Nat}
    (h : f.tickLine id units = .ok (whole, rem, per)) (hp : f.Placed id) :
    f.LiesOn id units whole rem per := by
  obtain ⟨hid, hflat | hline⟩ := tickLine_ok h
  · obtain ⟨hwhy, hper, hw⟩ := hflat
    refine ⟨fun hne => absurd hper hne, fun _ hg x => ?_, fun _ hg x hx => ?_⟩
    · rw [ticksAtUnits_eq hid, hw, ticksAt_gated hg, ticksAt_gated hg]
    · -- both positions stand for the place the domain is already at
      change units + x ≤ (f.dom id).position (f.treeUnits id) at hx
      rw [ticksAtUnits_eq hid, hw, frontAt_eq, frontAt_eq, max_eq_right hx,
        max_eq_right (by omega)]
  · obtain ⟨hg, hfront, hw, hr, hper⟩ := hline
    have hpos : (f.dom id).position (f.treeUnits id) ≤ units := by
      rw [frontAt_eq] at hfront
      omega
    have hbase : (f.dom id).baseUnit ≤ units := by
      refine Nat.le_trans (hp.resolve_left ?_) hpos
      rw [hg]
      exact Bool.false_ne_true
    refine ⟨fun hne x hx hfit => ?_, fun _ hg' => ?_, fun hzero _ x hx => ?_⟩
    · rw [ticksAtUnits_eq hid, frontAt_eq, max_eq_left (by omega),
        ticksAt_running hg (by omega) hx]
      congr 1
      have hsub : units + x - (f.dom id).baseUnit = units - (f.dom id).baseUnit + x := by omega
      rw [hsub, carried_div _ _ (Nat.pos_of_ne_zero (hper ▸ hne)), ← hr, ← hper]
      rw [← hper] at hw
      subst hw
      unfold wrappingAdd at hfit ⊢
      rw [← Nat.add_assoc, Nat.add_mod, Nat.mod_eq_of_lt (Nat.lt_of_le_of_lt
        (Nat.le_add_left _ _) hfit), Nat.mod_eq_of_lt hfit]
    · rw [hg] at hg'
      exact absurd hg' Bool.false_ne_true
    · -- a rate of zero would leave only the anchor itself on the line
      change units + x ≤ (f.dom id).position (f.treeUnits id) at hx
      obtain rfl : x = 0 := by omega
      rw [ticksAtUnits_eq hid, Nat.add_zero, hfront, hw]
      unfold ClockDomain.ticksAt
      rw [if_neg (by rw [hg]; exact Bool.false_ne_true), ← hper, hzero, Nat.div_zero, Nat.div_zero]

/-- A reader that anchored a line somewhere reads `v` at the position `q`. -/
def Reads (f : ClockForest) (id : DomainId) (q v : Nat) : Prop :=
  ∃ units x whole rem per, f.tickLine id units = .ok (whole, rem, per) ∧ q = units + x
    ∧ q < 2 ^ 64 ∧ v < 2 ^ 64
    ∧ ((per ≠ 0 ∧ v = whole + (rem + x) / per)
      ∨ (per = 0 ∧ v = whole
        ∧ ((f.dom id).gated = true ∨ q ≤ max (f.treeUnits id) (f.dom id).own)))

theorem Reads.ticksAtUnits_eq {q v : Nat} (h : f.Reads id q v) (hp : f.Placed id) :
    f.ticksAtUnits id q = .ok v := by
  obtain ⟨units, x, whole, rem, per, hline, rfl, hq, hv, hm | hflat⟩ := h
  · obtain ⟨hne, rfl⟩ := hm
    exact (tickLine_liesOn hline hp).moving hne x hq hv
  · obtain ⟨hzero, rfl, hwhere⟩ := hflat
    have hon := tickLine_liesOn hline hp
    cases hg : (f.dom id).gated with
    | true => exact hon.gated hzero hg x
    | false =>
      refine hon.ahead hzero hg x (hwhere.resolve_left ?_)
      rw [hg]
      exact Bool.false_ne_true

/-- A domain that nothing has re-rated, gated or restored since, and that has not gone back. -/
structure Onward (f g : ClockForest) (id : DomainId) : Prop where
  length : g.domains.length = f.domains.length
  gated : (g.dom id).gated = (f.dom id).gated
  baseTicks : (g.dom id).baseTicks = (f.dom id).baseTicks
  baseUnit : (g.dom id).baseUnit = (f.dom id).baseUnit
  unitsPerTick : (g.dom id).unitsPerTick = (f.dom id).unitsPerTick
  position_le : (f.dom id).gated = false →
    (f.dom id).position (f.treeUnits id) ≤ (g.dom id).position (g.treeUnits id)

theorem Onward.refl (f : ClockForest) (id : DomainId) : Onward f f id :=
  ⟨rfl, rfl, rfl, rfl, rfl, fun _ => Nat.le_refl _⟩

variable {g : ClockForest}

theorem Onward.trans {k : ClockForest} (h : Onward f g id) (h' : Onward g k id) : Onward f k id :=
  ⟨h'.length.trans h.length, h'.gated.trans h.gated, h'.baseTicks.trans h.baseTicks,
    h'.baseUnit.trans h.baseUnit, h'.unitsPerTick.trans h.unitsPerTick, fun hg =>
    Nat.le_trans (h.position_le hg) (h'.position_le (h.gated.trans hg))⟩

theorem Onward.placed (h : Onward f g id) (hp : f.Placed id) : g.Placed id := by
  unfold Placed
  rw [h.gated, h.baseUnit]
  cases hg : (f.dom id).gated with
  | true => exact Or.inl rfl
  | false =>
    refine Or.inr (Nat.le_trans (hp.resolve_left ?_) (h.position_le hg))
    rw [hg]
    exact Bool.false_ne_true

/-- The count at a position, before the counter's width is taken into account, fits it. -/
def CountFits (f : ClockForest) (id : DomainId) (q : Nat) : Prop :=
  (f.dom id).gated = false →
    (f.dom id).baseTicks
      + (f.frontAt id q - (f.dom id).baseUnit) / (f.dom id).unitsPerTick < 2 ^ 64

theorem Onward.reads_le (h : Onward f g id) (hp : f.Placed id) {q q' v v' : Nat}
    (hv : f.Reads id q v) (hv' : g.Reads id q' v') (hq : q ≤ q')
    (hlt : (g.dom id).position (g.treeUnits id) < 2 ^ 64) (hfit : g.CountFits id q') : v ≤ v' := by
  have hq' : q' < 2 ^ 64 := by
    obtain ⟨_, _, _, _, _, _, _, hq', _⟩ := hv'
    exact hq'
  have hid : id < f.domains.length := by
    obtain ⟨_, _, _, _, _, hline, _⟩ := hv
    exact (tickLine_ok hline).1
  have hc := hv.ticksAtUnits_eq hp
  have hc' := hv'.ticksAtUnits_eq (h.placed hp)
  rw [ticksAtUnits_eq hid] at hc
  rw [ticksAtUnits_eq (h.length ▸ hid)] at hc'
  obtain rfl := Except.ok.inj hc
  obtain rfl := Except.ok.inj hc'
  cases hg : (f.dom id).gated with
  | true => rw [ticksAt_gated hg, ticksAt_gated (h.gated.trans hg), h.baseTicks]
  | false =>
    have hg' := h.gated.trans hg
    have hbase : (f.dom id).baseUnit ≤ (f.dom id).position (f.treeUnits id) := by
      refine hp.resolve_left ?_
      rw [hg]
      exact Bool.false_ne_true
    have hfront : f.frontAt id q ≤ g.frontAt id q' := by
      have := h.position_le hg
      rw [frontAt_eq, frontAt_eq]
      omega
    have hlow : (f.dom id).baseUnit ≤ f.frontAt id q := by
      rw [frontAt_eq]
      omega
    have hhigh : g.frontAt id q' < 2 ^ 64 := by
      rw [frontAt_eq]
      omega
    have hsum := hfit hg'
    rw [ticksAt_running hg hlow (by omega), ticksAt_running hg' (h.baseUnit ▸ by omega) hhigh,
      wrappingAdd_of_lt hsum, h.baseTicks, h.baseUnit, h.unitsPerTick]
    calc wrappingAdd 64 (f.dom id).baseTicks
          ((f.frontAt id q - (f.dom id).baseUnit) / (f.dom id).unitsPerTick)
        ≤ (f.dom id).baseTicks
          + (f.frontAt id q - (f.dom id).baseUnit) / (f.dom id).unitsPerTick := Nat.mod_le _ _
      _ ≤ (f.dom id).baseTicks
          + (g.frontAt id q' - (f.dom id).baseUnit) / (f.dom id).unitsPerTick :=
          Nat.add_le_add_left (Nat.div_le_div_right (Nat.sub_le_sub_right hfront _)) _

/-- An advance writes no more of a domain than how far it has got on its own. -/
structure OwnOnly (f g : ClockForest) : Prop where
  length : g.domains.length = f.domains.length
  dom : ∀ d, ∃ own, g.dom d = { f.dom d with own := own }

theorem OwnOnly.refl (f : ClockForest) : OwnOnly f f := ⟨rfl, fun _ => ⟨_, rfl⟩⟩

theorem advanceUnits_ownOnly (f : ClockForest) (o : OscillatorId) (n : Nat) :
    OwnOnly f (f.advanceUnits o n).1 := by
  unfold advanceUnits
  split
  · exact OwnOnly.refl f
  split
  · exact OwnOnly.refl f
  split
  · exact OwnOnly.refl f
  · exact ⟨rfl, fun _ => ⟨_, rfl⟩⟩

theorem advanceAlone_ownOnly (f : ClockForest) (id : DomainId) (n : Nat) :
    OwnOnly f (f.advanceAlone id n).1 := by
  unfold advanceAlone
  split
  · exact OwnOnly.refl f
  rename_i hcheck
  have hid := checkDomain_ok hcheck
  split
  · exact OwnOnly.refl f
  dsimp only
  split
  · exact OwnOnly.refl f
  rename_i own _
  refine ⟨modDom_length f id _, fun d => ?_⟩
  by_cases he : id = d
  · subst he
    exact ⟨own, modDom_dom_self f hid _⟩
  · exact ⟨_, modDom_dom_ne f he _⟩

theorem advance_ownOnly (f : ClockForest) {c : Call} (hc : c.IsAdvance) :
    OwnOnly f (c.apply f).1 := by
  cases c with
  | advanceUnits o n => exact advanceUnits_ownOnly f o _
  | advanceDomain id n =>
    change OwnOnly f (f.advanceDomain id n.toNat).1
    unfold advanceDomain
    split
    · exact OwnOnly.refl f
    split
    · exact OwnOnly.refl f
    split
    · exact OwnOnly.refl f
    · exact advanceUnits_ownOnly f _ _
  | advanceAlone id n => exact advanceAlone_ownOnly f id _
  | advanceTreeTo o n =>
    change OwnOnly f (f.advanceTreeTo o n.toNat).1
    unfold advanceTreeTo
    split
    · exact OwnOnly.refl f
    split
    · exact advanceUnits_ownOnly f _ _
    · exact OwnOnly.refl f
  | advanceToGlobal o t =>
    change OwnOnly f (f.advanceToGlobal o t.toNat).1
    unfold advanceToGlobal
    split
    · exact OwnOnly.refl f
    split
    · exact OwnOnly.refl f
    split
    · exact OwnOnly.refl f
    rename_i target _ _
    have hadv := advanceUnits_ownOnly f o (target - (f.osc o).units)
    dsimp only
    split
    · rename_i g _ hg
      exact congrArg Prod.fst hg ▸ hadv
    · rename_i g hg
      exact congrArg Prod.fst hg ▸ hadv
  | addOscillator | addDomain | setRating | setRatings | setFrequency | reparent
  | lockOscillator | setGated | restoreUnitPosition | restoreTicks | restoreLead =>
    exact absurd hc (by simp [Call.IsAdvance])

theorem advance_onward (h : f.Inv) {c : Call} (hc : c.IsAdvance) (hid : id < f.domains.length) :
    (c.apply f).1.Inv ∧ Onward f (c.apply f).1 id := by
  have hm := Call.advance_moves h hc
  cases hr : (c.apply f).2 with
  | error e =>
    rw [hm.refused e hr]
    exact ⟨h, Onward.refl f id⟩
  | ok u =>
    obtain ⟨hinv, hadv⟩ := hm.ok u hr
    have hown := advance_ownOnly f hc
    obtain ⟨own, hdom⟩ := hown.dom id
    refine ⟨hinv, hown.length, ?_, ?_, ?_, ?_, fun hg => ?_⟩
    · rw [hdom]
    · rw [hdom]
    · rw [hdom]
    · rw [hdom]
    · exact (hadv.exact_le id hid hg).2.2.2.2

/-- Reached by advances alone. -/
def Advanced : ClockForest → ClockForest → Prop :=
  Relation.ReflTransGen fun f g => ∃ c : Call, c.IsAdvance ∧ g = (c.apply f).1

theorem Advanced.onward (ha : Advanced f g) (h : f.Inv) (hid : id < f.domains.length) :
    g.Inv ∧ Onward f g id := by
  induction ha with
  | refl => exact ⟨h, Onward.refl f id⟩
  | tail _ hstep ih =>
    obtain ⟨hinv, hon⟩ := ih
    obtain ⟨c, hc, rfl⟩ := hstep
    obtain ⟨hinv', hon'⟩ := advance_onward hinv hc (Nat.lt_of_lt_of_eq hid hon.length.symm)
    exact ⟨hinv', hon.trans hon'⟩

theorem Anchored.placed (h : f.Anchored) (hid : id < f.domains.length) : f.Placed id := by
  cases hg : (f.dom id).gated with
  | true => exact Or.inl hg
  | false => exact Or.inr (h id hid hg)

theorem restoreTicks_placed {n : Nat} (hok : (f.restoreTicks id n).2 = .ok ()) :
    (f.restoreTicks id n).1.Placed id := by
  unfold restoreTicks at hok ⊢
  split at hok
  · cases hok
  rename_i hcheck
  have hid := checkDomain_ok hcheck
  refine Or.inr ?_
  unfold treeUnits
  rw [modDom_dom_self f hid _]
  exact Nat.le_trans (Nat.sub_le _ _) (Nat.le_max_left _ _)

end Line

end ClockForest

/--
**`tick_line` is the line the count lies on.** On any forest, for any domain that is
gated or stands at or past its anchor, at any position. In a kept run every domain of an
anchored forest is such a domain, a forest stays anchored through every call but the
restore of a position, and after that one a domain is such a domain again once its count
is restored. And there, whatever lines they have anchored and whatever has been advanced
in between, of two readers the later one reads no less.
-/
theorem tickLine_spec (f : ClockForest) :
    (∀ id, f.Placed id → ∀ units whole rem per, f.tickLine id units = .ok (whole, rem, per) →
      f.LiesOn id units whole rem per)
    ∧ (Reaches (fun f c => c.Kept f) f → f.Anchored →
      (∀ id, id < f.domains.length → f.Placed id)
      ∧ (∀ c : Call, c.Returns f → (∀ o u, c ≠ .restoreUnitPosition o u) →
        (c.apply f).1.Anchored)
      ∧ ∀ g, f.Advanced g → ∀ id q q' v v', q ≤ q' → f.Reads id q v → g.Reads id q' v' →
        g.CountFits id q' → v ≤ v')
    ∧ ∀ id n, (f.restoreTicks id n).2 = .ok () → (f.restoreTicks id n).1.Placed id := by
  refine ⟨fun id hp units whole rem per h => ClockForest.tickLine_liesOn h hp,
    fun hrun ha => ?_, fun id n hok => ClockForest.restoreTicks_placed hok⟩
  have hinv := (loose_reachable hrun).inv_of_anchored ha
  refine ⟨fun id hid => ha.placed hid, fun c hret hne => ?_,
    fun g hadv id q q' v v' hq hv hv' hfit => ?_⟩
  · refine (Call.call_inv hinv ⟨hret, fun o u he => absurd he (hne o u)⟩).anchored
  · have hid : id < f.domains.length := by
      obtain ⟨_, _, _, _, _, hline, _⟩ := hv
      exact (ClockForest.tickLine_ok hline).1
    obtain ⟨hinv', hon⟩ := hadv.onward hinv hid
    have hid' : id < g.domains.length := Nat.lt_of_lt_of_eq hid hon.length.symm
    exact hon.reads_le (ha.placed hid) hv hv' hq
      (ClockForest.position_lt (hinv'.doms id hid') (hinv'.treeUnits_lt hid')) hfit

def unplacedCalls : List Call :=
  [.addOscillator "master" (Rational.integer 1000), .addDomain "timer" 0 1 2,
    .advanceUnits 0 10, .setRating 1 1 3, .restoreUnitPosition 0 0]

/-- **Behind its anchor a domain's line and its count differ**: the line saturates. -/
theorem unplaced_line :
    (Call.applyAll unplacedCalls ClockForest.new).tickLine 1 0 = .ok (5, 0, 3)
      ∧ (Call.applyAll unplacedCalls ClockForest.new).ticksAtUnits 1 0
        = .ok (5 + (2 ^ 64 - 10) / 3)
      ∧ Reaches (fun f c => c.Succeeds f) (Call.applyAll unplacedCalls ClockForest.new) := by
  refine ⟨by decide +kernel, by decide +kernel, ?_⟩
  exact ((((Reaches.init.tail _ rfl).tail _ rfl).tail _ rfl).tail _ rfl).tail _ rfl

end Rsemu.Clock
