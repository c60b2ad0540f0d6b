import Rsemu.Clock.Ticks

/-!
# Between a position and its counts

A restore puts a tree's position back first and its domains' counts after, each count
with an anchor of its own. In between, a running domain can be anchored past the place
it stands, and reading it means nothing; the source asks for the one to follow the
other and the machine's own restore makes no other call meanwhile.

So a run is *kept* when a call that is not a restore is only made on a forest whose
running domains all stand at or past their anchors. What survives everywhere in such a
run is `Loose`: the invariant, but for the anchors.
-/

namespace Rsemu.Clock

open Word Forest

namespace ClockForest

/-- Every running domain stands at or past its anchor. -/
def Anchored (f : ClockForest) : Prop :=
  ∀ d, d < f.domains.length → (f.dom d).gated = false →
    (f.dom d).baseUnit ≤ (f.dom d).position (f.treeUnits d)

def unanchor (d : ClockDomain) : ClockDomain := { d with baseUnit := 0 }

def unanchored (f : ClockForest) : ClockForest := { f with domains := f.domains.map unanchor }

/-- **The invariant, but for the anchors.** -/
structure Loose (f : ClockForest) : Prop where
  inv : f.unanchored.Inv
  baseUnit_lt : ∀ d, d < f.domains.length → (f.dom d).baseUnit < 2 ^ 64

section Loose

variable {f : ClockForest}

theorem unanchored_length : f.unanchored.domains.length = f.domains.length := List.length_map ..

variable {d : DomainId}

theorem lt_unanchored (hd : d < f.domains.length) :
    d < f.unanchored.domains.length := Nat.lt_of_lt_of_eq hd unanchored_length.symm

theorem unanchored_of_le (hd : f.domains.length ≤ d) : f.unanchored.dom d = f.dom d := by
  rw [f.dom_of_length_le hd, f.unanchored.dom_of_length_le (by rwa [unanchored_length])]

theorem unanchored_dom (hd : d < f.domains.length) :
    f.unanchored.dom d = unanchor (f.dom d) := map_dom unanchor hd

theorem unanchored_links (d : DomainId) : SameLinks (f.dom d) (f.unanchored.dom d) := by
  rcases Nat.lt_or_ge d f.domains.length with hd | hd
  · rw [unanchored_dom hd]
    exact ⟨rfl, rfl, rfl, rfl, rfl⟩
  · rw [unanchored_of_le hd]
    exact SameLinks.refl _

theorem unanchored_rate (d : DomainId) : (f.unanchored.dom d).ratio = (f.dom d).ratio
    ∧ (f.unanchored.dom d).unitsPerTick = (f.dom d).unitsPerTick := by
  rcases Nat.lt_or_ge d f.domains.length with hd | hd
  · rw [unanchored_dom hd]
    exact ⟨rfl, rfl⟩
  · rw [unanchored_of_le hd]
    exact ⟨rfl, rfl⟩

theorem unanchored_treeUnits (d : DomainId) : f.unanchored.treeUnits d = f.treeUnits d := by
  unfold treeUnits
  rw [(unanchored_links d).root]
  rfl

theorem Inv.unanchored (h : f.Inv) : f.unanchored.Inv := by
  refine h.retouch unanchored_length rfl unanchored_links unanchored_rate ?_ (fun _ hS => hS)
    (fun _ _ _ _ => trivial) (fun _ _ hn => absurd trivial hn)
  intro d hd
  rw [unanchored_treeUnits, unanchored_dom hd]
  exact { h.doms d hd with anchored := fun _ => Nat.zero_le _, baseUnit_lt := Nat.two_pow_pos 64 }

theorem Inv.loose (h : f.Inv) : f.Loose := ⟨h.unanchored, fun d hd => (h.doms d hd).baseUnit_lt⟩

theorem Inv.anchored (h : f.Inv) : f.Anchored := fun d hd hg => (h.doms d hd).anchored hg

theorem Loose.inv_of_anchored (h : f.Loose) (ha : f.Anchored) : f.Inv := by
  refine h.inv.retouch unanchored_length.symm rfl
    (fun d => ⟨(unanchored_links d).parent.symm, (unanchored_links d).children.symm,
      (unanchored_links d).root.symm, (unanchored_links d).mul.symm,
      (unanchored_links d).div.symm⟩)
    (fun d => ⟨(unanchored_rate d).1.symm, (unanchored_rate d).2.symm⟩) ?_ (fun _ hS => hS)
    (fun _ _ _ _ => trivial) (fun _ _ hn => absurd trivial hn)
  intro d hd
  rw [unanchored_length] at hd
  have hok := h.inv.doms d (lt_unanchored hd)
  rw [unanchored_dom hd] at hok
  exact ⟨hok.tick_pos, fun hg => ha d hd hg, h.baseUnit_lt d hd, hok.baseTicks_lt, hok.own_lt⟩

theorem Loose.treeUnits_lt (h : f.Loose) (hd : d < f.domains.length) : f.treeUnits d < 2 ^ 64 := by
  rw [← unanchored_treeUnits]
  exact Clean.treeUnits_lt h.inv (lt_unanchored hd)

theorem Loose.retouch {g : ClockForest} (h : f.Loose)
    (hlen : g.domains.length = f.domains.length) (hosc : g.oscillators = f.oscillators)
    (hlink : ∀ d, SameLinks (f.dom d) (g.dom d))
    (hrate : ∀ d, (g.dom d).ratio = (f.dom d).ratio
      ∧ (g.dom d).unitsPerTick = (f.dom d).unitsPerTick)
    (hlt : ∀ d, d < f.domains.length → (g.dom d).baseUnit < 2 ^ 64
      ∧ (g.dom d).baseTicks < 2 ^ 64 ∧ (g.dom d).own < 2 ^ 64) : g.Loose := by
  refine ⟨?_, fun d hd => (hlt d (hlen ▸ hd)).1⟩
  have hback : ∀ d, SameLinks (f.unanchored.dom d) (f.dom d) := fun d =>
    ⟨(unanchored_links d).parent.symm, (unanchored_links d).children.symm,
      (unanchored_links d).root.symm, (unanchored_links d).mul.symm,
      (unanchored_links d).div.symm⟩
  refine h.inv.retouch (unanchored_length.trans (hlen.trans unanchored_length.symm)) hosc
    (fun d => SameLinks.trans _ _ _ ((hback d).trans _ _ _ (hlink d)) (unanchored_links d))
    (fun d => ⟨(unanchored_rate d).1.trans ((hrate d).1.trans (unanchored_rate d).1.symm),
      (unanchored_rate d).2.trans ((hrate d).2.trans (unanchored_rate d).2.symm)⟩)
    ?_ (fun _ hS => hS) (fun _ _ _ _ => trivial) (fun _ _ hn => absurd trivial hn)
  intro d hd
  rw [unanchored_length] at hd
  have hok := h.inv.doms d (lt_unanchored hd)
  rw [unanchored_dom hd] at hok
  rw [unanchored_dom (hlen ▸ hd)]
  exact ⟨(hrate d).2 ▸ hok.tick_pos, fun _ => Nat.zero_le _, Nat.two_pow_pos 64, (hlt d hd).2.1,
    (hlt d hd).2.2⟩

theorem Loose.counters_lt (h : f.Loose) (hd : d < f.domains.length) :
    (f.dom d).baseUnit < 2 ^ 64 ∧ (f.dom d).baseTicks < 2 ^ 64 ∧ (f.dom d).own < 2 ^ 64 := by
  have hok := h.inv.doms d (lt_unanchored hd)
  rw [unanchored_dom hd] at hok
  exact ⟨h.baseUnit_lt d hd, hok.baseTicks_lt, hok.own_lt⟩

theorem Loose.modDom (h : f.Loose) {id : DomainId} (hid : id < f.domains.length)
    {upd : ClockDomain → ClockDomain} (hlink : ∀ d, SameLinks d (upd d))
    (hrate : ∀ d, (upd d).ratio = d.ratio ∧ (upd d).unitsPerTick = d.unitsPerTick)
    (hlt : (upd (f.dom id)).baseUnit < 2 ^ 64 ∧ (upd (f.dom id)).baseTicks < 2 ^ 64
      ∧ (upd (f.dom id)).own < 2 ^ 64) : (f.modDom id upd).Loose := by
  have hdom : ∀ d, (f.modDom id upd).dom d = if d = id then upd (f.dom d) else f.dom d := by
    intro d
    by_cases he : d = id
    · subst he
      rw [if_pos rfl, modDom_dom_self f hid upd]
    · rw [if_neg he, modDom_dom_ne f (Ne.symm he) _]
  refine h.retouch (modDom_length f id _) rfl (fun d => ?_) (fun d => ?_) (fun d hd => ?_)
  · rw [hdom d]
    split
    · exact hlink _
    · exact SameLinks.refl _
  · rw [hdom d]
    split
    · exact hrate _
    · exact ⟨rfl, rfl⟩
  · rw [hdom d]
    split
    · rename_i he
      exact he ▸ hlt
    · exact h.counters_lt hd

theorem unanchored_restoreUnitPosition (o : OscillatorId) (units : Nat) :
    (f.restoreUnitPosition o units).1.unanchored
      = (f.unanchored.restoreUnitPosition o units).1 := by
  have hcomm : ∀ d : ClockDomain, unanchor (if d.root = o then { d with own := 0 } else d)
      = if (unanchor d).root = o then { unanchor d with own := 0 } else unanchor d := by
    intro d
    change _ = if d.root = o then _ else _
    split <;> rfl
  have hmap : (f.domains.map fun d => if d.root = o then { d with own := 0 } else d).map unanchor
      = (f.domains.map unanchor).map fun d => if d.root = o then { d with own := 0 } else d := by
    rw [List.map_map, List.map_map]
    exact List.map_congr_left fun d _ => hcomm d
  have hosc : f.unanchored.osc o = f.osc o := rfl
  unfold restoreUnitPosition
  have hcheck : f.unanchored.checkOsc o = f.checkOsc o := rfl
  rw [hcheck, hosc]
  split
  · rfl
  · dsimp only
    split
    · simp only [unanchored, modOsc, hmap]
    · split
      · simp only [unanchored, modOsc, hmap]
      · simp only [unanchored, modOsc, hmap]

theorem restoreUnitPosition_loose (h : f.Loose) (o : OscillatorId) {units : Nat}
    (hlt : units < 2 ^ 64) : (f.restoreUnitPosition o units).1.Loose := by
  refine ⟨?_, fun d hd => ?_⟩
  · rw [unanchored_restoreUnitPosition]
    refine restoreUnitPosition_inv h.inv hlt fun d hd _ _ => ?_
    rw [unanchored_length] at hd
    rw [unanchored_dom hd]
    exact Nat.zero_le _
  · by_cases ho : o < f.oscillators.length
    · obtain ⟨bt, t, r, bu, hg⟩ := restoreUnitPosition_eq ho units
      rw [hg] at hd ⊢
      rw [modOsc_dom, map_dom _ (by simpa using hd)]
      have := h.baseUnit_lt d (by simpa using hd)
      split
      · exact this
      · exact this
    · have hcheck : f.checkOsc o = .error (.err (.unknownOscillator o)) := by
        unfold checkOsc
        rw [if_pos (Nat.not_lt.mp ho)]
      unfold restoreUnitPosition at hd ⊢
      simp only [hcheck] at hd ⊢
      exact h.baseUnit_lt d hd

theorem restoreTicks_loose (h : f.Loose) (id : DomainId) {n : Nat} (hn : n < 2 ^ 64) :
    (f.restoreTicks id n).1.Loose := by
  unfold restoreTicks
  split
  · exact h
  rename_i hcheck
  have hid := checkDomain_ok hcheck
  exact h.modDom hid (fun d => ⟨rfl, rfl, rfl, rfl, rfl⟩) (fun d => ⟨rfl, rfl⟩)
    ⟨Nat.lt_of_le_of_lt (Nat.sub_le _ _) (h.treeUnits_lt hid), hn, Nat.two_pow_pos 64⟩

theorem restoreLead_loose (h : f.Loose) (id : DomainId) (lead : Nat) :
    (f.restoreLead id lead).1.Loose := by
  unfold restoreLead
  split
  · exact h
  rename_i hcheck
  have hid := checkDomain_ok hcheck
  split
  · exact h
  rename_i own hown
  obtain ⟨hlt, rfl⟩ := checkedAdd_eq_some.mp hown
  exact h.modDom hid (fun d => ⟨rfl, rfl, rfl, rfl, rfl⟩) (fun d => ⟨rfl, rfl⟩)
    ⟨Nat.lt_of_le_of_lt (Nat.sub_le _ _) hlt, (h.counters_lt hid).2.1, hlt⟩

end Loose

end ClockForest

namespace Call

/-- The call returns, and is a restore or finds the forest anchored. -/
def Kept (f : ClockForest) (c : Call) : Prop := c.Returns f ∧ (c.IsRestore ∨ f.Anchored)

theorem call_loose {f : ClockForest} (h : f.Loose) {c : Call} (hc : c.Kept f) :
    (c.apply f).1.Loose := by
  by_cases hr : c.IsRestore
  · cases c with
    | restoreUnitPosition o u => exact ClockForest.restoreUnitPosition_loose h o u.toNat_lt
    | restoreTicks id n => exact ClockForest.restoreTicks_loose h id n.toNat_lt
    | restoreLead id n => exact ClockForest.restoreLead_loose h id _
    | advanceDomain | advanceAlone | advanceTreeTo | advanceUnits | advanceToGlobal
    | addOscillator | addDomain | setRating | setRatings | setFrequency | reparent
    | lockOscillator | setGated => exact absurd hr id
  · have hinv := h.inv_of_anchored (hc.2.resolve_left hr)
    refine (call_inv hinv ⟨hc.1, ?_⟩).loose
    intro o u he
    exact absurd (he ▸ trivial) hr

end Call

theorem loose_reachable {f : ClockForest} (h : Reaches (fun f c => c.Kept f) f) : f.Loose := by
  induction h with
  | init => exact ClockForest.inv_new.loose
  | tail c _ hc ih => exact Call.call_loose ih hc

end Rsemu.Clock
