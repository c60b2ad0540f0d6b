import Rsemu.Clock.Invariant

/-!
# Topology changes keep the invariant and every counter

One section per operation. Each shows that the forest the operation hands to
`recomputeTree` is `Clean` outside the domains it edited, and that the edit itself
kept every counter; the recomputation then does the rest.

`reparent` and `add_domain` are the same edit of the links, a node hung at the end
of another's list, so `Struct.hang` serves both.
-/

namespace Rsemu.Clock

open Word Forest

namespace ClockForest

/-! ## Edits that leave a clock alone -/

/-- Two domains count the same way. -/
structure SameClock (a b : ClockDomain) : Prop where
  root : b.root = a.root
  ratio : b.ratio = a.ratio
  unitsPerTick : b.unitsPerTick = a.unitsPerTick
  baseUnit : b.baseUnit = a.baseUnit
  baseTicks : b.baseTicks = a.baseTicks
  gated : b.gated = a.gated
  own : b.own = a.own

theorem SameClock.refl (a : ClockDomain) : SameClock a a := ⟨rfl, rfl, rfl, rfl, rfl, rfl, rfl⟩

theorem SameClock.trans (a b c : ClockDomain) (h : SameClock a b) (h' : SameClock b c) :
    SameClock a c :=
  ⟨h'.root.trans h.root, h'.ratio.trans h.ratio, h'.unitsPerTick.trans h.unitsPerTick,
    h'.baseUnit.trans h.baseUnit, h'.baseTicks.trans h.baseTicks, h'.gated.trans h.gated,
    h'.own.trans h.own⟩

/-- Two oscillators stand at the same place, at the same rate. -/
structure SameLine (a b : Oscillator) : Prop where
  units : b.units = a.units
  unitMul : b.unitMul = a.unitMul
  unitRate : b.unitRate = a.unitRate

theorem SameLine.refl (a : Oscillator) : SameLine a a := ⟨rfl, rfl, rfl⟩

section Same

variable {f g : ClockForest} {d : DomainId}

section

variable (h : SameClock (f.dom d) (g.dom d))
include h

section

variable (ho : SameLine (f.osc (f.dom d).root) (g.osc (f.dom d).root))
include ho

theorem SameClock.treeUnits : g.treeUnits d = f.treeUnits d := by
  unfold ClockForest.treeUnits
  rw [h.root, ho.units]

theorem SameClock.count : g.count d = f.count d := by
  unfold ClockForest.count ClockDomain.ticksAt ClockDomain.position
  rw [h.treeUnits ho, h.unitsPerTick, h.baseUnit, h.baseTicks, h.gated, h.own]

theorem SameClock.secondsToTick : g.secondsToTick d = f.secondsToTick d := by
  unfold ClockForest.secondsToTick ClockForest.nextTick ClockDomain.position
  rw [h.treeUnits ho, h.unitsPerTick, h.baseUnit, h.own, h.root, ho.unitRate]

theorem SameClock.ok
    (hok : (f.dom d).Ok (f.treeUnits d)) : (g.dom d).Ok (g.treeUnits d) := by
  rw [h.treeUnits ho]
  exact
    { tick_pos := by rw [h.unitsPerTick]; exact hok.tick_pos
      anchored := by
        unfold ClockDomain.position
        rw [h.gated, h.baseUnit, h.own]
        exact hok.anchored
      baseUnit_lt := by rw [h.baseUnit]; exact hok.baseUnit_lt
      baseTicks_lt := by rw [h.baseTicks]; exact hok.baseTicks_lt
      own_lt := by rw [h.own]; exact hok.own_lt }

omit h in
omit ho in
theorem SameClock.ticked {a b : ClockDomain} {m : Nat} (h : SameClock a b) (ht : a.Ticked m) :
    b.Ticked m := by
  refine ⟨?_, ?_, ?_⟩
  · rw [h.ratio]; exact ht.num_pos
  · rw [h.ratio]; exact ht.num_dvd
  · rw [h.ratio, h.unitsPerTick]; exact ht.tick_eq

theorem SameClock.settled
    (hs : f.Settled d) : g.Settled d := by
  unfold Settled ClockDomain.position
  rw [h.treeUnits ho, h.gated, h.baseUnit, h.own]
  exact hs

end

end

theorem Rated.congr (h : f.Rated d) (hp : g.parent d = f.parent d)
    (hm : (g.dom d).mul = (f.dom d).mul) (hv : (g.dom d).div = (f.dom d).div)
    (hr : ∀ p, p = d ∨ f.parent d = some p → (g.dom p).ratio = (f.dom p).ratio) : g.Rated d := by
  refine ⟨?_, ?_⟩
  · intro hn
    rw [hr d (Or.inl rfl)]
    exact h.root (hp ▸ hn)
  · intro p hs
    have hs' : f.parent d = some p := hp ▸ hs
    rw [hr d (Or.inl rfl), hr p (Or.inr hs'), hm, hv]
    exact h.child p hs'

end Same

theorem Clean.retouch {f g : ClockForest} {S S' : DomainId → Prop} {T : OscillatorId → Prop}
    (h : f.Clean S T) (hlen : g.domains.length = f.domains.length)
    (hosc : g.oscillators = f.oscillators) (hlink : ∀ d, SameLinks (f.dom d) (g.dom d))
    (hrate : ∀ d, (g.dom d).ratio = (f.dom d).ratio
      ∧ (g.dom d).unitsPerTick = (f.dom d).unitsPerTick)
    (hok : ∀ d, d < f.domains.length → (g.dom d).Ok (g.treeUnits d))
    (hS : ∀ d, S' d → S d) (hup : ∀ d p, S' d → f.parent d = some p → S' p)
    (hset : ∀ d, d < f.domains.length → ¬ S' d → g.Settled d) : g.Clean S' T := by
  have ho : ∀ o, g.osc o = f.osc o := by
    intro o
    unfold osc
    rw [hosc]
  exact
    { shape := h.shape.congr hlen (by rw [hosc]) hlink fun o => by rw [ho]; exact ⟨rfl, rfl⟩
      doms := fun d hd => hok d (hlen ▸ hd)
      oscs := by
        intro o hlt
        rw [ho]
        exact h.oscs o (hosc ▸ hlt)
      up := by
        intro d p hd hp
        have he : g.parent d = f.parent d := (hlink d).parent
        exact hup d p hd (he ▸ hp)
      rated := by
        intro d hd hd'
        exact (h.rated d (hlen ▸ hd) (hS d hd')).congr (hlink d).parent (hlink d).mul
          (hlink d).div fun p _ => (hrate p).1
      ticked := by
        intro d hd hd'
        rw [(hlink d).root, ho]
        have ht := h.ticked d (hlen ▸ hd) (hS d hd')
        refine ⟨?_, ?_, ?_⟩
        · rw [(hrate d).1]; exact ht.num_pos
        · rw [(hrate d).1]; exact ht.num_dvd
        · rw [(hrate d).1, (hrate d).2]; exact ht.tick_eq
      settled := fun d hd hd' => hset d (hlen ▸ hd) hd'
      tuned := by
        intro o hlt hact hT
        unfold Tuned
        rw [ho] at hact ⊢
        exact h.tuned o (hosc ▸ hlt) hact hT }

/-! ## Materializing a subtree -/

section Rebase

variable {f : ClockForest} {S : DomainId → Prop} {T : OscillatorId → Prop} {id : DomainId}

theorem rebaseSubtree_dom (hs : Struct f) (hid : id < f.domains.length) (d : DomainId) :
    (Desc f.parent id d → (f.rebaseSubtree id).dom d
        = rebaseDomain (f.treeUnits d) (f.dom d))
      ∧ (¬ Desc f.parent id d → (f.rebaseSubtree id).dom d = f.dom d) := by
  have hdone := hs.subtree_done hid
  have hfst : ((f.subtree id).map fun m => (m, rebaseDomain (f.treeUnits id))).map Prod.fst
      = f.subtree id := by
    rw [List.map_map]
    exact List.map_id _
  constructor
  · intro hd
    have hu : f.treeUnits d = f.treeUnits id := by
      unfold treeUnits
      rw [hs.desc_root hd]
    rw [hu]
    refine modEach_dom_of_mem _ f (by rw [hfst]; exact hdone.nodup) ?_ (Struct.desc_lt hid hd)
    exact List.mem_map.mpr ⟨d, (hdone.mem d).mpr hd, rfl⟩
  · intro hd
    refine modEach_dom_of_notMem _ f ?_
    rw [hfst]
    exact fun hm => hd ((hdone.mem d).mp hm)

theorem rebaseSubtree_keep (hs : Struct f) (hid : id < f.domains.length) (d : DomainId) :
    SameLinks (f.dom d) ((f.rebaseSubtree id).dom d)
      ∧ ((f.rebaseSubtree id).dom d).ratio = (f.dom d).ratio
      ∧ ((f.rebaseSubtree id).dom d).unitsPerTick = (f.dom d).unitsPerTick
      ∧ ((f.rebaseSubtree id).dom d).gated = (f.dom d).gated
      ∧ ((f.rebaseSubtree id).dom d).own = (f.dom d).own := by
  by_cases hd : Desc f.parent id d
  · rw [(rebaseSubtree_dom hs hid d).1 hd]
    exact ⟨⟨rfl, rfl, rfl, rfl, rfl⟩, rfl, rfl, rfl, rfl⟩
  · rw [(rebaseSubtree_dom hs hid d).2 hd]
    exact ⟨SameLinks.refl _, rfl, rfl, rfl, rfl⟩

theorem rebaseSubtree_treeUnits (hs : Struct f) (hid : id < f.domains.length) (d : DomainId) :
    (f.rebaseSubtree id).treeUnits d = f.treeUnits d := by
  unfold treeUnits
  rw [(rebaseSubtree_keep hs hid d).1.root]
  exact congrArg Oscillator.units (modEach_osc _ f _)

theorem rebaseDomain_ok {d : ClockDomain} {tree : Nat} (h : d.Ok tree) (ht : tree < 2 ^ 64) :
    (rebaseDomain tree d).Ok tree where
  tick_pos := h.tick_pos
  anchored := fun _ => Nat.le_refl _
  baseUnit_lt := position_lt h ht
  baseTicks_lt := by
    change d.ticksAt (d.position tree) < 2 ^ 64
    unfold ClockDomain.ticksAt
    split
    · exact h.baseTicks_lt
    · exact wrappingAdd_lt _ _ _
  own_lt := h.own_lt

theorem rebaseSubtree_clean (h : f.Clean S T) (hid : id < f.domains.length) :
    (f.rebaseSubtree id).Clean (fun d => S d ∧ ¬ Desc f.parent id d) T
      ∧ f.Keeps (f.rebaseSubtree id) (Desc f.parent id) := by
  have hs := h.shape
  have hkeep := rebaseSubtree_keep hs hid
  have hu := rebaseSubtree_treeUnits hs hid
  have hok : ∀ d, d < f.domains.length →
      ((f.rebaseSubtree id).dom d).Ok ((f.rebaseSubtree id).treeUnits d) := by
    intro d hd
    rw [hu d]
    by_cases hdesc : Desc f.parent id d
    · rw [(rebaseSubtree_dom hs hid d).1 hdesc]
      exact rebaseDomain_ok (h.doms d hd) (h.treeUnits_lt hd)
    · rw [(rebaseSubtree_dom hs hid d).2 hdesc]
      exact h.doms d hd
  have hset : ∀ d, Desc f.parent id d → (f.rebaseSubtree id).Settled d := by
    intro d hdesc
    refine Or.inr ?_
    rw [hu d, (rebaseSubtree_dom hs hid d).1 hdesc]
    rfl
  have hosc : (f.rebaseSubtree id).oscillators = f.oscillators := modEach_oscillators _ f
  refine ⟨h.retouch (modEach_length _ f) hosc (fun d => (hkeep d).1)
    (fun d => ⟨(hkeep d).2.1, (hkeep d).2.2.1⟩) hok (fun d hd => hd.1) ?_ ?_, ?_⟩
  · intro d p hd hp
    exact ⟨h.up d p hd.1 hp, fun hdesc => hd.2 (hdesc.child hp)⟩
  · intro d hd hd'
    by_cases hdesc : Desc f.parent id d
    · exact hset d hdesc
    · have hsd := h.settled d hd fun hS => hd' ⟨hS, hdesc⟩
      unfold Settled
      rw [hu d, (rebaseSubtree_dom hs hid d).2 hdesc]
      exact hsd
  · refine ⟨Nat.le_of_eq (modEach_length _ f).symm, ?_, fun d _ _ => (hkeep d).2.2.2.1, ?_⟩
    · intro d hd
      by_cases hdesc : Desc f.parent id d
      · have ht := h.treeUnits_lt hd
        rw [count_settled (hset d hdesc) (hok d hd) (by rw [hu d]; exact ht),
          (rebaseSubtree_dom hs hid d).1 hdesc]
        rfl
      · unfold count
        rw [hu d, (rebaseSubtree_dom hs hid d).2 hdesc]
    · intro d _ hdesc _
      unfold secondsToTick nextTick
      rw [hu d, (rebaseSubtree_dom hs hid d).2 hdesc]
      exact congrArg (fun o : Oscillator => _ / o.unitRate.toQ) (modEach_osc _ f _)

end Rebase

/-! ## The outcome of a change -/

/-- A change that succeeded kept the invariant and the counters; a refused one changed nothing. -/
structure Sound (f : ClockForest) (P : DomainId → Prop) {α : Type}
    (r : ClockForest × ClockResult α) : Prop where
  ok : ∀ a, r.2 = .ok a → r.1.Inv ∧ f.Keeps r.1 P
  refused : ∀ e, r.2 = .error (.err e) → r.1 = f

section Outcome

variable {f : ClockForest} {P : DomainId → Prop} {α : Type}

theorem sound_error (e : Fault) : Sound (α := α) f P (f, .error e) :=
  ⟨fun _ h => absurd h (by simp), fun _ _ => rfl⟩

theorem sound_ok {g : ClockForest} {a : α} (h : g.Inv) (hk : f.Keeps g P) : Sound f P (g, .ok a) :=
  ⟨fun _ _ => ⟨h, hk⟩, fun _ he => absurd he (by simp)⟩

theorem commitOr_sound {before : ClockForest} {a : α} {out : ClockResult ClockForest}
    (h : ∀ after, out = .ok after → after.Inv ∧ f.Keeps after P) :
    Sound f P (commitOr f before a out) := by
  cases out with
  | ok after => exact sound_ok (h after rfl).1 (h after rfl).2
  | error e =>
    cases e with
    | err e => exact sound_error _
    | panic m => exact ⟨fun _ he => absurd he (by simp [commitOr]),
        fun _ he => absurd he (by simp [commitOr])⟩

theorem checkDomain_ok {d : DomainId} (h : f.checkDomain d = .ok ()) : d < f.domains.length := by
  unfold checkDomain at h
  split at h
  · cases h
  · rename_i hle
    exact Nat.not_le.mp hle

theorem checkOsc_ok {o : OscillatorId} (h : f.checkOsc o = .ok ()) : o < f.oscillators.length := by
  unfold checkOsc at h
  split at h
  · cases h
  · rename_i hle
    exact Nat.not_le.mp hle

end Outcome

/-! ## Re-rating domains -/

section Ratings

variable {f : ClockForest} {S : DomainId → Prop} {T : OscillatorId → Prop}

theorem recomputeTrees_clean :
    ∀ (trees : List OscillatorId) {f f' : ClockForest} {S : DomainId → Prop},
      f.Clean S (fun _ => True) →
      (∀ o ∈ trees, o < f.oscillators.length ∧ (f.osc o).active = true) →
      recomputeTrees trees f = .ok f' →
      f'.Clean (fun d => S d ∨ (f.dom d).root ∈ trees) (fun _ => True)
        ∧ f.Keeps f' (fun d => ¬ S d)
  | [], f, f', S, h, _, hrec => by
    rw [recomputeTrees] at hrec
    obtain rfl := Except.ok.inj hrec
    refine ⟨h.mono (fun d _ => by simp) (fun o ho => ho), Keeps.refl f _⟩
  | o :: rest, f, f', S, h, hact, hrec => by
    rw [recomputeTrees] at hrec
    split at hrec
    · exact absurd hrec (by simp)
    · rename_i f₁ hf₁
      obtain ⟨holt, hoact⟩ := hact o (List.mem_cons_self ..)
      obtain ⟨h₁, hk₁, hlen₁, hact₁, hroot₁⟩ := recomputeTree_clean h holt hoact hf₁
      have hrest : ∀ o' ∈ rest, o' < f₁.oscillators.length ∧ (f₁.osc o').active = true := by
        intro o' ho'
        rw [hlen₁, hact₁ o']
        exact hact o' (List.mem_cons_of_mem _ ho')
      obtain ⟨h₂, hk₂⟩ := recomputeTrees_clean rest
        (h₁.mono (fun d _ => Iff.rfl) (fun _ _ => Or.inl trivial)) hrest hrec
      refine ⟨h₂.mono ?_ (fun o ho => ho), ?_⟩
      · intro d _
        rw [hroot₁ d, List.mem_cons, or_assoc]
      · refine (hk₁.mono ?_).trans (hk₂.mono ?_)
        · rintro d (hd | ⟨_, hd⟩)
          · exact hd
          · exact absurd trivial hd
        · exact fun d hd hS => hd (Or.inl hS)

theorem checkRequests_ok : ∀ (changes : List RateRequest), f.checkRequests changes = .ok () →
    ∀ r ∈ changes, r.domain < f.domains.length ∧ r.mul ≠ 0 ∧ r.div ≠ 0
  | [], _, r, hr => absurd hr (by simp)
  | c :: rest, h, r, hr => by
    rw [checkRequests] at h
    split at h
    · exact absurd h (by simp)
    · rename_i hc
      rcases List.mem_cons.mp hr with rfl | hr
      · unfold checkRequest at hc
        split at hc
        · exact absurd hc (by simp)
        · rename_i hdom
          split at hc
          · exact absurd hc (by simp)
          · split at hc
            · exact absurd hc (by simp)
            · rename_i hz
              exact ⟨checkDomain_ok hdom, not_or.mp hz⟩
      · exact checkRequests_ok rest h r hr

theorem rebaseRequests_clean :
    ∀ (changes : List RateRequest) {f : ClockForest} {S : DomainId → Prop}, f.Clean S T →
      (∀ r ∈ changes, r.domain < f.domains.length) →
      (rebaseRequests changes f).Clean
          (fun d => S d ∧ ∀ r ∈ changes, ¬ Desc f.parent r.domain d) T
        ∧ f.Keeps (rebaseRequests changes f) (fun d => ∃ r ∈ changes, Desc f.parent r.domain d)
        ∧ (rebaseRequests changes f).domains.length = f.domains.length
        ∧ (rebaseRequests changes f).oscillators = f.oscillators
        ∧ ∀ d, SameLinks (f.dom d) ((rebaseRequests changes f).dom d)
  | [], f, S, h, _ =>
    ⟨h.mono (fun d _ => by simp) (fun o ho => ho), Keeps.refl f _, rfl, rfl,
      fun d => SameLinks.refl _⟩
  | r :: rest, f, S, h, hlt => by
    have hid := hlt r (List.mem_cons_self ..)
    obtain ⟨h₁, hk₁⟩ := rebaseSubtree_clean h hid
    have hlen₁ : (f.rebaseSubtree r.domain).domains.length = f.domains.length :=
      modEach_length _ f
    have hlink₁ := fun d => (rebaseSubtree_keep h.shape hid d).1
    have hpar : (f.rebaseSubtree r.domain).parent = f.parent :=
      funext fun d => (hlink₁ d).parent
    obtain ⟨h₂, hk₂, hlen₂, hosc₂, hlink₂⟩ := rebaseRequests_clean rest h₁ (by
      intro r' hr'
      rw [hlen₁]
      exact hlt r' (List.mem_cons_of_mem _ hr'))
    rw [hpar] at h₂ hk₂
    refine ⟨h₂.mono ?_ (fun o ho => ho), ?_, hlen₂.trans hlen₁,
      hosc₂.trans (modEach_oscillators _ f), fun d => (hlink₁ d).trans _ _ _ (hlink₂ d)⟩
    · intro d _
      simp only [List.mem_cons, forall_eq_or_imp, and_assoc]
    · refine (hk₁.mono ?_).trans (hk₂.mono ?_)
      · exact fun d hd => ⟨r, List.mem_cons_self .., hd⟩
      · rintro d ⟨r', hr', hd⟩
        exact ⟨r', List.mem_cons_of_mem _ hr', hd⟩

theorem touchedTrees_mem : ∀ (changes : List RateRequest) (trees : List OscillatorId)
    (o : OscillatorId), o ∈ f.touchedTrees changes trees
      ↔ o ∈ trees ∨ ∃ r ∈ changes, (f.dom r.domain).root = o
  | [], trees, o => by simp [touchedTrees]
  | r :: rest, trees, o => by
    rw [touchedTrees, touchedTrees_mem rest]
    have hstep : o ∈ (if (f.dom r.domain).root ∈ trees then trees
        else trees ++ [(f.dom r.domain).root]) ↔ o ∈ trees ∨ (f.dom r.domain).root = o := by
      split
      · rename_i hm
        exact ⟨Or.inl, fun h => h.elim (fun h => h) fun h => h ▸ hm⟩
      · simp [eq_comm]
    rw [hstep, or_assoc]
    simp only [List.mem_cons, exists_eq_or_imp]

theorem applyRequests_rel (changes : List RateRequest) (d : DomainId) :
    SameClock (f.dom d) ((applyRequests changes f).dom d)
      ∧ ((applyRequests changes f).dom d).parent = (f.dom d).parent
      ∧ ((applyRequests changes f).dom d).children = (f.dom d).children := by
  refine modEach_rel (R := fun a b => SameClock a b ∧ b.parent = a.parent
    ∧ b.children = a.children) (fun a => ⟨SameClock.refl a, rfl, rfl⟩) ?_ _ f ?_ d
  · intro a b c hab hbc
    exact ⟨hab.1.trans _ _ _ hbc.1, hbc.2.1.trans hab.2.1, hbc.2.2.trans hab.2.2⟩
  · intro i g hg a
    obtain ⟨r, _, he⟩ := List.mem_map.mp hg
    obtain ⟨_, rfl⟩ := Prod.mk.inj he
    exact ⟨⟨rfl, rfl, rfl, rfl, rfl, rfl, rfl⟩, rfl, rfl⟩

theorem applyRequests_rated {changes : List RateRequest}
    (hz : ∀ r ∈ changes, r.mul ≠ 0 ∧ r.div ≠ 0) {d : DomainId}
    (h : 0 < (f.dom d).mul.toNat ∧ 0 < (f.dom d).div.toNat) :
    0 < ((applyRequests changes f).dom d).mul.toNat
      ∧ 0 < ((applyRequests changes f).dom d).div.toNat := by
  refine modEach_rel (R := fun a b => 0 < a.mul.toNat ∧ 0 < a.div.toNat →
    0 < b.mul.toNat ∧ 0 < b.div.toNat) (fun a ha => ha) (fun a b c hab hbc ha => hbc (hab ha))
    _ f ?_ d h
  intro i g hg a _
  obtain ⟨r, hr, he⟩ := List.mem_map.mp hg
  obtain ⟨_, rfl⟩ := Prod.mk.inj he
  exact ⟨Word.toNat_pos (hz r hr).1, Word.toNat_pos (hz r hr).2⟩

theorem applyRequests_clean {changes : List RateRequest} (h : f.Clean S T)
    (hz : ∀ r ∈ changes, r.mul ≠ 0 ∧ r.div ≠ 0) (hS : ∀ r ∈ changes, ¬ S r.domain) :
    (applyRequests changes f).Clean S T ∧ f.Keeps (applyRequests changes f) (fun _ => False) := by
  have hrel := applyRequests_rel (f := f) changes
  have hlen : (applyRequests changes f).domains.length = f.domains.length := modEach_length _ f
  have holen : (applyRequests changes f).oscillators.length = f.oscillators.length :=
    congrArg List.length (modEach_oscillators _ f)
  have hosc : ∀ o, (applyRequests changes f).osc o = f.osc o := modEach_osc _ f
  have hline : ∀ o, SameLine (f.osc o) ((applyRequests changes f).osc o) := by
    intro o
    rw [hosc]
    exact SameLine.refl _
  have hpar : ∀ d, (applyRequests changes f).parent d = f.parent d := fun d => (hrel d).2.1
  have hsame : ∀ d, S d → (applyRequests changes f).dom d = f.dom d := by
    intro d hd
    refine modEach_dom_of_notMem _ f ?_
    rw [List.map_map]
    intro hm
    obtain ⟨r, hr, he⟩ := List.mem_map.mp hm
    exact hS r hr (by rw [show r.domain = d from he]; exact hd)
  have hs := h.shape
  constructor
  · exact
      { shape := hs.of_links hlen holen (funext hpar) (funext fun d => (hrel d).2.2)
          (fun d => (hrel d).1.root) (fun o => by rw [hosc]; exact ⟨rfl, rfl⟩)
          fun d hd => applyRequests_rated hz (hs.rated d hd)
        doms := fun d hd => (hrel d).1.ok (hline _) (h.doms d (hlen ▸ hd))
        oscs := by
          intro o ho
          rw [hosc]
          exact h.oscs o (holen ▸ ho)
        up := fun d p hd hp => h.up d p hd (hpar d ▸ hp)
        rated := by
          intro d hd hSd
          refine (h.rated d (hlen ▸ hd) hSd).congr (hpar d) ?_ ?_ fun p _ => (hrel p).1.ratio
          · rw [hsame d hSd]
          · rw [hsame d hSd]
        ticked := by
          intro d hd hSd
          rw [(hrel d).1.root, hosc]
          exact (hrel d).1.ticked (h.ticked d (hlen ▸ hd) hSd)
        settled := fun d hd hSd => (hrel d).1.settled (hline _) (h.settled d (hlen ▸ hd) hSd)
        tuned := by
          intro o ho hact hT
          unfold Tuned
          rw [hosc] at hact ⊢
          exact h.tuned o (holen ▸ ho) hact hT }
  · exact ⟨Nat.le_of_eq hlen.symm, fun d _ => (hrel d).1.count (hline _),
      fun d _ _ => (hrel d).1.gated, fun d _ _ _ => (hrel d).1.secondsToTick (hline _)⟩

theorem setRatings_sound (h : f.Inv) (changes : List RateRequest) :
    Sound f (fun d => ∃ r ∈ changes, Desc f.parent r.domain d) (f.setRatings changes) := by
  unfold setRatings
  split
  · exact sound_ok h (Keeps.refl f _)
  split
  · exact sound_error _
  rename_i hcheck
  have hreq := checkRequests_ok changes hcheck
  obtain ⟨h₁, hk₁, hlen₁, hosc₁, hlink₁⟩ :=
    rebaseRequests_clean changes h fun r hr => (hreq r hr).1
  obtain ⟨h₂, hk₂⟩ := applyRequests_clean h₁ (fun r hr => (hreq r hr).2)
    fun r hr hS => hS.2 r hr (Desc.refl _)
  have hroot : ∀ d, ((applyRequests changes (rebaseRequests changes f)).dom d).root
      = (f.dom d).root := fun d => (applyRequests_rel changes d).1.root.trans (hlink₁ d).root
  have htrees : ∀ o, o ∈ (rebaseRequests changes f).touchedTrees changes []
      ↔ ∃ r ∈ changes, (f.dom r.domain).root = o := by
    intro o
    rw [touchedTrees_mem]
    simp only [List.not_mem_nil, false_or, (hlink₁ _).root]
  have hact : ∀ o ∈ (rebaseRequests changes f).touchedTrees changes [],
      o < (applyRequests changes (rebaseRequests changes f)).oscillators.length
        ∧ ((applyRequests changes (rebaseRequests changes f)).osc o).active = true := by
    intro o ho
    obtain ⟨r, hr, rfl⟩ := (htrees o).mp ho
    have hlt := (hreq r hr).1
    have holen : (applyRequests changes (rebaseRequests changes f)).oscillators
        = f.oscillators := (modEach_oscillators _ _).trans hosc₁
    unfold osc
    rw [holen]
    exact ⟨h.shape.root_lt _ hlt, (h.shape.root_active hlt).1⟩
  refine commitOr_sound fun after hafter => ?_
  obtain ⟨h₃, hk₃⟩ := recomputeTrees_clean _ h₂ hact hafter
  constructor
  · refine h₃.mono ?_ (fun o ho => ho)
    intro d _
    refine ⟨fun _ => ?_, fun _ => trivial⟩
    by_cases hd : ∃ r ∈ changes, Desc f.parent r.domain d
    · obtain ⟨r, hr, hd⟩ := hd
      refine Or.inr ((htrees _).mpr ⟨r, hr, ?_⟩)
      rw [hroot, h.shape.desc_root hd]
    · exact Or.inl ⟨trivial, fun r hr hdesc => hd ⟨r, hr, hdesc⟩⟩
  · refine (hk₁.trans (hk₂.mono fun _ hf => hf.elim)).trans (hk₃.mono ?_)
    intro d hd
    by_contra hno
    exact hd ⟨trivial, fun r hr hdesc => hno ⟨r, hr, hdesc⟩⟩

theorem setRating_sound (h : f.Inv) (id : DomainId) (mul div : UInt64) :
    Sound f (Desc f.parent id) (f.setRating id mul div) := by
  unfold setRating
  split
  · exact sound_error _
  split
  · exact sound_error _
  split
  · exact sound_error _
  · have hr := setRatings_sound h [⟨id, mul, div⟩]
    simpa using hr

end Ratings

/-! ## Re-rating a crystal -/

section Frequency

variable {f : ClockForest}

theorem recomputeTree_locked (hs : Struct f) {o : OscillatorId} (ho : o < f.oscillators.length)
    (hact : (f.osc o).active = false) {f' : ClockForest} : f.recomputeTree o ≠ .ok f' := by
  intro hrec
  obtain ⟨hlt, hpar⟩ := hs.locked o ho hact
  have hdone := hs.subtree_done hlt
  obtain ⟨ratios, hratios, _⟩ := bind_eq_ok hrec
  obtain ⟨ext, _, _, hall⟩ := ratiosLoop_ok _ hratios
  obtain ⟨r, _, _, hchild⟩ := hall 0 _ hdone.head
  cases hp : f.parent (f.osc o).root with
  | none => exact hpar hp
  | some p =>
    obtain ⟨k, rp, _, hk, _⟩ := hchild p hp
    cases hk

theorem setFrequency_sound (h : f.Inv) (o : OscillatorId) (freq : Rational) :
    Sound f (fun d => (f.dom d).root = o) (f.setFrequency o freq) := by
  unfold setFrequency
  split
  · exact sound_error _
  rename_i hcheck
  have ho := checkOsc_ok hcheck
  split
  · exact sound_error _
  rename_i hz
  have hpos : 0 < freq.num := Nat.pos_of_ne_zero fun h0 => hz ((freq.isZero_iff).mpr h0)
  have hself := modOsc_osc_self f ho fun o => { o with freq := freq }
  have hne : ∀ o', o' ≠ o → (f.modOsc o fun o => { o with freq := freq }).osc o' = f.osc o' :=
    fun o' hn => modOsc_osc_ne f (Ne.symm hn) _
  have hosc : ∀ o', SameLine (f.osc o') ((f.modOsc o fun o => { o with freq := freq }).osc o')
      ∧ ((f.modOsc o fun o => { o with freq := freq }).osc o').root = (f.osc o').root
      ∧ ((f.modOsc o fun o => { o with freq := freq }).osc o').active = (f.osc o').active := by
    intro o'
    by_cases he : o' = o
    · subst he
      rw [hself]
      exact ⟨⟨rfl, rfl, rfl⟩, rfl, rfl⟩
    · rw [hne o' he]
      exact ⟨SameLine.refl _, rfl, rfl⟩
  have hclean : (f.modOsc o fun o => { o with freq := freq }).Clean (fun _ => True)
      (fun o' => o' ≠ o) :=
    { shape := h.shape.congr rfl (modOsc_length f o _) (fun d => SameLinks.refl _)
        fun o' => (hosc o').2
      doms := fun d hd => (SameClock.refl (f.dom d)).ok (g := f.modOsc o _) (hosc _).1 (h.doms d hd)
      oscs := by
        intro o' ho'
        rw [modOsc_length] at ho'
        by_cases he : o' = o
        · subst he
          rw [hself]
          exact { h.oscs o' ho' with freq_pos := hpos }
        · rw [hne o' he]
          exact h.oscs o' ho'
      up := fun _ _ _ _ => trivial
      rated := fun d hd _ =>
        (h.rated d hd trivial).congr (g := f.modOsc o _) rfl rfl rfl fun _ _ => rfl
      ticked := by
        intro d hd _
        rw [modOsc_dom, (hosc _).1.unitMul]
        exact h.ticked d hd trivial
      settled := fun _ _ hn => absurd trivial hn
      tuned := by
        intro o' ho' hact hn
        rw [modOsc_length] at ho'
        unfold Tuned
        rw [hne o' hn] at hact ⊢
        exact h.tuned o' ho' hact trivial }
  refine commitOr_sound fun after hafter => ?_
  have hact : ((f.modOsc o fun o => { o with freq := freq }).osc o).active = true := by
    by_contra hn
    exact recomputeTree_locked hclean.shape (by rw [modOsc_length]; exact ho) (by simpa using hn)
      hafter
  obtain ⟨h₁, hk₁, _⟩ := recomputeTree_clean hclean (by rw [modOsc_length]; exact ho) hact hafter
  refine ⟨h₁.mono (fun _ _ => by simp) (fun o' _ => ?_), ?_⟩
  · by_cases he : o' = o
    · exact Or.inr he
    · exact Or.inl he
  · have hk₀ : f.Keeps (f.modOsc o fun o => { o with freq := freq }) (fun _ => False) :=
      ⟨Nat.le_refl _, fun d _ => (SameClock.refl (f.dom d)).count (g := f.modOsc o _) (hosc _).1,
        fun _ _ _ => rfl,
        fun d _ _ _ => (SameClock.refl (f.dom d)).secondsToTick (g := f.modOsc o _) (hosc _).1⟩
    refine (hk₀.mono fun _ hf => hf.elim).trans (hk₁.mono ?_)
    rintro d (hd | ⟨hd, _⟩)
    · exact absurd trivial hd
    · exact hd

end Frequency

/-! ## Gating -/

section Gate

variable {f : ClockForest}

theorem setGated_sound (h : f.Inv) (id : DomainId) (gated : Bool) :
    Sound f (fun d => d = id) (f.setGated id gated) := by
  unfold setGated
  split
  · exact sound_error _
  rename_i hcheck
  have hid := checkDomain_ok hcheck
  split
  · exact sound_ok h (Keeps.refl f _)
  set g := f.modDom id fun d =>
    { d with
      baseTicks := d.ticksAt (d.position (f.treeUnits id)), baseUnit := f.treeUnits id, own := 0,
      gated := gated } with hg
  have hself : g.dom id = { f.dom id with
      baseTicks := f.count id, baseUnit := f.treeUnits id, own := 0, gated := gated } :=
    modDom_dom_self f hid _
  have hne : ∀ d, d ≠ id → g.dom d = f.dom d := fun d hd => modDom_dom_ne f (Ne.symm hd) _
  have hlink : ∀ d, SameLinks (f.dom d) (g.dom d) ∧ (g.dom d).ratio = (f.dom d).ratio
      ∧ (g.dom d).unitsPerTick = (f.dom d).unitsPerTick := by
    intro d
    by_cases hd : d = id
    · subst hd
      rw [hself]
      exact ⟨⟨rfl, rfl, rfl, rfl, rfl⟩, rfl, rfl⟩
    · rw [hne d hd]
      exact ⟨SameLinks.refl _, rfl, rfl⟩
  have hu : ∀ d, g.treeUnits d = f.treeUnits d := by
    intro d
    unfold treeUnits
    rw [(hlink d).1.root]
    rfl
  have ht := h.treeUnits_lt hid
  have hok : ∀ d, d < f.domains.length → (g.dom d).Ok (g.treeUnits d) := by
    intro d hd
    rw [hu d]
    by_cases he : d = id
    · subst he
      rw [hself]
      exact ⟨(h.doms d hd).tick_pos, fun _ => Nat.le_max_left _ _, ht,
        count_lt (h.doms d hd), Nat.two_pow_pos 64⟩
    · rw [hne d he]
      exact h.doms d hd
  have hlen : g.domains.length = f.domains.length := modDom_length f id _
  refine sound_ok (h.retouch hlen rfl (fun d => (hlink d).1) (fun d => (hlink d).2) hok
    (fun _ hS => hS) (fun _ _ _ _ => trivial) (fun _ _ hn => absurd trivial hn)) ?_
  refine ⟨Nat.le_of_eq hlen.symm, ?_, ?_, ?_⟩
  · intro d hd
    by_cases he : d = id
    · subst he
      have hset : g.Settled d := by
        refine Or.inr ?_
        rw [hu d, hself]
        exact (Nat.max_zero _).symm
      rw [count_settled hset (hok d hd) (by rw [hu d]; exact ht), hself]
    · unfold count
      rw [hu d, hne d he]
  · intro d _ he
    rw [hne d he]
  · intro d _ he _
    unfold secondsToTick nextTick
    rw [hu d, hne d he]
    rfl

end Gate

/-! ## A new crystal -/

section Oscillators

variable {f : ClockForest}

theorem push_dom (ds : ClockDomain) (os : List Oscillator) {d : DomainId}
    (hd : d < f.domains.length) : (⟨f.domains ++ [ds], os⟩ : ClockForest).dom d = f.dom d := by
  simp [dom, List.getD_eq_getElem?_getD, List.getElem?_append_left hd]

theorem push_dom_self (ds : ClockDomain) (os : List Oscillator) :
    (⟨f.domains ++ [ds], os⟩ : ClockForest).dom f.domains.length = ds := by
  simp [dom, List.getD_eq_getElem?_getD]

theorem push_osc (ds : List ClockDomain) (os : Oscillator) {o : OscillatorId}
    (ho : o < f.oscillators.length) :
    (⟨ds, f.oscillators ++ [os]⟩ : ClockForest).osc o = f.osc o := by
  simp [osc, List.getD_eq_getElem?_getD, List.getElem?_append_left ho]

theorem push_osc_self (ds : List ClockDomain) (os : Oscillator) :
    (⟨ds, f.oscillators ++ [os]⟩ : ClockForest).osc f.oscillators.length = os := by
  simp [osc, List.getD_eq_getElem?_getD]

theorem lt_length_push {α : Type} {l : List α} {a : α} {i : Nat} (h : i < (l ++ [a]).length) :
    i < l.length ∨ i = l.length := by
  simp at h
  omega

theorem addOscillator_sound (h : f.Inv) (name : String) (freq : Rational) :
    Sound f (fun _ => False) (f.addOscillator name freq) := by
  unfold addOscillator
  split
  · exact sound_error _
  rename_i hz
  have hpos : 0 < freq.num := Nat.pos_of_ne_zero fun h0 => hz ((freq.isZero_iff).mpr h0)
  have hs := h.shape
  extract_lets root d₀ o₀
  set g : ClockForest := ⟨f.domains ++ [d₀], f.oscillators ++ [o₀.recomputeConversion]⟩ with hg
  have hdom : ∀ d, d < f.domains.length → g.dom d = f.dom d := fun d hd => push_dom _ _ hd
  have hdom₀ : g.dom f.domains.length = d₀ := push_dom_self _ _
  have hosc : ∀ o, o < f.oscillators.length → g.osc o = f.osc o := fun o ho => push_osc _ _ ho
  have hosc₀ : g.osc f.oscillators.length = o₀.recomputeConversion := push_osc_self _ _
  have hlen : ∀ d, d < g.domains.length → d < f.domains.length ∨ d = f.domains.length :=
    fun d hd => lt_length_push hd
  have holen : ∀ o, o < g.oscillators.length →
      o < f.oscillators.length ∨ o = f.oscillators.length := fun o ho => lt_length_push ho
  have hlt : f.domains.length < g.domains.length := by simp [hg]
  have holt : f.oscillators.length < g.oscillators.length := by simp [hg]
  have hroot : ∀ d, d < f.domains.length → g.osc (g.dom d).root = f.osc (f.dom d).root := by
    intro d hd
    rw [hdom d hd, hosc _ (hs.root_lt d hd)]
  -- the new domain has no parent and no child, so the links are those of `f`
  have hlinks : ∀ d, g.parent d = f.parent d ∧ g.children d = f.children d := by
    intro d
    unfold parent children
    rcases Nat.lt_trichotomy d f.domains.length with hd | rfl | hd
    · rw [hdom d hd]
      exact ⟨rfl, rfl⟩
    · rw [hdom₀, f.dom_of_length_le (Nat.le_refl _)]
      exact ⟨rfl, rfl⟩
    · rw [f.dom_of_length_le (Nat.le_of_lt hd),
        g.dom_of_length_le (by simp [hg]; exact hd)]
      exact ⟨rfl, rfl⟩
  have hpar : g.parent = f.parent := funext fun d => (hlinks d).1
  have hchild : g.children = f.children := funext fun d => (hlinks d).2
  have hu : ∀ d, d < f.domains.length → g.treeUnits d = f.treeUnits d := by
    intro d hd
    unfold treeUnits
    rw [hroot d hd]
  have hu₀ : g.treeUnits f.domains.length = 0 := by
    unfold treeUnits
    rw [hdom₀]
    exact congrArg Oscillator.units hosc₀
  have hinv : g.Inv :=
    { shape :=
        { links := by rw [hpar, hchild]; exact hs.links
          ranked := by rw [hpar]; exact hs.ranked
          parent_lt := by
            rw [hpar]
            exact fun d p hp => Nat.lt_trans (hs.parent_lt d p hp) hlt
          root_eq := by
            rw [hpar]
            intro d p hp
            rw [hdom p (hs.parent_lt d p hp), hdom d (f.lt_of_parent hp)]
            exact hs.root_eq d p hp
          root_lt := by
            intro d hd
            rcases hlen d hd with hd | rfl
            · rw [hdom d hd]
              exact Nat.lt_trans (hs.root_lt d hd) holt
            · rw [hdom₀]
              exact holt
          top := by
            intro d hd hp
            rcases hlen d hd with hd | rfl
            · rw [hroot d hd]
              exact hs.top d hd (hpar ▸ hp)
            · rw [hdom₀]
              exact ⟨congrArg Oscillator.root hosc₀, congrArg Oscillator.active hosc₀⟩
          active := by
            intro o ho hact
            rcases holen o ho with ho | rfl
            · rw [hosc o ho] at hact ⊢
              obtain ⟨h1, h2, h3⟩ := hs.active o ho hact
              rw [hpar, hdom _ h1]
              exact ⟨Nat.lt_trans h1 hlt, h2, h3⟩
            · rw [hosc₀]
              refine ⟨hlt, ?_, congrArg ClockDomain.root hdom₀⟩
              exact congrArg ClockDomain.parent hdom₀
          locked := by
            intro o ho hact
            rcases holen o ho with ho | rfl
            · rw [hosc o ho] at hact ⊢
              obtain ⟨h1, h2⟩ := hs.locked o ho hact
              rw [hpar]
              exact ⟨Nat.lt_trans h1 hlt, h2⟩
            · rw [hosc₀] at hact
              exact absurd hact (by simp [o₀, Oscillator.recomputeConversion])
          rated := by
            intro d hd
            rcases hlen d hd with hd | rfl
            · rw [hdom d hd]
              exact hs.rated d hd
            · rw [hdom₀]
              exact ⟨Nat.one_pos, Nat.one_pos⟩ }
      doms := by
        intro d hd
        rcases hlen d hd with hd | rfl
        · rw [hu d hd, hdom d hd]
          exact h.doms d hd
        · rw [hu₀, hdom₀]
          exact ⟨Nat.one_pos, fun _ => Nat.zero_le _, Nat.two_pow_pos 64, Nat.two_pow_pos 64,
            Nat.two_pow_pos 64⟩
      oscs := by
        intro o ho
        rcases holen o ho with ho | rfl
        · rw [hosc o ho]
          exact h.oscs o ho
        · rw [hosc₀]
          exact ⟨Nat.one_pos, Nat.one_lt_two_pow (by decide), hpos, Nat.two_pow_pos 64⟩
      up := fun _ _ _ _ => trivial
      rated := by
        intro d hd _
        rcases hlen d hd with hd | rfl
        · refine (h.rated d hd trivial).congr (by rw [hpar]) (by rw [hdom d hd])
            (by rw [hdom d hd]) ?_
          rintro p (rfl | hp)
          · rw [hdom p hd]
          · rw [hdom p (hs.parent_lt d p hp)]
        · refine ⟨fun _ => by rw [hdom₀], fun p hp => ?_⟩
          have hn : g.parent f.domains.length = none := congrArg ClockDomain.parent hdom₀
          cases hn ▸ hp
      ticked := by
        intro d hd _
        rcases hlen d hd with hd | rfl
        · rw [hroot d hd, hdom d hd]
          exact h.ticked d hd trivial
        · rw [hdom₀]
          rw [show d₀.root = f.oscillators.length from rfl, hosc₀]
          refine ⟨Nat.one_pos, dvd_refl _, ?_⟩
          change 1 = 1 / 1 * 1
          decide
      settled := fun _ _ hn => absurd trivial hn
      tuned := by
        intro o ho hact _
        rcases holen o ho with ho | rfl
        · unfold Tuned
          rw [hosc o ho] at hact ⊢
          exact h.tuned o ho hact trivial
        · unfold Tuned
          rw [hosc₀]
          change freq.toQ = freq.toQ * ((1 : Nat) : ℚ)
          rw [Nat.cast_one, mul_one] }
  refine sound_ok hinv ⟨Nat.le_of_lt hlt, ?_, ?_, ?_⟩
  · intro d hd
    unfold count
    rw [hu d hd, hdom d hd]
  · intro d hd _
    rw [hdom d hd]
  · intro d hd _ _
    unfold secondsToTick nextTick
    rw [hu d hd, hroot d hd, hdom d hd]

end Oscillators

end ClockForest

end Rsemu.Clock
