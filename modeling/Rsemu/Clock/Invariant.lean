import Rsemu.Clock.Recompute

/-!
# The forest invariant

A topology change works in two stages. It first edits ratings and links, which leaves the
derived fields of some domains out of date; it then recomputes every tree it touched. `Clean f
S T` is the invariant with that slack written out: the derived fields are right on the domains
of `S`, the unit rates on the oscillators of `T`, and a domain outside `S` has had its counter
materialized, so that no rate matters to it.

`Keeps f g P` is the other half, what a change owes the guest: no counter moves, and the next
tick of a domain outside `P` is as many seconds away as before.
-/

namespace Rsemu.Clock

open Word Forest

/-- What holds of an oscillator's own fields, whatever tree it has. -/
structure Oscillator.Ok (o : Oscillator) : Prop where
  unitMul_pos : 0 < o.unitMul
  unitMul_lt : o.unitMul < 2 ^ 64
  freq_pos : 0 < o.freq.num
  units_lt : o.units < 2 ^ 64

/-- What holds of a domain's counter, on a tree at `tree`. -/
structure ClockDomain.Ok (d : ClockDomain) (tree : Nat) : Prop where
  tick_pos : 0 < d.unitsPerTick
  /-- A running domain stands at or past its anchor. -/
  anchored : d.gated = false → d.baseUnit ≤ d.position tree
  baseUnit_lt : d.baseUnit < 2 ^ 64
  baseTicks_lt : d.baseTicks < 2 ^ 64
  own_lt : d.own < 2 ^ 64

/-- The derived fields of a domain with ratio `r` on a tree of unit multiplier `a`. -/
structure ClockDomain.Ticked (d : ClockDomain) (a : Nat) : Prop where
  num_pos : 0 < d.ratio.num
  num_dvd : d.ratio.num ∣ a
  tick_eq : d.unitsPerTick = a / d.ratio.num * d.ratio.den

namespace ClockForest

def count (f : ClockForest) (d : DomainId) : Nat :=
  (f.dom d).ticksAt ((f.dom d).position (f.treeUnits d))

def nextTick (f : ClockForest) (d : DomainId) : Nat :=
  (f.dom d).baseUnit
    + (((f.dom d).position (f.treeUnits d) - (f.dom d).baseUnit) / (f.dom d).unitsPerTick + 1)
      * (f.dom d).unitsPerTick

def secondsToTick (f : ClockForest) (d : DomainId) : ℚ :=
  ((f.nextTick d : ℚ) - (f.treeUnits d : ℚ)) / (f.osc (f.dom d).root).unitRate.toQ

/-- The domain is gated, or stands where its tree does. -/
def Settled (f : ClockForest) (d : DomainId) : Prop :=
  (f.dom d).gated = true ∨ (f.dom d).baseUnit = (f.dom d).position (f.treeUnits d)

/-- A domain's ratio follows from its parent's. -/
structure Rated (f : ClockForest) (d : DomainId) : Prop where
  root : f.parent d = none → (f.dom d).ratio = Rational.one
  child : ∀ p, f.parent d = some p → (f.dom d).ratio.toQ
    = (f.dom p).ratio.toQ * (((f.dom d).mul.toNat : ℚ) / ((f.dom d).div.toNat : ℚ))

/-- The unit rate is the frequency times the units of one tick. -/
def Tuned (f : ClockForest) (o : OscillatorId) : Prop :=
  (f.osc o).unitRate.toQ = (f.osc o).freq.toQ * ((f.osc o).unitMul : ℚ)

/-- The invariant, up to the domains outside `S` and the oscillators outside `T`. -/
structure Clean (f : ClockForest) (S : DomainId → Prop) (T : OscillatorId → Prop) : Prop where
  shape : Struct f
  doms : ∀ d, d < f.domains.length → (f.dom d).Ok (f.treeUnits d)
  oscs : ∀ o, o < f.oscillators.length → (f.osc o).Ok
  /-- What is in `S` has its parent in `S`. -/
  up : ∀ d p, S d → f.parent d = some p → S p
  rated : ∀ d, d < f.domains.length → S d → f.Rated d
  ticked : ∀ d, d < f.domains.length → S d → (f.dom d).Ticked (f.osc (f.dom d).root).unitMul
  /-- What is not in `S` waits for a recomputation with its counter materialized. -/
  settled : ∀ d, d < f.domains.length → ¬ S d → f.Settled d
  tuned : ∀ o, o < f.oscillators.length → (f.osc o).active = true → T o → f.Tuned o

/-- Every domain and every oscillator is clean. -/
def Inv (f : ClockForest) : Prop := f.Clean (fun _ => True) (fun _ => True)

/-- What a change owes the domains that were there: their counters, and their phase outside `P`. -/
structure Keeps (f g : ClockForest) (P : DomainId → Prop) : Prop where
  length_le : f.domains.length ≤ g.domains.length
  count : ∀ d, d < f.domains.length → g.count d = f.count d
  gated : ∀ d, d < f.domains.length → ¬ P d → (g.dom d).gated = (f.dom d).gated
  phase : ∀ d, d < f.domains.length → ¬ P d → (f.dom d).gated = false →
    g.secondsToTick d = f.secondsToTick d

theorem Keeps.refl (f : ClockForest) (P : DomainId → Prop) : Keeps f f P :=
  ⟨Nat.le_refl _, fun _ _ => rfl, fun _ _ _ => rfl, fun _ _ _ _ => rfl⟩

theorem Keeps.trans {f g h : ClockForest} {P : DomainId → Prop} (hfg : Keeps f g P)
    (hgh : Keeps g h P) : Keeps f h P where
  length_le := Nat.le_trans hfg.length_le hgh.length_le
  count := by
    intro d hd
    rw [hgh.count d (Nat.lt_of_lt_of_le hd hfg.length_le), hfg.count d hd]
  gated := by
    intro d hd hP
    rw [hgh.gated d (Nat.lt_of_lt_of_le hd hfg.length_le) hP, hfg.gated d hd hP]
  phase := by
    intro d hd hP hg
    rw [hgh.phase d (Nat.lt_of_lt_of_le hd hfg.length_le) hP ((hfg.gated d hd hP).trans hg),
      hfg.phase d hd hP hg]

theorem Keeps.mono {f g : ClockForest} {P Q : DomainId → Prop} (h : Keeps f g P)
    (hPQ : ∀ d, P d → Q d) : Keeps f g Q :=
  ⟨h.length_le, h.count, fun d hd hQ => h.gated d hd fun hP => hQ (hPQ d hP),
    fun d hd hQ => h.phase d hd fun hP => hQ (hPQ d hP)⟩

variable {d : ClockDomain}

theorem ticksAt_gated (hg : d.gated = true) (u : Nat) :
    d.ticksAt u = d.baseTicks := by simp [ClockDomain.ticksAt, hg]

theorem ticksAt_running {u : Nat} (hg : d.gated = false) (hb : d.baseUnit ≤ u) (hu : u < 2 ^ 64) :
    d.ticksAt u = wrappingAdd 64 d.baseTicks ((u - d.baseUnit) / d.unitsPerTick) := by
  simp [ClockDomain.ticksAt, hg, wrappingSub_of_le hb hu]

theorem position_lt {tree : Nat} (h : d.Ok tree) (ht : tree < 2 ^ 64) :
    d.position tree < 2 ^ 64 := max_lt ht h.own_lt

section Read

variable {f : ClockForest} {d : DomainId}

theorem count_settled (h : f.Settled d) (hok : (f.dom d).Ok (f.treeUnits d))
    (ht : f.treeUnits d < 2 ^ 64) : f.count d = (f.dom d).baseTicks := by
  unfold count
  by_cases hg : (f.dom d).gated = true
  · exact ticksAt_gated hg _
  · have hg : (f.dom d).gated = false := by simpa using hg
    have hb := h.resolve_left (by simp [hg])
    rw [ticksAt_running hg (Nat.le_of_eq hb) (position_lt hok ht), hb, Nat.sub_self, Nat.zero_div]
    exact wrappingAdd_of_lt (by rw [Nat.add_zero]; exact hok.baseTicks_lt)

theorem count_running (hg : (f.dom d).gated = false) (hok : (f.dom d).Ok (f.treeUnits d))
    (ht : f.treeUnits d < 2 ^ 64) :
    f.count d = wrappingAdd 64 (f.dom d).baseTicks
      (((f.dom d).position (f.treeUnits d) - (f.dom d).baseUnit) / (f.dom d).unitsPerTick) :=
  ticksAt_running hg (hok.anchored hg) (position_lt hok ht)

theorem count_lt (hok : (f.dom d).Ok (f.treeUnits d)) : f.count d < 2 ^ 64 := by
  unfold count ClockDomain.ticksAt
  split
  · exact hok.baseTicks_lt
  · exact wrappingAdd_lt _ _ _

end Read

theorem Ticked.scale {a fac : Nat} (h : d.Ticked a) :
    a * fac / d.ratio.num * d.ratio.den = d.unitsPerTick * fac := by
  rw [h.tick_eq, Nat.mul_comm a fac, Nat.mul_div_assoc _ h.num_dvd]
  ring

namespace Recomputed

variable {f f' : ClockForest} {o : OscillatorId} {fac : Nat} {d : DomainId}

section

variable (h : Recomputed f o f' fac)
include h

theorem links (d : DomainId) : SameLinks (f.dom d) (f'.dom d) := by
  by_cases hd : d ∈ f.subtree (f.osc o).root
  · obtain ⟨r, k, he, _⟩ := h.dom_mem d hd
    rw [he]
    exact ⟨rfl, rfl, rfl, rfl, rfl⟩
  · rw [h.dom_notMem d hd]
    exact SameLinks.refl _

theorem parent (d : DomainId) : f'.parent d = f.parent d :=
  (h.links d).parent

theorem counter (d : DomainId) :
    (f'.dom d).gated = (f.dom d).gated ∧ (f'.dom d).baseTicks = (f.dom d).baseTicks := by
  by_cases hd : d ∈ f.subtree (f.osc o).root
  · obtain ⟨r, k, he, _⟩ := h.dom_mem d hd
    rw [he]
    exact ⟨rfl, rfl⟩
  · rw [h.dom_notMem d hd]
    exact ⟨rfl, rfl⟩

theorem top (o' : OscillatorId) :
    (f'.osc o').root = (f.osc o').root ∧ (f'.osc o').active = (f.osc o').active := by
  by_cases ho : o' = o
  · subst ho
    obtain ⟨rate, _, he⟩ := h.osc_eq
    rw [he]
    exact ⟨rfl, rfl⟩
  · rw [h.osc_ne o' ho]
    exact ⟨rfl, rfl⟩

theorem osc_fields :
    (f'.osc o).units = (f.osc o).units * fac ∧ (f'.osc o).unitMul = (f.osc o).unitMul * fac
      ∧ (f'.osc o).freq = (f.osc o).freq ∧ f'.Tuned o := by
  obtain ⟨rate, hq, he⟩ := h.osc_eq
  unfold Tuned
  rw [he]
  exact ⟨rfl, rfl, rfl, hq⟩

theorem shape (hs : Struct f) : Struct f' :=
  hs.congr h.length h.oscillators_length h.links h.top

theorem dom_off (hs : Struct f) (ho : o < f.oscillators.length)
    (hact : (f.osc o).active = true) (hd : (f.dom d).root ≠ o) :
    f'.dom d = f.dom d ∧ f'.osc (f'.dom d).root = f.osc (f.dom d).root
      ∧ f'.treeUnits d = f.treeUnits d := by
  have he := h.dom_notMem d fun hm => hd ((hs.mem_tree ho hact).mp hm).2
  have ho' := h.osc_ne _ hd
  unfold treeUnits
  rw [he, ho']
  exact ⟨rfl, rfl, rfl⟩

theorem dom_on (hs : Struct f) (ho : o < f.oscillators.length)
    (hact : (f.osc o).active = true) (hlt : d < f.domains.length) (hd : (f.dom d).root = o) :
    (f'.dom d).baseUnit = (f.dom d).baseUnit * fac ∧ (f'.dom d).own = (f.dom d).own * fac
      ∧ f'.treeUnits d = f.treeUnits d * fac
      ∧ (f'.dom d).position (f'.treeUnits d) = (f.dom d).position (f.treeUnits d) * fac := by
  obtain ⟨r, k, he, _⟩ := h.dom_mem d ((hs.mem_tree ho hact).mpr ⟨hlt, hd⟩)
  have hu : f'.treeUnits d = f.treeUnits d * fac := by
    unfold treeUnits
    rw [(h.links d).root, hd]
    exact h.osc_fields.1
  have hown : (f'.dom d).own = (f.dom d).own * fac := by rw [he]; rfl
  refine ⟨by rw [he]; rfl, hown, hu, ?_⟩
  unfold ClockDomain.position
  rw [hown, hu, max_mul_of_nonneg _ _ (Nat.zero_le fac)]

theorem dom_ok (hs : Struct f) (ho : o < f.oscillators.length)
    (hact : (f.osc o).active = true) (hpos : 0 < (f.osc o).unitMul) (hlt : d < f.domains.length)
    (hok : (f.dom d).Ok (f.treeUnits d)) : (f'.dom d).Ok (f'.treeUnits d) := by
  by_cases hd : (f.dom d).root = o
  · obtain ⟨r, k, he, hr, hdvd, hk, _, hb, hown⟩ :=
      h.dom_mem d ((hs.mem_tree ho hact).mpr ⟨hlt, hd⟩)
    obtain ⟨h1, h2, _, h4⟩ := h.dom_on hs ho hact hlt hd
    have hc := h.counter d
    exact
      { tick_pos := by
          have hkd : (f'.dom d).unitsPerTick = k := by rw [he]; rfl
          rw [hkd, hk]
          exact Nat.mul_pos (Nat.div_pos (Nat.le_of_dvd (Nat.mul_pos hpos h.fac_pos) hdvd) hr)
            r.den_pos
        anchored := by
          intro hg
          rw [h1, h4]
          exact Nat.mul_le_mul_right _ (hok.anchored (hc.1 ▸ hg))
        baseUnit_lt := by rw [h1]; exact hb
        baseTicks_lt := by rw [hc.2]; exact hok.baseTicks_lt
        own_lt := by rw [h2]; exact hown }
  · obtain ⟨h1, _, h3⟩ := h.dom_off hs ho hact hd
    rw [h1, h3]
    exact hok

theorem osc_ok {o' : OscillatorId} (hok : (f.osc o').Ok) : (f'.osc o').Ok := by
  by_cases ho : o' = o
  · subst ho
    obtain ⟨h1, h2, h3, _⟩ := h.osc_fields
    exact
      { unitMul_pos := by rw [h2]; exact Nat.mul_pos hok.unitMul_pos h.fac_pos
        unitMul_lt := by rw [h2]; exact h.unitMul_lt
        freq_pos := by rw [h3]; exact hok.freq_pos
        units_lt := by rw [h1]; exact h.units_lt }
  · rw [h.osc_ne o' ho]
    exact hok

theorem rated_on (hs : Struct f) (ho : o < f.oscillators.length)
    (hact : (f.osc o).active = true) (hlt : d < f.domains.length) (hd : (f.dom d).root = o) :
    f'.Rated d ∧ (f'.dom d).Ticked (f'.osc (f'.dom d).root).unitMul := by
  have hm := (hs.mem_tree ho hact).mpr ⟨hlt, hd⟩
  refine ⟨⟨?_, ?_⟩, ?_⟩
  · intro hp
    exact h.ratio_root d hm (h.parent d ▸ hp)
  · intro p hp
    rw [(h.links d).mul, (h.links d).div]
    exact h.ratio_child d p hm (h.parent d ▸ hp)
  · obtain ⟨r, k, he, hr, hdvd, hk, _⟩ := h.dom_mem d hm
    rw [(h.links d).root, hd, h.osc_fields.2.1, he]
    exact ⟨hr, hdvd, hk⟩

theorem rated_off (hs : Struct f) (ho : o < f.oscillators.length)
    (hact : (f.osc o).active = true) (hd : (f.dom d).root ≠ o) (hr : f.Rated d)
    (ht : (f.dom d).Ticked (f.osc (f.dom d).root).unitMul) :
    f'.Rated d ∧ (f'.dom d).Ticked (f'.osc (f'.dom d).root).unitMul := by
  obtain ⟨h1, h2, _⟩ := h.dom_off hs ho hact hd
  refine ⟨⟨?_, ?_⟩, ?_⟩
  · intro hp
    rw [h1]
    exact hr.root (h.parent d ▸ hp)
  · intro p hp
    have hp' : f.parent d = some p := h.parent d ▸ hp
    have hroot : (f.dom p).root ≠ o := by rw [hs.root_eq d p hp']; exact hd
    rw [h1, (h.dom_off hs ho hact hroot).1]
    exact hr.child p hp'
  · rw [h2, h1]
    exact ht

theorem ratio_eq (hs : Struct f) (ho : o < f.oscillators.length)
    (hact : (f.osc o).active = true) {S : DomainId → Prop}
    (hup : ∀ d p, S d → f.parent d = some p → S p)
    (hrated : ∀ d, d < f.domains.length → S d → f.Rated d) :
    ∀ d, d < f.domains.length → (f.dom d).root = o → S d → (f'.dom d).ratio = (f.dom d).ratio := by
  refine hs.ranked.induction ?_ ?_
  · intro d hp hlt hd hS
    have hm := (hs.mem_tree ho hact).mpr ⟨hlt, hd⟩
    rw [h.ratio_root d hm hp, (hrated d hlt hS).root hp]
  · intro d p hp ih hlt hd hS
    have hm := (hs.mem_tree ho hact).mpr ⟨hlt, hd⟩
    have hpr := ih (hs.parent_lt d p hp) ((hs.root_eq d p hp).trans hd) (hup d p hS hp)
    refine Rational.eq_of_toQ ?_
    rw [h.ratio_child d p hm hp, (hrated d hlt hS).child p hp, hpr]

theorem tick_eq (hs : Struct f) (ho : o < f.oscillators.length)
    (hact : (f.osc o).active = true) (hlt : d < f.domains.length) (hd : (f.dom d).root = o)
    (ht : (f.dom d).Ticked (f.osc (f.dom d).root).unitMul)
    (hr : (f'.dom d).ratio = (f.dom d).ratio) :
    (f'.dom d).unitsPerTick = (f.dom d).unitsPerTick * fac := by
  obtain ⟨_, ht'⟩ := h.rated_on hs ho hact hlt hd
  rw [ht'.tick_eq, (h.links d).root, hd, h.osc_fields.2.1, hr]
  rw [hd] at ht
  exact Ticked.scale ht

end

end Recomputed

section Clean

variable {f f' : ClockForest} {S : DomainId → Prop} {T : OscillatorId → Prop} {o : OscillatorId}

theorem Clean.treeUnits_lt (h : f.Clean S T) {d : DomainId} (hd : d < f.domains.length) :
    f.treeUnits d < 2 ^ 64 := (h.oscs _ (h.shape.root_lt d hd)).units_lt

theorem Clean.mono (h : f.Clean S T) {S' : DomainId → Prop} {T' : OscillatorId → Prop}
    (hS : ∀ d, d < f.domains.length → (S' d ↔ S d)) (hT : ∀ o, T' o → T o) : f.Clean S' T' :=
  { h with
    up := by
      intro d p hd hp
      have hdS := (hS d (f.lt_of_parent hp)).mp hd
      exact (hS p (h.shape.parent_lt d p hp)).mpr (h.up d p hdS hp)
    rated := fun d hd hd' => h.rated d hd ((hS d hd).mp hd')
    ticked := fun d hd hd' => h.ticked d hd ((hS d hd).mp hd')
    settled := fun d hd hd' => h.settled d hd fun hs => hd' ((hS d hd).mpr hs)
    tuned := fun o ho ha ht => h.tuned o ho ha (hT o ht) }

theorem recomputeTree_clean (h : f.Clean S T) (ho : o < f.oscillators.length)
    (hact : (f.osc o).active = true) (hrec : f.recomputeTree o = .ok f') :
    f'.Clean (fun d => S d ∨ (f.dom d).root = o) (fun o' => T o' ∨ o' = o)
      ∧ f.Keeps f' (fun d => ¬ S d ∨ ((f.dom d).root = o ∧ ¬ T o))
      ∧ f'.oscillators.length = f.oscillators.length
      ∧ (∀ o', (f'.osc o').active = (f.osc o').active)
      ∧ ∀ d, (f'.dom d).root = (f.dom d).root := by
  have hok := h.oscs o ho
  obtain ⟨fac, hr⟩ := recomputeTree_ok h.shape ho hact hok.unitMul_pos hok.unitMul_lt hrec
  refine ⟨?_, ?_, hr.oscillators_length, fun o' => (hr.top o').2, fun d => (hr.links d).root⟩
  · exact
      { shape := hr.shape h.shape
        doms := by
          intro d hd
          rw [hr.length] at hd
          exact hr.dom_ok h.shape ho hact hok.unitMul_pos hd (h.doms d hd)
        oscs := by
          intro o' ho'
          exact hr.osc_ok (h.oscs o' (hr.oscillators_length ▸ ho'))
        up := by
          intro d p hd hp
          have hp' : f.parent d = some p := hr.parent d ▸ hp
          rcases hd with hd | hd
          · exact Or.inl (h.up d p hd hp')
          · exact Or.inr ((h.shape.root_eq d p hp').trans hd)
        rated := by
          intro d hlt hd
          rw [hr.length] at hlt
          by_cases hroot : (f.dom d).root = o
          · exact (hr.rated_on h.shape ho hact hlt hroot).1
          · have hS := hd.resolve_right hroot
            exact (hr.rated_off h.shape ho hact hroot (h.rated d hlt hS) (h.ticked d hlt hS)).1
        ticked := by
          intro d hlt hd
          rw [hr.length] at hlt
          by_cases hroot : (f.dom d).root = o
          · exact (hr.rated_on h.shape ho hact hlt hroot).2
          · have hS := hd.resolve_right hroot
            exact (hr.rated_off h.shape ho hact hroot (h.rated d hlt hS) (h.ticked d hlt hS)).2
        settled := by
          intro d hlt hd
          rw [hr.length] at hlt
          obtain ⟨hS, hroot⟩ := not_or.mp hd
          obtain ⟨h1, _, h3⟩ := hr.dom_off h.shape ho hact hroot
          unfold Settled
          rw [h1, h3]
          exact h.settled d hlt hS
        tuned := by
          intro o' ho' hact' hT
          by_cases he : o' = o
          · subst he
            exact hr.osc_fields.2.2.2
          · unfold Tuned
            rw [hr.osc_ne o' he]
            exact h.tuned o' (hr.oscillators_length ▸ ho') ((hr.top o').2 ▸ hact')
              (hT.resolve_right he) }
  · have hratio := hr.ratio_eq h.shape ho hact h.up h.rated
    refine ⟨Nat.le_of_eq hr.length.symm, ?_, fun d _ _ => (hr.counter d).1, ?_⟩
    · intro d hlt
      by_cases hroot : (f.dom d).root = o
      swap
      · obtain ⟨h1, _, h3⟩ := hr.dom_off h.shape ho hact hroot
        unfold count
        rw [h1, h3]
      have hdok := h.doms d hlt
      have hdok' := hr.dom_ok h.shape ho hact hok.unitMul_pos hlt hdok
      have ht := h.treeUnits_lt hlt
      obtain ⟨hb, hown, hu, hpos⟩ := hr.dom_on h.shape ho hact hlt hroot
      have ht' : f'.treeUnits d < 2 ^ 64 := by
        rw [hu]
        unfold treeUnits
        rw [hroot]
        exact hr.units_lt
      have hc := hr.counter d
      by_cases hS : S d
      · by_cases hg : (f.dom d).gated = true
        · unfold count
          rw [ticksAt_gated hg, ticksAt_gated (hc.1.trans hg), hc.2]
        · have hg : (f.dom d).gated = false := by simpa using hg
          -- the same quotient of the same distance, both counted in finer units
          rw [count_running hg hdok ht, count_running (hc.1.trans hg) hdok' ht', hc.2, hb, hpos,
            hr.tick_eq h.shape ho hact hlt hroot (h.ticked d hlt hS) (hratio d hlt hroot hS),
            ← Nat.sub_mul, Nat.mul_div_mul_right _ _ hr.fac_pos]
      · have hset := h.settled d hlt hS
        have hset' : f'.Settled d := by
          rcases hset with hg | hbase
          · exact Or.inl (hc.1.trans hg)
          · exact Or.inr (by rw [hb, hpos, hbase])
        rw [count_settled hset hdok ht, count_settled hset' hdok' ht', hc.2]
    · intro d hlt hP hg
      obtain ⟨hS, hT⟩ := not_or.mp hP
      have hS := not_not.mp hS
      by_cases hroot : (f.dom d).root = o
      swap
      · obtain ⟨h1, h2, h3⟩ := hr.dom_off h.shape ho hact hroot
        unfold secondsToTick nextTick
        rw [h1] at h2
        rw [h1, h2, h3]
      have hT : T o := by
        by_contra hn
        exact hT ⟨hroot, hn⟩
      obtain ⟨hb, hown, hu, hpos⟩ := hr.dom_on h.shape ho hact hlt hroot
      have hk := hr.tick_eq h.shape ho hact hlt hroot (h.ticked d hlt hS) (hratio d hlt hroot hS)
      have hnext : f'.nextTick d = f.nextTick d * fac := by
        unfold nextTick
        rw [hb, hpos, hk, ← Nat.sub_mul, Nat.mul_div_mul_right _ _ hr.fac_pos]
        ring
      have hfac : (fac : ℚ) ≠ 0 := Nat.cast_ne_zero.mpr (Nat.pos_iff_ne_zero.mp hr.fac_pos)
      have hrate : (f'.osc o).unitRate.toQ = (f.osc o).unitRate.toQ * (fac : ℚ) := by
        obtain ⟨_, h2, h3, h4⟩ := hr.osc_fields
        rw [h4, h.tuned o ho hact hT, h2, h3, Nat.cast_mul, mul_assoc]
      unfold secondsToTick
      rw [hnext, hu, (hr.links d).root, hroot, hrate, Nat.cast_mul, Nat.cast_mul, ← sub_mul,
        mul_div_mul_right _ _ hfac]

end Clean

end ClockForest

end Rsemu.Clock
