import Mathlib.Data.Nat.Cast.Order.Field
import Rsemu.Clock.Ticks

/-!
# The cross-tree timeline

Every crystal keeps a position on one shared fixed-point timeline, moved along by a
quotient-and-remainder accumulator. `Timed` is what links the accumulator to the closed form:
the time and the residual are the quotient and the remainder of one division, of the whole
distance covered since the segment began.

The timeline is independent of the counters, so its invariant asks nothing of the anchors: it
survives every call, restores and refused calls included. One step can break it.
`restore_unit_position` writes the position before it asks for the instant, and leaves the
position there when the instant does not fit.
-/

namespace Rsemu.Clock

open Word Forest

namespace Oscillator

def scaled (o : Oscillator) : Nat := o.unitRate.den * 2 ^ 64

def instant (o : Oscillator) (units : Nat) : Nat :=
  o.baseTime + (units - o.baseUnits) * o.scaled / o.unitRate.num

def fraction (o : Oscillator) (units : Nat) : Nat :=
  (units - o.baseUnits) * o.scaled % o.unitRate.num

/-- What holds of a crystal's timeline at every moment. -/
structure Timed (o : Oscillator) : Prop where
  unitMul_pos : 0 < o.unitMul
  unitMul_lt : o.unitMul < 2 ^ 64
  freq_pos : 0 < o.freq.num
  rate_pos : 0 < o.unitRate.num
  units_lt : o.units < 2 ^ 64
  /-- The segment began at or before the position. -/
  base_le : o.baseUnits ≤ o.units
  step_eq : o.step = o.scaled / o.unitRate.num
  rem_eq : o.rem = o.scaled % o.unitRate.num
  /-- The accumulated time and residual are those of the closed form. -/
  time_eq : o.time = o.instant o.units
  residual_eq : o.residual = o.fraction o.units
  time_lt : o.time < 2 ^ 128

section Timed

variable {o : Oscillator}

theorem Timed.baseTime_le (h : o.Timed) : o.baseTime ≤ o.time := by
  rw [h.time_eq]
  exact Nat.le_add_right _ _

theorem instant_mono {u v : Nat} (h : u ≤ v) : o.instant u ≤ o.instant v :=
  Nat.add_le_add_left (Nat.div_le_div_right (Nat.mul_le_mul_right _ (by omega))) _

theorem instant_congr {o' : Oscillator} (ht : o'.baseTime = o.baseTime)
    (hu : o'.baseUnits = o.baseUnits) (hr : o'.unitRate = o.unitRate) (u : Nat) :
    o'.instant u = o.instant u ∧ o'.fraction u = o.fraction u := by
  unfold instant fraction scaled
  rw [ht, hu, hr]
  exact ⟨rfl, rfl⟩

theorem Timed.step_instant (h : o.Timed) (n : Nat) :
    o.time + n * o.step + (o.residual + n * o.rem) / o.unitRate.num = o.instant (o.units + n)
      ∧ (o.residual + n * o.rem) % o.unitRate.num = o.fraction (o.units + n) := by
  have hb : o.units + n - o.baseUnits = o.units - o.baseUnits + n := by
    have := h.base_le
    omega
  rw [h.time_eq, h.residual_eq, h.step_eq, h.rem_eq, instant, instant, fraction, fraction, hb,
    ← acc_div _ _ h.rate_pos, acc_mod]
  exact ⟨by ring, rfl⟩

theorem Timed.carry_lt (h : o.Timed) {n : Nat} (hn : n < 2 ^ 64) :
    n * o.rem < 2 ^ 128 ∧ o.residual + n * o.rem < 2 ^ 128 := by
  have hres : o.residual < o.unitRate.num := by
    rw [h.residual_eq]
    exact Nat.mod_lt _ h.rate_pos
  have hlt : o.residual + n * o.rem < 2 ^ (2 * 64) := by
    rw [h.rem_eq]
    exact acc_carry_lt _ _ o.unitRate.num_lt hn hres
  exact ⟨Nat.lt_of_le_of_lt (Nat.le_add_left _ _) hlt, hlt⟩

theorem Timed.accumulate_eq (h : o.Timed) {n : Nat} (hn : n < 2 ^ 64) :
    o.accumulate n = if o.instant (o.units + n) < 2 ^ 128
      then .ok { o with time := o.instant (o.units + n), residual := o.fraction (o.units + n) }
      else .error (o.overflow "global timeline") := by
  obtain ⟨htime, hres⟩ := h.step_instant n
  obtain ⟨hrem, hcarry⟩ := h.carry_lt hn
  have hle : o.time + n * o.step ≤ o.instant (o.units + n) := by
    rw [← htime]
    exact Nat.le_add_right _ _
  unfold accumulate
  have hm : checkedMul 128 n o.rem = some (n * o.rem) := checkedMul_eq_some.mpr ⟨hrem, rfl⟩
  have hc : checkedAdd 128 o.residual (n * o.rem) = some (o.residual + n * o.rem) :=
    checkedAdd_eq_some.mpr ⟨hcarry, rfl⟩
  by_cases hfit : o.instant (o.units + n) < 2 ^ 128
  · have h1 : checkedMul 128 n o.step = some (n * o.step) :=
      checkedMul_eq_some.mpr ⟨by omega, rfl⟩
    have h2 : checkedAdd 128 o.time (n * o.step) = some (o.time + n * o.step) :=
      checkedAdd_eq_some.mpr ⟨by omega, rfl⟩
    simp only [h1, hm, h2, hc]
    split
    · have h3 : checkedAdd 128 (o.time + n * o.step) ((o.residual + n * o.rem) / o.unitRate.num)
          = some (o.instant (o.units + n)) := checkedAdd_eq_some.mpr ⟨by omega, htime.symm⟩
      simp only [h3, hres]
    · rename_i hsmall
      have hlt := Nat.not_le.mp hsmall
      rw [Nat.div_eq_of_lt hlt, Nat.add_zero] at htime
      rw [Nat.mod_eq_of_lt hlt] at hres
      rw [htime, hres]
  · rw [if_neg hfit]
    -- one of the three sums on the way to the instant is the one that does not fit
    cases h1 : checkedMul 128 n o.step with
    | none => rfl
    | some add =>
      obtain ⟨_, rfl⟩ := checkedMul_eq_some.mp h1
      cases h2 : checkedAdd 128 o.time (n * o.step) with
      | none => simp only [hm, h2]
      | some t =>
        obtain ⟨_, rfl⟩ := checkedAdd_eq_some.mp h2
        simp only [hm, h2, hc]
        have h3 : checkedAdd 128 (o.time + n * o.step)
            ((o.residual + n * o.rem) / o.unitRate.num) = none := by
          unfold checkedAdd
          rw [if_neg (by omega)]
        split
        · simp only [h3]
        · rename_i hsmall
          rw [Nat.div_eq_of_lt (Nat.not_le.mp hsmall)] at htime
          omega

theorem timeForUnits_eq {u : Nat} (hstep : o.step = o.scaled / o.unitRate.num)
    (hrem : o.rem = o.scaled % o.unitRate.num) (hpos : 0 < o.unitRate.num) (hu : u < 2 ^ 64)
    (hbase : o.baseTime < 2 ^ 128) :
    o.timeForUnits u = if o.instant u < 2 ^ 128 then .ok (o.instant u)
      else .error (o.overflow "global timeline") := by
  unfold timeForUnits
  by_cases hle : u ≤ o.baseUnits
  · have hi : o.instant u = o.baseTime := by
      rw [instant, Nat.sub_eq_zero_of_le hle, Nat.zero_mul, Nat.zero_div, Nat.add_zero]
    rw [if_pos hle, hi, if_pos hbase]
  rw [if_neg hle]
  dsimp only
  have hq : (u - o.baseUnits) * o.step + (u - o.baseUnits) * o.rem / o.unitRate.num
      = (u - o.baseUnits) * o.scaled / o.unitRate.num := by
    rw [hstep, hrem]
    simpa using acc_div o.scaled o.unitRate.num hpos 0 (u - o.baseUnits)
  have hprod : (u - o.baseUnits) * o.rem < 2 ^ 128 := by
    rw [hrem]
    have := acc_carry_lt o.scaled o.unitRate.num (w := 64) o.unitRate.num_lt
      (Nat.lt_of_le_of_lt (Nat.sub_le u o.baseUnits) hu) hpos
    simpa using this
  have hm : checkedMul 128 (u - o.baseUnits) o.rem = some ((u - o.baseUnits) * o.rem) :=
    checkedMul_eq_some.mpr ⟨hprod, rfl⟩
  have hi : o.instant u = o.baseTime + (u - o.baseUnits) * o.step
      + (u - o.baseUnits) * o.rem / o.unitRate.num := by
    rw [instant, ← hq, Nat.add_assoc]
  have hle : o.baseTime + (u - o.baseUnits) * o.step ≤ o.instant u := by
    rw [hi]
    exact Nat.le_add_right _ _
  cases h1 : checkedMul 128 (u - o.baseUnits) o.step with
  | none =>
    have : ¬ (u - o.baseUnits) * o.step < 2 ^ 128 := fun hlt => by
      rw [checkedMul, if_pos hlt] at h1
      cases h1
    rw [if_neg (by omega)]
  | some whole =>
    obtain ⟨_, rfl⟩ := checkedMul_eq_some.mp h1
    simp only [hm]
    cases h2 : checkedAdd 128 o.baseTime ((u - o.baseUnits) * o.step) with
    | none =>
      have : ¬ o.baseTime + (u - o.baseUnits) * o.step < 2 ^ 128 := fun hlt => by
        rw [checkedAdd, if_pos hlt] at h2
        cases h2
      rw [if_neg (by omega)]
    | some t =>
      obtain ⟨_, rfl⟩ := checkedAdd_eq_some.mp h2
      rw [hi]
      by_cases hf : o.baseTime + (u - o.baseUnits) * o.step
          + (u - o.baseUnits) * o.rem / o.unitRate.num < 2 ^ 128
      · simp only [checkedAdd, if_pos hf]
      · simp only [checkedAdd, if_neg hf]

end Timed

theorem timed_segment {o : Oscillator} (hmul : 0 < o.unitMul) (hmul' : o.unitMul < 2 ^ 64)
    (hfreq : 0 < o.freq.num) (hrate : 0 < o.unitRate.num) (hu : o.units < 2 ^ 64)
    (hbase : o.baseUnits = o.units) (htime : o.baseTime = o.time) (hres : o.residual = 0)
    (hlt : o.time < 2 ^ 128) : o.recomputeConversion.Timed where
  unitMul_pos := hmul
  unitMul_lt := hmul'
  freq_pos := hfreq
  rate_pos := hrate
  units_lt := hu
  base_le := Nat.le_of_eq hbase
  step_eq := rfl
  rem_eq := rfl
  time_eq := by
    change o.time = o.baseTime + (o.units - o.baseUnits) * _ / _
    rw [hbase, Nat.sub_self, Nat.zero_mul, Nat.zero_div, Nat.add_zero, htime]
  residual_eq := by
    change o.residual = (o.units - o.baseUnits) * _ % _
    rw [hbase, Nat.sub_self, Nat.zero_mul, Nat.zero_mod, hres]
  time_lt := hlt

theorem Timed.retune {o o' : Oscillator} (h : o.Timed) (hfreq : 0 < o'.freq.num)
    (he : o' = { o with freq := o'.freq, active := o'.active }) : o'.Timed := by
  rw [he]
  exact { h with freq_pos := hfreq }

theorem Timed.advance {o : Oscillator} (h : o.Timed) {n : Nat} (hlt : o.units + n < 2 ^ 64)
    (hfit : o.instant (o.units + n) < 2 ^ 128) :
    ({ o with
        time := o.instant (o.units + n), residual := o.fraction (o.units + n),
        units := o.units + n } : Oscillator).Timed :=
  { h with
    units_lt := hlt
    base_le := Nat.le_trans h.base_le (Nat.le_add_right _ _)
    time_eq := (instant_congr (o := o) rfl rfl rfl _).1.symm
    residual_eq := (instant_congr (o := o) rfl rfl rfl _).2.symm
    time_lt := hfit }

theorem Timed.restore {o : Oscillator} (h : o.Timed) {u t r : Nat} (hu : u < 2 ^ 64)
    (ht : t = u * o.scaled / o.unitRate.num) (hr : r = u * o.scaled % o.unitRate.num)
    (hfit : t < 2 ^ 128) :
    ({ o with baseUnits := 0, baseTime := 0, units := u, time := t, residual := r } :
      Oscillator).Timed :=
  { h with
    units_lt := hu
    base_le := Nat.zero_le _
    time_eq := by
      rw [ht]
      unfold instant scaled
      simp only [Nat.zero_add, Nat.sub_zero]
    residual_eq := by
      rw [hr]
      unfold fraction scaled
      simp only [Nat.sub_zero]
    time_lt := hfit }

end Oscillator

namespace ClockForest

/-! ## What a recomputation needs of the tables -/

/-- Enough of the links for a recomputation to meet only rated domains. -/
structure Tabled (f : ClockForest) : Prop where
  children_lt : ∀ p c, c ∈ f.children p → c < f.domains.length
  root_lt : ∀ o, o < f.oscillators.length → (f.osc o).root < f.domains.length
  rated : ∀ d, d < f.domains.length → 0 < (f.dom d).mul.toNat ∧ 0 < (f.dom d).div.toNat

/-- Each crystal's timeline goes on from where it was, and a new one's is sound. -/
structure Follows (f g : ClockForest) : Prop where
  length_le : f.oscillators.length ≤ g.oscillators.length
  timed : ∀ o, o < f.oscillators.length → (f.osc o).Timed →
    (g.osc o).Timed ∧ (f.osc o).time ≤ (g.osc o).time
  fresh : ∀ o, f.oscillators.length ≤ o → o < g.oscillators.length → (g.osc o).Timed

theorem Follows.of_length {f g : ClockForest} (hlen : g.oscillators.length = f.oscillators.length)
    (h : ∀ o, o < f.oscillators.length → (f.osc o).Timed →
      (g.osc o).Timed ∧ (f.osc o).time ≤ (g.osc o).time) : Follows f g :=
  ⟨Nat.le_of_eq hlen.symm, h, fun _ hle hlt => absurd (hlen ▸ hlt) (Nat.not_lt.mpr hle)⟩

theorem Follows.refl (f : ClockForest) : Follows f f :=
  Follows.of_length rfl fun _ _ h => ⟨h, Nat.le_refl _⟩

theorem Follows.trans {f g h : ClockForest} (hfg : Follows f g) (hgh : Follows g h) :
    Follows f h := by
  refine ⟨Nat.le_trans hfg.length_le hgh.length_le, ?_, ?_⟩
  · intro o ho ht
    obtain ⟨ht', hle⟩ := hfg.timed o ho ht
    obtain ⟨ht'', hle'⟩ := hgh.timed o (Nat.lt_of_lt_of_le ho hfg.length_le) ht'
    exact ⟨ht'', Nat.le_trans hle hle'⟩
  · intro o hle hlt
    rcases Nat.lt_or_ge o g.oscillators.length with ho | ho
    · exact (hgh.timed o ho (hfg.fresh o hle ho)).1
    · exact hgh.fresh o ho hlt

theorem Follows.of_oscillators {f g : ClockForest} (h : g.oscillators = f.oscillators) :
    Follows f g := by
  refine Follows.of_length (by rw [h]) fun o _ ht => ?_
  have he : g.osc o = f.osc o := by
    unfold osc
    rw [h]
  rw [he]
  exact ⟨ht, Nat.le_refl _⟩

section Tabled

variable {f : ClockForest}

theorem Tabled.modDom (h : Tabled f) (i : DomainId) (g : ClockDomain → ClockDomain)
    (hc : ∀ d c, c ∈ (g d).children → c ∈ d.children ∨ c < f.domains.length)
    (hr : ∀ d : ClockDomain, 0 < d.mul.toNat ∧ 0 < d.div.toNat →
      0 < (g d).mul.toNat ∧ 0 < (g d).div.toNat) : Tabled (f.modDom i g) := by
  have hdom : ∀ d, (f.modDom i g).dom d = f.dom d
      ∨ d < f.domains.length ∧ (f.modDom i g).dom d = g (f.dom d) := by
    intro d
    by_cases hd : i = d
    · subst hd
      by_cases hlt : i < f.domains.length
      · exact Or.inr ⟨hlt, modDom_dom_self f hlt g⟩
      · left
        rw [dom_of_length_le _ (by simpa using Nat.not_lt.mp hlt),
          dom_of_length_le _ (Nat.not_lt.mp hlt)]
    · exact Or.inl (modDom_dom_ne f hd g)
  refine ⟨?_, ?_, ?_⟩
  · intro p c hc'
    rw [modDom_length]
    unfold children at hc'
    rcases hdom p with he | ⟨_, he⟩
    · rw [he] at hc'
      exact h.children_lt p c hc'
    · rw [he] at hc'
      exact (hc _ c hc').elim (h.children_lt p c) fun hlt => hlt
  · intro o ho
    rw [modDom_length]
    exact h.root_lt o ho
  · intro d hd
    rw [modDom_length] at hd
    rcases hdom d with he | ⟨_, he⟩
    · rw [he]
      exact h.rated d hd
    · rw [he]
      exact hr _ (h.rated d hd)

theorem Tabled.modEach : ∀ (l : List (DomainId × (ClockDomain → ClockDomain))) {f : ClockForest},
    Tabled f → (∀ i g, (i, g) ∈ l → ∀ d : ClockDomain, (g d).children = d.children
      ∧ (0 < d.mul.toNat ∧ 0 < d.div.toNat → 0 < (g d).mul.toNat ∧ 0 < (g d).div.toNat)) →
    Tabled (f.modEach l)
  | [], _, h, _ => h
  | (i, g) :: rest, f, h, hl => by
    have hg := hl i g (List.mem_cons_self ..)
    refine Tabled.modEach rest (h.modDom i g ?_ fun d => (hg d).2) fun i' g' hm =>
      hl i' g' (List.mem_cons_of_mem _ hm)
    intro d c hc
    rw [(hg d).1] at hc
    exact Or.inl hc

theorem Tabled.modOsc (h : Tabled f) (i : OscillatorId) (g : Oscillator → Oscillator)
    (hg : ∀ o, (g o).root = o.root) : Tabled (f.modOsc i g) := by
  refine ⟨h.children_lt, ?_, h.rated⟩
  intro o ho
  rw [modOsc_length] at ho
  by_cases he : i = o
  · subst he
    rw [modOsc_osc_self f ho, hg]
    exact h.root_lt i ho
  · rw [modOsc_osc_ne f he]
    exact h.root_lt o ho

theorem Follows.modOsc {i : OscillatorId} {g : Oscillator → Oscillator}
    (hg : i < f.oscillators.length → (f.osc i).Timed →
      (g (f.osc i)).Timed ∧ (f.osc i).time ≤ (g (f.osc i)).time) : Follows f (f.modOsc i g) := by
  refine Follows.of_length (modOsc_length f i g) fun o ho ht => ?_
  by_cases he : i = o
  · subst he
    rw [modOsc_osc_self f ho]
    exact hg ho ht
  · rw [modOsc_osc_ne f he]
    exact ⟨ht, Nat.le_refl _⟩

theorem Tabled.mem_subtree (h : Tabled f) {a d : DomainId} (ha : a < f.domains.length)
    (hd : d ∈ f.subtree a) : d < f.domains.length := by
  rcases mem_bfsLoop _ _ _ hd with hd | ⟨p, hd⟩
  · rw [List.mem_singleton] at hd
    rw [hd]
    exact ha
  · exact h.children_lt p d hd

variable {o : OscillatorId}

theorem recomputeTree_follows {f' : ClockForest} (h : Tabled f) (hrec : f.recomputeTree o = .ok f') :
    Tabled f' ∧ Follows f f' := by
  obtain ⟨ratios, hratios, hrec⟩ := bind_eq_ok hrec
  obtain ⟨a, ha, hrec⟩ := bind_eq_ok hrec
  obtain ⟨ks, hks, hrec⟩ := bind_eq_ok hrec
  obtain ⟨newUnits, hunits, hrec⟩ := bind_eq_ok hrec
  obtain ⟨bases, hbases, hrec⟩ := bind_eq_ok hrec
  obtain ⟨unitRate, hrate, hrec⟩ := bind_eq_ok hrec
  obtain rfl := Except.ok.inj hrec
  constructor
  · refine Tabled.modOsc (Tabled.modEach _ h ?_) o _ fun _ => rfl
    intro i g hm d
    obtain ⟨v, _, he⟩ := List.mem_map.mp hm
    obtain ⟨_, rfl⟩ := Prod.mk.inj he
    exact ⟨rfl, fun hr => hr⟩
  refine (Follows.of_oscillators (modEach_oscillators _ f)).trans (Follows.modOsc ?_)
  intro ho ht
  have ho : o < f.oscillators.length := by
    rw [← modEach_oscillators _ f]
    exact ho
  have ht : (f.osc o).Timed := by
    rw [← modEach_osc _ f o]
    exact ht
  have hpos : ∀ r ∈ ratios, 0 < r.num := by
    intro r hr
    obtain ⟨i, hi⟩ := List.mem_iff_getElem?.mp hr
    refine ratiosLoop_pos (fun d hd => h.rated d ?_) hratios i r hi
    exact h.mem_subtree (h.root_lt o ho) hd
  obtain ⟨_, hapos, halt, _⟩ := lcmLoop_ok _ ha ht.unitMul_pos ht.unitMul_lt hpos
  have hu := checkedMul_eq_some.mp (okOr_eq_ok hunits)
  have hratepos : 0 < unitRate.num := by
    have hq : unitRate.toQ = (f.osc o).freq.toQ * (a : ℚ) := by
      rw [Rational.checkedMul_toQ (okOr_eq_ok hrate), Rational.toQ_integer,
        UInt64.toNat_ofNat_of_lt' halt]
    have hqpos : 0 < unitRate.toQ := by
      rw [hq]
      exact mul_pos (Rational.toQ_pos ht.freq_pos) (Nat.cast_pos.mpr hapos)
    refine Nat.pos_of_ne_zero fun h0 => ?_
    rw [Rational.toQ_eq_zero.mpr h0] at hqpos
    exact absurd hqpos (lt_irrefl _)
  rw [modEach_osc]
  exact ⟨Oscillator.timed_segment hapos halt ht.freq_pos hratepos (hu.2 ▸ hu.1) rfl rfl rfl
    ht.time_lt, Nat.le_refl _⟩

/-! ## What every call does to the timeline -/

/-- `g` is well formed and carries on `f`'s timeline. -/
def Continues (f g : ClockForest) : Prop := Tabled g ∧ Follows f g

section

variable (h : Tabled f)
include h

theorem Continues.refl : Continues f f := ⟨h, Follows.refl f⟩

omit h in
theorem Continues.trans {g k : ClockForest} (hfg : Continues f g) (hgk : Continues g k) :
    Continues f k := ⟨hgk.1, hfg.2.trans hgk.2⟩

theorem commitOr_continues {before : ClockForest} {α : Type} {a : α}
    {out : ClockResult ClockForest} (hb : Continues f before)
    (ho : ∀ g, out = .ok g → Continues before g) : Continues f (commitOr f before a out).1 := by
  cases out with
  | ok g => exact hb.trans (ho g rfl)
  | error e =>
    cases e with
    | err e => exact Continues.refl h
    | panic m => exact hb

theorem Continues.modEach (l : List (DomainId × (ClockDomain → ClockDomain)))
    (hl : ∀ i g, (i, g) ∈ l → ∀ d : ClockDomain, (g d).children = d.children
      ∧ (0 < d.mul.toNat ∧ 0 < d.div.toNat → 0 < (g d).mul.toNat ∧ 0 < (g d).div.toNat)) :
    Continues f (f.modEach l) :=
  ⟨h.modEach l hl, Follows.of_oscillators (modEach_oscillators l f)⟩

theorem rebaseSubtree_continues (id : DomainId) : Continues f (f.rebaseSubtree id) := by
  refine Continues.modEach h _ ?_
  intro i g hm d
  obtain ⟨v, _, he⟩ := List.mem_map.mp hm
  obtain ⟨_, rfl⟩ := Prod.mk.inj he
  exact ⟨rfl, fun hr => hr⟩

omit h in
theorem rebaseRequests_continues : ∀ (changes : List RateRequest) {f : ClockForest}, Tabled f →
    Continues f (rebaseRequests changes f)
  | [], _, h => Continues.refl h
  | r :: rest, _, h =>
    (rebaseSubtree_continues h r.domain).trans
      (rebaseRequests_continues rest (rebaseSubtree_continues h r.domain).1)

omit h in
theorem recomputeTrees_continues : ∀ (trees : List OscillatorId) {f f' : ClockForest},
    Tabled f → recomputeTrees trees f = .ok f' → Continues f f'
  | [], f, f', h, hrec => by
    rw [recomputeTrees] at hrec
    obtain rfl := Except.ok.inj hrec
    exact Continues.refl h
  | o :: rest, f, f', h, hrec => by
    rw [recomputeTrees] at hrec
    split at hrec
    · exact absurd hrec (by simp)
    · rename_i g hg
      have hstep : Continues f g := recomputeTree_follows h hg
      exact hstep.trans (recomputeTrees_continues rest hstep.1 hrec)

theorem setRatings_continues (changes : List RateRequest) :
    Continues f (f.setRatings changes).1 := by
  unfold setRatings
  split
  · exact Continues.refl h
  split
  · exact Continues.refl h
  rename_i hcheck
  have hz := checkRequests_ok changes hcheck
  have h₁ := rebaseRequests_continues changes h
  have h₂ : Continues f (applyRequests changes (rebaseRequests changes f)) := by
    refine h₁.trans (Continues.modEach h₁.1 _ ?_)
    intro i g hm d
    obtain ⟨r, hr, he⟩ := List.mem_map.mp hm
    obtain ⟨_, rfl⟩ := Prod.mk.inj he
    exact ⟨rfl, fun _ => ⟨Word.toNat_pos (hz r hr).2.1, Word.toNat_pos (hz r hr).2.2⟩⟩
  exact commitOr_continues h h₂ fun g hg => recomputeTrees_continues _ h₂.1 hg

theorem setRating_continues (id : DomainId) (mul div : UInt64) :
    Continues f (f.setRating id mul div).1 := by
  unfold setRating
  split
  · exact Continues.refl h
  split
  · exact Continues.refl h
  split
  · exact Continues.refl h
  · exact setRatings_continues h _

theorem setFrequency_continues (o : OscillatorId) (freq : Rational) :
    Continues f (f.setFrequency o freq).1 := by
  unfold setFrequency
  split
  · exact Continues.refl h
  split
  · exact Continues.refl h
  rename_i hz
  have hpos : 0 < freq.num := Nat.pos_of_ne_zero fun h0 => hz ((freq.isZero_iff).mpr h0)
  have h₁ : Continues f (f.modOsc o fun o => { o with freq := freq }) :=
    ⟨h.modOsc o _ fun _ => rfl, Follows.modOsc fun _ ht => ⟨ht.retune hpos rfl, Nat.le_refl _⟩⟩
  exact commitOr_continues h h₁ fun g hg => recomputeTree_follows h₁.1 hg

theorem unlink_continues (id : DomainId) : Continues f (f.unlink id) := by
  unfold unlink
  split
  · refine ⟨h.modDom _ _ ?_ fun _ hr => hr, Follows.of_oscillators rfl⟩
    intro d c hc
    exact Or.inl (List.mem_of_mem_filter hc)
  · exact ⟨h.modOsc _ _ fun _ => rfl,
      Follows.modOsc fun _ ht => ⟨ht.retune ht.freq_pos rfl, Nat.le_refl _⟩⟩

theorem moved_continues {id np : DomainId} (hid : id < f.domains.length)
    {mul div : UInt64} (hm : mul ≠ 0) (hv : div ≠ 0) : Continues f (f.moved id np mul div) := by
  have h₁ := rebaseSubtree_continues h id
  have h₂ := h₁.trans (unlink_continues h₁.1 id)
  have hlen : ((f.rebaseSubtree id).unlink id).domains.length = f.domains.length := by
    rw [unlink_length]
    exact modEach_length _ f
  have h₃ : Continues f (((f.rebaseSubtree id).unlink id).relink id np mul div) := by
    have hid' := h₂.1.modDom id (fun d => { d with parent := some np, mul := mul, div := div })
      (fun d c hc => Or.inl hc) fun _ _ => ⟨Word.toNat_pos hm, Word.toNat_pos hv⟩
    refine ⟨hid'.modDom np _ ?_ fun _ hr => hr, h₂.2.trans (Follows.of_oscillators rfl)⟩
    intro d c hc
    rcases List.mem_append.mp hc with hc | hc
    · exact Or.inl hc
    · rw [List.mem_singleton] at hc
      subst hc
      rw [modDom_length, hlen]
      exact Or.inr hid
  unfold moved
  dsimp only
  split
  · refine h₃.trans (Continues.modEach h₃.1 _ ?_)
    intro i g hmem d
    obtain ⟨v, _, he⟩ := List.mem_map.mp hmem
    obtain ⟨_, rfl⟩ := Prod.mk.inj he
    exact ⟨rfl, fun hr => hr⟩
  · exact h₃

theorem reparent_continues (id np : DomainId) (mul div : UInt64) :
    Continues f (f.reparent id np mul div).1 := by
  unfold reparent
  split
  · exact Continues.refl h
  rename_i hcheck
  split
  · exact Continues.refl h
  split
  · exact Continues.refl h
  rename_i hz
  split
  · exact Continues.refl h
  obtain ⟨hm, hv⟩ := not_or.mp hz
  have h₁ : Continues f (f.moved id np mul div) :=
    moved_continues h (checkDomain_ok hcheck) hm hv
  refine commitOr_continues h h₁ fun g hg => ?_
  split at hg
  · cases hg
  rename_i f' hf'
  have h₂ : Continues (f.moved id np mul div) f' := recomputeTree_follows h₁.1 hf'
  split at hg
  · exact h₂.trans (recomputeTree_follows h₂.1 hg)
  · obtain rfl := Except.ok.inj hg
    exact h₂

theorem lockOscillator_continues (o : OscillatorId) (parent : DomainId)
    (mul div : UInt64) : Continues f (f.lockOscillator o parent mul div).1 := by
  unfold lockOscillator
  split
  · exact Continues.refl h
  · exact reparent_continues h _ _ _ _

theorem Tabled.push {d₀ : ClockDomain} {os : List Oscillator}
    (hnone : d₀.children = []) (hrated : 0 < d₀.mul.toNat ∧ 0 < d₀.div.toNat)
    (hroot : ∀ o, o < os.length →
      ((⟨f.domains ++ [d₀], os⟩ : ClockForest).osc o).root < f.domains.length + 1) :
    Tabled ⟨f.domains ++ [d₀], os⟩ := by
  have hlen : (f.domains ++ [d₀]).length = f.domains.length + 1 := List.length_append
  refine ⟨fun p c hc => ?_, fun o ho => hlen ▸ hroot o ho, fun d hd => ?_⟩
  · rw [hlen]
    unfold children at hc
    rcases Nat.lt_trichotomy p f.domains.length with hp | rfl | hp
    · rw [push_dom _ _ hp] at hc
      exact Nat.lt_succ_of_lt (h.children_lt p c hc)
    · rw [push_dom_self, hnone] at hc
      exact absurd hc List.not_mem_nil
    · rw [dom_of_length_le _ (by rw [hlen]; exact hp)] at hc
      exact absurd hc List.not_mem_nil
  · rcases lt_length_push hd with hd | rfl
    · rw [push_dom _ _ hd]
      exact h.rated d hd
    · rw [push_dom_self]
      exact hrated

theorem addOscillator_continues (name : String) (freq : Rational) :
    Continues f (f.addOscillator name freq).1 := by
  unfold addOscillator
  split
  · exact Continues.refl h
  rename_i hz
  have hpos : 0 < freq.num := Nat.pos_of_ne_zero fun h0 => hz ((freq.isZero_iff).mpr h0)
  extract_lets root d₀ o₀
  set g : ClockForest := ⟨f.domains ++ [d₀], f.oscillators ++ [o₀.recomputeConversion]⟩ with hg
  have hosc : ∀ o, o < f.oscillators.length → g.osc o = f.osc o := fun o ho => push_osc _ _ ho
  have hosc₀ : g.osc f.oscillators.length = o₀.recomputeConversion := push_osc_self _ _
  have holen : ∀ o, o < g.oscillators.length →
      o < f.oscillators.length ∨ o = f.oscillators.length := fun o ho => lt_length_push ho
  refine ⟨h.push rfl ⟨Nat.one_pos, Nat.one_pos⟩ fun o ho => ?_, ⟨by simp [hg], ?_, ?_⟩⟩
  · rcases holen o ho with ho | rfl
    · exact Nat.lt_succ_of_lt ((hosc o ho).symm ▸ h.root_lt o ho)
    · exact Nat.lt_succ_of_le (Nat.le_of_eq (congrArg Oscillator.root hosc₀))
  · intro o ho ht
    rw [hosc o ho]
    exact ⟨ht, Nat.le_refl _⟩
  · intro o hle ho
    rcases holen o ho with ho | rfl
    · exact absurd ho (Nat.not_lt.mpr hle)
    · rw [hosc₀]
      exact Oscillator.timed_segment Nat.one_pos (Nat.one_lt_two_pow (by decide)) hpos hpos
        (Nat.two_pow_pos 64) rfl rfl rfl (Nat.two_pow_pos 128)

theorem addDomain_continues (name : String) (parent : DomainId)
    (mul div : UInt64) : Continues f (f.addDomain name parent mul div).1 := by
  unfold addDomain
  split
  · exact Continues.refl h
  split
  · exact Continues.refl h
  rename_i hz
  obtain ⟨hm, hv⟩ := not_or.mp hz
  have h₁ : Continues f (f.linkDomain name parent mul div) := by
    have hpush : Tabled ⟨f.domains ++ [f.freshDomain name parent mul div], f.oscillators⟩ :=
      h.push rfl ⟨Word.toNat_pos hm, Word.toNat_pos hv⟩ fun o ho =>
        Nat.lt_succ_of_lt (h.root_lt o ho)
    refine ⟨hpush.modDom parent _ ?_ fun _ hr => hr, Follows.of_oscillators rfl⟩
    intro d c hc
    rcases List.mem_append.mp hc with hc | hc
    · exact Or.inl hc
    · rw [List.mem_singleton] at hc
      subst hc
      exact Or.inr (by simp)
  exact commitOr_continues h h₁ fun g hg => recomputeTree_follows h₁.1 hg

theorem setGated_continues (id : DomainId) (gated : Bool) :
    Continues f (f.setGated id gated).1 := by
  unfold setGated
  split
  · exact Continues.refl h
  split
  · exact Continues.refl h
  · exact ⟨h.modDom id _ (fun _ _ hc => Or.inl hc) fun _ hr => hr, Follows.of_oscillators rfl⟩

theorem advanceAlone_continues (id : DomainId) (n : Nat) : Continues f (f.advanceAlone id n).1 := by
  unfold advanceAlone
  split
  · exact Continues.refl h
  split
  · exact Continues.refl h
  dsimp only
  split
  · exact Continues.refl h
  · exact ⟨h.modDom id _ (fun _ _ hc => Or.inl hc) fun _ hr => hr, Follows.of_oscillators rfl⟩

end

def advanced (o : Oscillator) (n : Nat) : Oscillator :=
  { o with
    time := o.instant (o.units + n), residual := o.fraction (o.units + n), units := o.units + n }

theorem advanceUnits_ok {n : Nat} {g : ClockForest} (ho : o < f.oscillators.length)
    (ht : (f.osc o).Timed) (hn : n < 2 ^ 64) :
    f.advanceUnits o n = (g, .ok ()) ↔ (f.osc o).units + n < 2 ^ 64
      ∧ (f.osc o).instant ((f.osc o).units + n) < 2 ^ 128
      ∧ g = f.modOsc o fun _ => advanced (f.osc o) n := by
  have hcheck : f.checkOsc o = .ok () := by
    unfold checkOsc
    rw [if_neg (Nat.not_le.mpr ho)]
  have hacc := ht.accumulate_eq hn
  unfold advanceUnits
  simp only [hcheck]
  by_cases hu : (f.osc o).units + n < 2 ^ 64
  · have hadd : checkedAdd 64 (f.osc o).units n = some ((f.osc o).units + n) :=
      checkedAdd_eq_some.mpr ⟨hu, rfl⟩
    by_cases hi : (f.osc o).instant ((f.osc o).units + n) < 2 ^ 128
    · rw [if_pos hi] at hacc
      simp only [hadd, hacc]
      exact ⟨fun h => ⟨hu, hi, (Prod.mk.inj h).1.symm⟩, fun h => by rw [h.2.2]; rfl⟩
    · rw [if_neg hi] at hacc
      simp only [hadd, hacc]
      exact ⟨fun h => absurd (Prod.mk.inj h).2 (by simp), fun h => absurd h.2.1 hi⟩
  · have hadd : checkedAdd 64 (f.osc o).units n = none := by
      unfold checkedAdd
      rw [if_neg hu]
    simp only [hadd]
    exact ⟨fun h => absurd (Prod.mk.inj h).2 (by simp), fun h => absurd h.1 hu⟩

theorem advanceUnits_error {n : Nat} {g : ClockForest} {e : Fault}
    (h : f.advanceUnits o n = (g, .error e)) : g = f := by
  unfold advanceUnits at h
  split at h
  · exact (Prod.mk.inj h).1.symm
  split at h
  · exact (Prod.mk.inj h).1.symm
  split at h
  · exact (Prod.mk.inj h).1.symm
  · exact absurd (Prod.mk.inj h).2 (by simp)

theorem advanceUnits_continues (h : Tabled f) (o : OscillatorId) {n : Nat} (hn : n < 2 ^ 64) :
    Continues f (f.advanceUnits o n).1 := by
  have hcases : ∀ g r, f.advanceUnits o n = (g, r) → Continues f g := by
    intro g r hr
    cases r with
    | error e => rw [advanceUnits_error hr]; exact Continues.refl h
    | ok _ =>
      have hr' := hr
      unfold advanceUnits at hr'
      split at hr'
      · exact absurd (Prod.mk.inj hr').2 (by simp)
      rename_i hcheck
      have ho := checkOsc_ok hcheck
      split at hr'
      · exact absurd (Prod.mk.inj hr').2 (by simp)
      split at hr'
      · exact absurd (Prod.mk.inj hr').2 (by simp)
      rename_i o' hacc
      obtain ⟨t, r, rfl⟩ := accumulate_ok hacc
      obtain ⟨rfl, _⟩ := Prod.mk.inj hr'
      refine ⟨⟨h.children_lt, ?_, h.rated⟩, Follows.of_length (modOsc_length f o _) ?_⟩
      · intro o' ho'
        rw [modOsc_length] at ho'
        by_cases he : o = o'
        · subst he
          rw [modOsc_osc_self f ho']
          exact h.root_lt o ho'
        · rw [modOsc_osc_ne f he]
          exact h.root_lt o' ho'
      · intro o' ho' ht
        by_cases he : o = o'
        · subst he
          obtain ⟨hu, hi, hg⟩ := (advanceUnits_ok ho ht hn).mp hr
          rw [hg, modOsc_osc_self f ho]
          refine ⟨ht.advance hu hi, ?_⟩
          rw [ht.time_eq]
          exact Oscillator.instant_mono (Nat.le_add_right _ _)
        · rw [modOsc_osc_ne f he]
          exact ⟨ht, Nat.le_refl _⟩
  exact hcases _ _ rfl

theorem advanceDomain_continues (h : Tabled f) (id : DomainId) (n : Nat) :
    Continues f (f.advanceDomain id n).1 := by
  unfold advanceDomain
  split
  · exact Continues.refl h
  split
  · exact Continues.refl h
  split
  · exact Continues.refl h
  rename_i delta hdelta
  obtain ⟨hlt, rfl⟩ := checkedMul_eq_some.mp hdelta
  exact advanceUnits_continues h _ hlt

theorem advanceTreeTo_continues (h : Tabled f) (o : OscillatorId) {n : Nat} (hn : n < 2 ^ 64) :
    Continues f (f.advanceTreeTo o n).1 := by
  unfold advanceTreeTo
  split
  · exact Continues.refl h
  split
  · exact advanceUnits_continues h _ (Nat.lt_of_le_of_lt (Nat.sub_le _ _) hn)
  · exact Continues.refl h

theorem unitsAt_lt {o : Oscillator} (ht : o.Timed) {t u : Nat} (h : o.unitsAt t = .ok u) :
    u < 2 ^ 64 := by
  unfold Oscillator.unitsAt at h
  split at h
  · rw [← Except.ok.inj h]
    exact Nat.lt_of_le_of_lt ht.base_le ht.units_lt
  dsimp only at h
  split at h
  · cases h
  split at h
  · cases h
  split at h
  · cases h
  rename_i v hv
  rw [← Except.ok.inj h, (checkedAdd_eq_some.mp hv).2]
  exact (checkedAdd_eq_some.mp hv).1

theorem advanceToGlobal_continues (h : Tabled f) (ht : o < f.oscillators.length → (f.osc o).Timed)
    (t : Nat) : Continues f (f.advanceToGlobal o t).1 := by
  unfold advanceToGlobal
  split
  · exact Continues.refl h
  rename_i hcheck
  split
  · exact Continues.refl h
  rename_i target htarget
  split
  · exact Continues.refl h
  have hlt := unitsAt_lt (ht (checkOsc_ok hcheck)) htarget
  have hadv := advanceUnits_continues h o (n := target - (f.osc o).units)
    (Nat.lt_of_le_of_lt (Nat.sub_le _ _) hlt)
  dsimp only
  split
  · rename_i f' e he
    rw [he] at hadv
    exact hadv
  · rename_i f' he
    rw [he] at hadv
    exact hadv

/-! ## Restoring a position -/

theorem restoreTicks_continues (h : Tabled f) (id : DomainId) (n : Nat) :
    Continues f (f.restoreTicks id n).1 := by
  unfold restoreTicks
  split
  · exact Continues.refl h
  · exact ⟨h.modDom id _ (fun _ _ hc => Or.inl hc) fun _ hr => hr, Follows.of_oscillators rfl⟩

theorem restoreLead_continues (h : Tabled f) (id : DomainId) (n : Nat) :
    Continues f (f.restoreLead id n).1 := by
  unfold restoreLead
  split
  · exact Continues.refl h
  split
  · exact Continues.refl h
  · exact ⟨h.modDom id _ (fun _ _ hc => Or.inl hc) fun _ hr => hr, Follows.of_oscillators rfl⟩

/-- The instant of a restored position fits 128 bits. -/
def RestoreFits (f : ClockForest) (o : OscillatorId) (units : Nat) : Prop :=
  units * (f.osc o).scaled / (f.osc o).unitRate.num < 2 ^ 128

theorem restoreUnitPosition_timed {units : Nat} (h : Tabled f)
    (ht : ∀ o, o < f.oscillators.length → (f.osc o).Timed) (hu : units < 2 ^ 64)
    (hfit : o < f.oscillators.length → f.RestoreFits o units) :
    Tabled (f.restoreUnitPosition o units).1
      ∧ ∀ o', o' < (f.restoreUnitPosition o units).1.oscillators.length →
        ((f.restoreUnitPosition o units).1.osc o').Timed := by
  unfold restoreUnitPosition
  split
  · exact ⟨h, ht⟩
  rename_i hcheck
  have ho := checkOsc_ok hcheck
  have hto := ht o ho
  set r : Oscillator := { f.osc o with baseUnits := 0, baseTime := 0, units := units } with hr
  have hinst : r.instant units = units * (f.osc o).scaled / (f.osc o).unitRate.num := by
    unfold Oscillator.instant Oscillator.scaled
    rw [show r.baseTime = 0 from rfl, show r.baseUnits = 0 from rfl,
      show r.unitRate = (f.osc o).unitRate from rfl, Nat.zero_add, Nat.sub_zero]
  have hfrac : units * r.rem % r.unitRate.num
      = units * (f.osc o).scaled % (f.osc o).unitRate.num := by
    rw [show r.rem = (f.osc o).rem from rfl, show r.unitRate = (f.osc o).unitRate from rfl,
      hto.rem_eq, Nat.mul_mod_mod]
  have htime : r.timeForUnits units = .ok (r.instant units) := by
    rw [Oscillator.timeForUnits_eq (o := r) hto.step_eq hto.rem_eq hto.rate_pos hu
      (Nat.two_pow_pos 128), if_pos (by rw [hinst]; exact hfit ho)]
  have hprod : checkedMul 128 units r.rem = some (units * r.rem) := by
    refine checkedMul_eq_some.mpr ⟨?_, rfl⟩
    exact (hto.carry_lt hu).1
  simp only [htime, hprod]
  have htab : Tabled ({ f with domains := f.domains.map fun d =>
      if d.root = o then { d with own := 0 } else d } : ClockForest) := by
    have hdom : ∀ d, ({ f with domains := f.domains.map fun d =>
        if d.root = o then { d with own := 0 } else d } : ClockForest).dom d
          = (if (f.dom d).root = o then { f.dom d with own := 0 } else f.dom d)
        ∨ f.domains.length ≤ d := by
      intro d
      rcases Nat.lt_or_ge d f.domains.length with hd | hd
      · exact Or.inl (map_dom _ hd)
      · exact Or.inr hd
    refine ⟨?_, ?_, ?_⟩
    · intro p c hc
      rw [List.length_map]
      unfold children at hc
      rcases hdom p with he | hle
      · rw [he] at hc
        split at hc
        · exact h.children_lt p c hc
        · exact h.children_lt p c hc
      · rw [dom_of_length_le _ (by simpa using hle)] at hc
        exact absurd hc (by simp [default, instInhabitedClockDomain.default])
    · intro o' ho'
      rw [List.length_map]
      exact h.root_lt o' ho'
    · intro d hd
      rw [List.length_map] at hd
      rw [(hdom d).resolve_right (Nat.not_le.mpr hd)]
      split
      · exact h.rated d hd
      · exact h.rated d hd
  refine ⟨⟨htab.children_lt, ?_, htab.rated⟩, ?_⟩
  · intro o' ho'
    rw [modOsc_length] at ho'
    by_cases he : o = o'
    · subst he
      rw [modOsc_osc_self _ ho']
      exact htab.root_lt o ho'
    · rw [modOsc_osc_ne _ he]
      exact htab.root_lt o' ho'
  · intro o' ho'
    rw [modOsc_length] at ho'
    by_cases he : o = o'
    · subst he
      rw [modOsc_osc_self _ ho']
      exact hto.restore hu hinst hfrac (by rw [hinst]; exact hfit ho)
    · rw [modOsc_osc_ne _ he]
      exact ht o' ho'

end Tabled

end ClockForest

/-! ## Runs -/

namespace Call

open ClockForest

/-- Whatever position the call restores, its instant fits. -/
def RestoresFit (f : ClockForest) (c : Call) : Prop :=
  ∀ o u, c = restoreUnitPosition o u → o < f.oscillators.length → f.RestoreFits o u.toNat

theorem call_continues {f : ClockForest} (h : Tabled f)
    (ht : ∀ o, o < f.oscillators.length → (f.osc o).Timed) {c : Call} (hc : ¬ c.IsRestore) :
    Continues f (c.apply f).1 := by
  cases c with
  | addOscillator name freq => exact addOscillator_continues h name freq
  | addDomain name parent mul div => exact addDomain_continues h name parent mul div
  | setRating id mul div => exact setRating_continues h id mul div
  | setRatings changes => exact setRatings_continues h changes
  | setFrequency o freq => exact setFrequency_continues h o freq
  | reparent id np mul div => exact reparent_continues h id np mul div
  | lockOscillator o parent mul div => exact lockOscillator_continues h o parent mul div
  | setGated id gated => exact setGated_continues h id gated
  | advanceDomain id n => exact advanceDomain_continues h id _
  | advanceAlone id n => exact advanceAlone_continues h id _
  | advanceTreeTo o n => exact advanceTreeTo_continues h o n.toNat_lt
  | advanceUnits o n => exact advanceUnits_continues h o n.toNat_lt
  | advanceToGlobal o t => exact advanceToGlobal_continues h (ht o) _
  | restoreUnitPosition | restoreTicks | restoreLead => exact absurd trivial hc

theorem call_timed {f : ClockForest} (h : Tabled f)
    (ht : ∀ o, o < f.oscillators.length → (f.osc o).Timed) {c : Call} (hfit : c.RestoresFit f) :
    Tabled (c.apply f).1
      ∧ ∀ o, o < (c.apply f).1.oscillators.length → ((c.apply f).1.osc o).Timed := by
  have hgo : Continues f (c.apply f).1 → Tabled (c.apply f).1
      ∧ ∀ o, o < (c.apply f).1.oscillators.length → ((c.apply f).1.osc o).Timed := by
    intro hk
    refine ⟨hk.1, fun o ho => ?_⟩
    rcases Nat.lt_or_ge o f.oscillators.length with hlt | hge
    · exact (hk.2.timed o hlt (ht o hlt)).1
    · exact hk.2.fresh o hge ho
  by_cases hc : c.IsRestore
  · cases c with
    | restoreUnitPosition o u =>
      exact restoreUnitPosition_timed h ht u.toNat_lt fun ho => hfit o u rfl ho
    | restoreTicks id n => exact hgo (restoreTicks_continues h id _)
    | restoreLead id n => exact hgo (restoreLead_continues h id _)
    | addOscillator | addDomain | setRating | setRatings | setFrequency | reparent
    | lockOscillator | setGated | advanceDomain | advanceAlone | advanceTreeTo | advanceUnits
    | advanceToGlobal => exact absurd hc (by simp [IsRestore])
  · exact hgo (call_continues h ht hc)

end Call

theorem timed_reachable {f : ClockForest} (h : Reaches (fun f c => c.RestoresFit f) f) :
    f.Tabled ∧ ∀ o, o < f.oscillators.length → (f.osc o).Timed := by
  induction h with
  | init =>
    refine ⟨⟨fun p c hc => ?_, fun o ho => absurd ho (Nat.not_lt_zero _),
      fun d hd => absurd hd (Nat.not_lt_zero _)⟩, fun o ho => absurd ho (Nat.not_lt_zero _)⟩
    exact absurd hc (by simp [ClockForest.children, ClockForest.dom, ClockForest.new, default,
      instInhabitedClockDomain.default])
  | tail c _ hc ih => exact Call.call_timed ih.1 ih.2 hc

/-! ## Splitting an advance -/

namespace ClockForest

def advanceEach (f : ClockForest) (o : OscillatorId) :
    List UInt64 → ClockForest × ClockResult Unit
  | [] => (f, .ok ())
  | n :: rest =>
    match f.advanceUnits o n.toNat with
    | (g, .ok ()) => g.advanceEach o rest
    | (g, .error e) => (g, .error e)

section Split

variable {f : ClockForest} {o : OscillatorId}

theorem modOsc_modOsc (a b : Oscillator) :
    (f.modOsc o fun _ => a).modOsc o (fun _ => b) = f.modOsc o fun _ => b := by
  unfold modOsc
  congr 1
  refine List.ext_getElem? fun i => ?_
  simp only [List.getElem?_modify]
  cases f.oscillators[i]? with
  | none => rfl
  | some x =>
    by_cases hi : o = i
    · simp [hi]
    · simp [hi]

theorem modOsc_self (ho : o < f.oscillators.length) : (f.modOsc o fun _ => f.osc o) = f := by
  unfold modOsc
  have hl : f.oscillators.modify o (fun _ => f.osc o) = f.oscillators := by
    refine List.ext_getElem? fun i => ?_
    rw [List.getElem?_modify]
    by_cases hi : o = i
    · subst hi
      simp [osc, List.getD_eq_getElem?_getD, List.getElem?_eq_getElem ho]
    · cases f.oscillators[i]? with
      | none => rfl
      | some x => simp [hi]
  rw [hl]

theorem advanced_zero (ht : (f.osc o).Timed) : advanced (f.osc o) 0 = f.osc o := by
  unfold advanced
  rw [Nat.add_zero, ← ht.time_eq, ← ht.residual_eq]

theorem advanced_advanced (x : Oscillator) (m n : Nat) :
    advanced (advanced x m) n = advanced x (m + n) := by
  have hc : (advanced x m).instant (x.units + m + n) = x.instant (x.units + m + n)
      ∧ (advanced x m).fraction (x.units + m + n) = x.fraction (x.units + m + n) :=
    Oscillator.instant_congr rfl rfl rfl _
  have hu : (advanced x m).units = x.units + m := rfl
  unfold advanced at hc hu ⊢
  rw [hc.1, hc.2, Nat.add_assoc]

theorem advanceEach_ok : ∀ (ns : List UInt64) {f g : ClockForest}, o < f.oscillators.length →
    (f.osc o).Timed → (f.advanceEach o ns = (g, .ok ()) ↔
      (f.osc o).units + (ns.map UInt64.toNat).sum < 2 ^ 64
      ∧ (f.osc o).instant ((f.osc o).units + (ns.map UInt64.toNat).sum) < 2 ^ 128
      ∧ g = f.modOsc o fun _ => advanced (f.osc o) (ns.map UInt64.toNat).sum)
  | [], f, g, ho, ht => by
    rw [advanceEach, List.map_nil, List.sum_nil, Nat.add_zero, advanced_zero ht,
      modOsc_self ho]
    constructor
    · intro h
      exact ⟨ht.units_lt, ht.time_eq ▸ ht.time_lt, (Prod.mk.inj h).1.symm⟩
    · intro h
      rw [h.2.2]
  | n :: rest, f, g, ho, ht => by
    rw [List.map_cons, List.sum_cons]
    set s := (rest.map UInt64.toNat).sum with hs
    rw [advanceEach]
    -- what the first chunk leaves, when it gets through
    have hstep : ∀ g', f.advanceUnits o n.toNat = (g', .ok ()) →
        (g'.advanceEach o rest = (g, .ok ()) ↔ (f.osc o).units + (n.toNat + s) < 2 ^ 64
          ∧ (f.osc o).instant ((f.osc o).units + (n.toNat + s)) < 2 ^ 128
          ∧ g = f.modOsc o fun _ => advanced (f.osc o) (n.toNat + s)) := by
      intro g' hg'
      obtain ⟨hu, hi, rfl⟩ := (advanceUnits_ok ho ht n.toNat_lt).mp hg'
      have hself : (f.modOsc o fun _ => advanced (f.osc o) n.toNat).osc o
          = advanced (f.osc o) n.toNat := modOsc_osc_self f ho _
      rw [advanceEach_ok rest (by rw [modOsc_length]; exact ho)
        (by rw [hself]; exact ht.advance hu hi), hself, advanced_advanced, modOsc_modOsc,
        (show (advanced (f.osc o) n.toNat).instant _ = (f.osc o).instant _ from
          (Oscillator.instant_congr rfl rfl rfl _).1),
        show (advanced (f.osc o) n.toNat).units = (f.osc o).units + n.toNat from rfl,
        Nat.add_assoc]
    cases hr : f.advanceUnits o n.toNat with
    | mk g' r =>
      cases r with
      | ok _ => exact hstep g' hr
      | error e =>
        refine ⟨fun h => absurd (Prod.mk.inj h).2 (by simp), fun h => ?_⟩
        have hi : (f.osc o).instant ((f.osc o).units + n.toNat) < 2 ^ 128 :=
          Nat.lt_of_le_of_lt (Oscillator.instant_mono (by omega)) h.2.1
        have hok := (advanceUnits_ok ho ht n.toNat_lt).mpr ⟨by omega, hi, rfl⟩
        rw [hr] at hok
        exact absurd (Prod.mk.inj hok).2 (by simp)

end Split

/-- What a crystal's timeline is, and how it moves. -/
structure ExactTimeline (f : ClockForest) (o : OscillatorId) : Prop where
  /-- The accumulated instant is the closed form's, asked from scratch. -/
  closed : ∃ t, f.globalTime o = .ok t
    ∧ f.globalTimeOfUnits o (f.osc o).units = .ok t
    ∧ f.unitPosition o = .ok (f.osc o).units
    ∧ t = (f.osc o).baseTime + ((f.osc o).units - (f.osc o).baseUnits)
      * ((f.osc o).unitRate.den * 2 ^ 64) / (f.osc o).unitRate.num
  residual_lt : (f.osc o).residual < (f.osc o).unitRate.num
  /-- The true elapsed time of the segment is never a whole timeline unit away. -/
  error_lt : ((f.osc o).baseUnits ≤ (f.osc o).units)
    ∧ (((f.osc o).time - (f.osc o).baseTime : Nat) : ℚ)
      ≤ (((f.osc o).units - (f.osc o).baseUnits : Nat) : ℚ)
        * ((f.osc o).unitRate.den * 2 ^ 64) / (f.osc o).unitRate.num
    ∧ (((f.osc o).units - (f.osc o).baseUnits : Nat) : ℚ)
        * ((f.osc o).unitRate.den * 2 ^ 64) / (f.osc o).unitRate.num
      < (((f.osc o).time - (f.osc o).baseTime : Nat) : ℚ) + 1
  /-- Chunks reach what the whole reaches. -/
  split : ∀ (ns : List UInt64) (n : UInt64) (g : ClockForest),
    n.toNat = (ns.map UInt64.toNat).sum →
    (f.advanceEach o ns = (g, .ok ()) ↔ f.advanceUnits o n.toNat = (g, .ok ()))
  /-- Time does not go back, whatever is asked of the forest short of a restore. -/
  forward : ∀ c : Call, ¬ c.IsRestore → ∀ t, f.globalTime o = .ok t →
    ∃ t', (c.apply f).1.globalTime o = .ok t' ∧ t ≤ t'
  /-- The carries always fit, in the accumulator and in the closed form. -/
  carries : ∀ n : UInt64, n.toNat * (f.osc o).rem < 2 ^ 128
    ∧ (f.osc o).residual + n.toNat * (f.osc o).rem < 2 ^ 128
    ∧ (n.toNat - (f.osc o).baseUnits) * (f.osc o).rem < 2 ^ 128
  /-- What does not fit is the instant, and then the refusal is the reported overflow. -/
  reported : ∀ n : UInt64,
    ((f.osc o).accumulate n.toNat = .error ((f.osc o).overflow "global timeline")
      ↔ 2 ^ 128 ≤ (f.osc o).instant ((f.osc o).units + n.toNat))
    ∧ ((f.osc o).timeForUnits n.toNat = .error ((f.osc o).overflow "global timeline")
      ↔ 2 ^ 128 ≤ (f.osc o).instant n.toNat)

theorem globalTime_eq {f : ClockForest} {o : OscillatorId} (ho : o < f.oscillators.length) :
    f.globalTime o = .ok (f.osc o).time := by
  unfold globalTime checkOsc
  rw [if_neg (Nat.not_le.mpr ho)]

theorem div_within_one (a : Nat) {m : Nat} (hm : 0 < m) :
    ((a / m : Nat) : ℚ) ≤ (a : ℚ) / (m : ℚ) ∧ (a : ℚ) / (m : ℚ) < ((a / m : Nat) : ℚ) + 1 := by
  have hmq : (0 : ℚ) < (m : ℚ) := Nat.cast_pos.mpr hm
  refine ⟨Nat.cast_div_le, ?_⟩
  rw [div_lt_iff₀ hmq]
  have hlt : a < (a / m + 1) * m := by
    have h1 := Nat.div_add_mod a m
    have h2 := Nat.mod_lt a hm
    rw [Nat.add_mul, Nat.one_mul, Nat.mul_comm]
    omega
  exact_mod_cast hlt

end ClockForest

/--
**Cross-tree time does not accumulate error.** In a run that restores no position
whose instant does not fit the timeline, whatever else it does and however its calls
end, every crystal's time is the exact floor of its segment.
-/
theorem timeline_reachable {f : ClockForest} (h : Reaches (fun f c => c.RestoresFit f) f) :
    ∀ o, o < f.oscillators.length → f.ExactTimeline o := by
  intro o ho
  obtain ⟨htab, hall⟩ := timed_reachable h
  have ht := hall o ho
  have hcheck : f.checkOsc o = .ok () := by
    unfold ClockForest.checkOsc
    rw [if_neg (Nat.not_le.mpr ho)]
  have hclosed := fun {u : Nat} (hu : u < 2 ^ 64) => Oscillator.timeForUnits_eq (o := f.osc o)
    ht.step_eq ht.rem_eq ht.rate_pos hu (Nat.lt_of_le_of_lt ht.baseTime_le ht.time_lt)
  have helapsed : (f.osc o).time - (f.osc o).baseTime
      = ((f.osc o).units - (f.osc o).baseUnits) * (f.osc o).scaled / (f.osc o).unitRate.num := by
    rw [ht.time_eq, Oscillator.instant, Nat.add_sub_cancel_left]
  refine ⟨⟨(f.osc o).time, ?_, ?_, ?_, ht.time_eq⟩, ?_, ⟨ht.base_le, ?_⟩, ?_, ?_, ?_, ?_⟩
  · exact ClockForest.globalTime_eq ho
  · unfold ClockForest.globalTimeOfUnits
    simp only [hcheck]
    rw [hclosed ht.units_lt, if_pos (by rw [← ht.time_eq]; exact ht.time_lt), ← ht.time_eq]
  · unfold ClockForest.unitPosition
    simp only [hcheck]
  · rw [ht.residual_eq]
    exact Nat.mod_lt _ ht.rate_pos
  · have hw := ClockForest.div_within_one
      (((f.osc o).units - (f.osc o).baseUnits) * (f.osc o).scaled) ht.rate_pos
    rw [helapsed]
    have hcast : ((((f.osc o).units - (f.osc o).baseUnits) * (f.osc o).scaled : Nat) : ℚ)
        = (((f.osc o).units - (f.osc o).baseUnits : Nat) : ℚ)
          * ((f.osc o).unitRate.den * 2 ^ 64) := by
      unfold Oscillator.scaled
      push_cast
      ring
    rw [hcast] at hw
    exact hw
  · intro ns n g hn
    rw [ClockForest.advanceEach_ok ns ho ht, ClockForest.advanceUnits_ok ho ht n.toNat_lt, hn]
  · intro c hc t hgt
    rw [ClockForest.globalTime_eq ho] at hgt
    obtain rfl := Except.ok.inj hgt
    have hk := (Call.call_continues htab hall hc).2
    exact ⟨_, ClockForest.globalTime_eq (Nat.lt_of_lt_of_le ho hk.length_le),
      (hk.timed o ho ht).2⟩
  · intro n
    obtain ⟨h1, h2⟩ := ht.carry_lt n.toNat_lt
    refine ⟨h1, h2, Nat.lt_of_le_of_lt (Nat.mul_le_mul_right _ (Nat.sub_le _ _)) h1⟩
  · intro n
    rw [ht.accumulate_eq n.toNat_lt, hclosed n.toNat_lt]
    constructor
    · split
      · rename_i hlt
        exact ⟨fun he => absurd he (by simp), fun hge => absurd hlt (Nat.not_lt.mpr hge)⟩
      · rename_i hge
        exact ⟨fun _ => Nat.not_lt.mp hge, fun _ => rfl⟩
    · split
      · rename_i hlt
        exact ⟨fun he => absurd he (by simp), fun hge => absurd hlt (Nat.not_lt.mpr hge)⟩
      · rename_i hge
        exact ⟨fun _ => Nat.not_lt.mp hge, fun _ => rfl⟩

theorem timeline_nes : (Call.applyAll nesCalls ClockForest.new).ExactTimeline 0 :=
  timeline_reachable
    ((((((Reaches.init.tail _ (by simp [Call.RestoresFit])).tail _
      (by simp [Call.RestoresFit])).tail _ (by simp [Call.RestoresFit])).tail _
      (by simp [Call.RestoresFit])).tail _ (by simp [Call.RestoresFit])).tail _
      (by simp [Call.RestoresFit])) 0 (by decide)

def halfHertz : Rational := (Rational.new 1 2).getD Rational.one

def lateRestore : List Call :=
  [.addOscillator "slow" halfHertz, .restoreUnitPosition 0 (UInt64.ofNat (2 ^ 64 - 1))]

/--
The restore is refused, and has moved the position all the same: the crystal's time
is still zero, and its position's instant cannot be computed.
-/
theorem timeline_lateRestore :
    Reaches (fun _ _ => True) (Call.applyAll lateRestore ClockForest.new)
      ∧ (Call.applyAll lateRestore ClockForest.new).globalTime 0 = .ok 0
      ∧ (Call.applyAll lateRestore ClockForest.new).unitPosition 0 = .ok (2 ^ 64 - 1)
      ∧ (Call.applyAll lateRestore ClockForest.new).globalTimeOfUnits 0 (2 ^ 64 - 1) ≠ .ok 0 := by
  refine ⟨(Reaches.init.tail _ trivial).tail _ trivial, rfl, rfl, ?_⟩
  decide

end Rsemu.Clock
