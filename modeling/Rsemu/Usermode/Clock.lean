import Rsemu.Clock.Inverse

/-!
# Virtual time for guest threads

A run of guest threads has one oscillator and one domain on it, so its forest is a function of
how many ticks have been executed: `standing rate n` is the whole of it. `withRate` builds the
clock at tick zero, `advance` moves it by ticks a thread executed, and `advanceTo` moves it to
an instant.

`advanceTo` goes to the last tick *at or before* the instant it is given
(`advanceTo_standing`).
-/

namespace Rsemu

namespace Clock.ClockForest

def rootOf (f : ClockForest) (id : DomainId) : ClockResult OscillatorId :=
  match f.checkDomain id with
  | .error e => .error e
  | .ok () => .ok (f.dom id).root

end Clock.ClockForest

namespace Usermode

open Clock Word

def unwrapOr {α : Type} (r : ClockResult α) (default : α) : α :=
  match r with
  | .ok a => a
  | .error _ => default

/-- The clock of the guest's virtual time. -/
structure GuestClock where
  forest : ClockForest
  osc : OscillatorId
  domain : DomainId

namespace GuestClock

def withRate (rate : Rational) : ClockResult GuestClock :=
  match ClockForest.new.addOscillator "guest" rate with
  | (_, .error e) => .error e
  | (forest, .ok domain) =>
    match forest.rootOf domain with
    | .error e => .error e
    | .ok osc => .ok ⟨forest, osc, domain⟩

def ticks (c : GuestClock) : Nat := unwrapOr (c.forest.ticks c.domain) 0

def now (c : GuestClock) : Nat := unwrapOr (c.forest.globalTime c.osc) 0

def advance (c : GuestClock) (ticks : Nat) : GuestClock :=
  if ticks = 0 then c
  else { c with forest := (c.forest.advanceDomain c.domain ticks).1 }

def advanceTo (c : GuestClock) (instant : Nat) : GuestClock × Nat :=
  ({ c with forest := (c.forest.advanceToGlobal c.osc instant).1 },
    unwrapOr (c.forest.advanceToGlobal c.osc instant).2 0)

end GuestClock

def tickInstant (rate : Rational) (n : Nat) : Nat := n * (rate.den * 2 ^ 64) / rate.num

/-- The tick and its instant fit their counters. -/
def Within (rate : Rational) (n : Nat) : Prop := n < 2 ^ 64 ∧ tickInstant rate n < 2 ^ 128

instance (rate : Rational) (n : Nat) : Decidable (Within rate n) := inferInstanceAs (Decidable (_ ∧ _))

def guestDomain : ClockDomain :=
  { name := "guest", parent := none, mul := 1, div := 1, children := [], root := 0,
    ratio := Rational.one, unitsPerTick := 1, baseUnit := 0, baseTicks := 0, gated := false,
    own := 0 }

/-- The crystal after `n` ticks. -/
def guestOscillator (rate : Rational) (n : Nat) : Oscillator :=
  { name := "guest", freq := rate, root := 0, unitMul := 1, unitRate := rate, units := n,
    baseUnits := 0, baseTime := 0, step := rate.den * 2 ^ 64 / rate.num,
    rem := rate.den * 2 ^ 64 % rate.num, time := tickInstant rate n,
    residual := n * (rate.den * 2 ^ 64) % rate.num, active := true }

def standing (rate : Rational) (n : Nat) : GuestClock :=
  ⟨⟨[guestDomain], [guestOscillator rate n]⟩, 0, 0⟩

section Standing

variable {rate : Rational} {n : Nat}

@[simp] theorem standing_dom : (standing rate n).forest.dom 0 = guestDomain := rfl

@[simp] theorem standing_osc : (standing rate n).forest.osc 0 = guestOscillator rate n := rfl

@[simp] theorem standing_checkDomain : (standing rate n).forest.checkDomain 0 = .ok () := rfl

@[simp] theorem standing_checkOsc : (standing rate n).forest.checkOsc 0 = .ok () := rfl

theorem instant_guest (u : Nat) : (guestOscillator rate n).instant u = tickInstant rate u := by
  exact Nat.zero_add _

theorem timed_guest (hr : 0 < rate.num) (h : Within rate n) : (guestOscillator rate n).Timed where
  unitMul_pos := Nat.zero_lt_one
  unitMul_lt := (by decide : 1 < 2 ^ 64)
  freq_pos := hr
  rate_pos := hr
  units_lt := h.1
  base_le := Nat.zero_le _
  step_eq := rfl
  rem_eq := rfl
  time_eq := (instant_guest n).symm
  residual_eq := rfl
  time_lt := h.2

theorem tickInstant_lt (hr : 0 < rate.num) {u v : Nat} (h : u < v) :
    tickInstant rate u < tickInstant rate v := by
  have hz : Within rate 0 := ⟨by decide, by
    unfold tickInstant
    rw [Nat.zero_mul, Nat.zero_div]
    decide⟩
  have := (timed_guest hr hz).instant_strictMono (Nat.zero_le u) h
  rwa [instant_guest, instant_guest] at this

theorem tickInstant_le_iff (hr : 0 < rate.num) {u v : Nat} :
    tickInstant rate u ≤ tickInstant rate v ↔ u ≤ v := by
  constructor
  · intro h
    refine Nat.le_of_not_lt fun hlt => ?_
    have := tickInstant_lt hr hlt
    omega
  · intro h
    rcases Nat.lt_or_eq_of_le h with h | rfl
    · exact Nat.le_of_lt (tickInstant_lt hr h)
    · exact Nat.le_refl _

theorem withRate_eq : GuestClock.withRate rate =
    if rate.isZero then .error (.err (.zeroRate "guest")) else .ok (standing rate 0) := by
  unfold GuestClock.withRate ClockForest.addOscillator
  by_cases hz : rate.isZero
  · rw [if_pos hz, if_pos hz]
  · rw [if_neg hz, if_neg hz]
    simp [ClockForest.new, ClockForest.rootOf, ClockForest.checkDomain, ClockForest.dom, standing,
      guestDomain, guestOscillator, Oscillator.recomputeConversion, tickInstant]

@[simp] theorem now_standing : (standing rate n).now = tickInstant rate n := rfl

theorem ticks_standing (h : n < 2 ^ 64) : (standing rate n).ticks = n := by
  have hunits : (standing rate n).forest.treeUnits 0 = n := rfl
  have hpos : guestDomain.position n = n := Nat.max_zero n
  have hat : guestDomain.ticksAt n = n := by
    unfold ClockDomain.ticksAt
    rw [if_neg (by decide), show guestDomain.baseUnit = 0 from rfl,
      show guestDomain.baseTicks = 0 from rfl, show guestDomain.unitsPerTick = 1 from rfl,
      wrappingSub_of_le (Nat.zero_le n) h, Nat.sub_zero, Nat.div_one,
      wrappingAdd_of_lt (by omega), Nat.zero_add]
  unfold GuestClock.ticks ClockForest.ticks
  rw [show (standing rate n).domain = 0 from rfl, standing_checkDomain, standing_dom, hunits, hpos,
    hat]
  rfl

theorem advanceUnits_standing (hr : 0 < rate.num) (h : Within rate n) {k : Nat}
    (hk : k < 2 ^ 64) : ((standing rate n).forest.advanceUnits 0 k).1
      = (standing rate (if Within rate (n + k) then n + k else n)).forest := by
  have ho : 0 < (standing rate n).forest.oscillators.length := Nat.zero_lt_one
  have hok := fun g => ClockForest.advanceUnits_ok (g := g) ho (timed_guest hr h) hk
  rw [standing_osc] at hok
  simp only [instant_guest] at hok
  by_cases hw : Within rate (n + k)
  · rw [if_pos hw, (hok _).mpr ⟨hw.1, hw.2, rfl⟩]
    change ClockForest.mk [guestDomain] [ClockForest.advanced (guestOscillator rate n) k] = _
    unfold ClockForest.advanced
    rw [show (guestOscillator rate n).units = n from rfl, instant_guest]
    rfl
  · rw [if_neg hw]
    cases hc : (standing rate n).forest.advanceUnits 0 k with
    | mk g r =>
      cases r with
      | error e => exact ClockForest.advanceUnits_error hc
      | ok u => exact absurd ⟨((hok g).mp hc).1, ((hok g).mp hc).2.1⟩ hw

theorem advance_standing (hr : 0 < rate.num) (h : Within rate n) (k : Nat) :
    (standing rate n).advance k = standing rate (if Within rate (n + k) then n + k else n) := by
  unfold GuestClock.advance
  by_cases hk : k = 0
  · rw [if_pos hk, hk, Nat.add_zero, if_pos h]
  rw [if_neg hk]
  change GuestClock.mk ((standing rate n).forest.advanceDomain 0 k).1 0 0 = _
  unfold ClockForest.advanceDomain
  rw [standing_checkDomain, standing_dom]
  rw [if_neg (by decide), show guestDomain.unitsPerTick = 1 from rfl,
    show guestDomain.root = 0 from rfl]
  unfold checkedMul
  rw [Nat.mul_one]
  by_cases hlt : k < 2 ^ 64
  · rw [if_pos hlt]
    rw [advanceUnits_standing hr h hlt]
    rfl
  · rw [if_neg hlt, if_neg (fun hw => hlt (Nat.lt_of_le_of_lt (Nat.le_add_left _ _) hw.1))]
    rfl

theorem advanceTo_standing (hr : 0 < rate.num) (h : Within rate n) {t : Nat} (ht : t < 2 ^ 128) :
    ∃ v, (∀ u, u ≤ v ↔ tickInstant rate u ≤ t)
      ∧ ((standing rate n).advanceTo t).1 = standing rate (if v < 2 ^ 64 then max n v else n) := by
  obtain ⟨v, _, hv, heq⟩ := (timed_guest hr h).unitsAt_spec (Nat.zero_le t) ht
  have hv' : ∀ u, u ≤ v ↔ tickInstant rate u ≤ t := by
    intro u
    rw [hv u (Nat.zero_le u), instant_guest]
  refine ⟨v, hv', ?_⟩
  change GuestClock.mk ((standing rate n).forest.advanceToGlobal 0 t).1 0 0 = _
  unfold ClockForest.advanceToGlobal
  rw [standing_checkOsc, standing_osc]
  rw [heq, show (guestOscillator rate n).units = n from rfl]
  by_cases hlt : v < 2 ^ 64
  · rw [if_pos hlt, if_pos hlt]
    dsimp only
    by_cases hle : v ≤ n
    · rw [if_pos hle, Nat.max_eq_left hle]
      rfl
    · rw [if_neg hle, Nat.max_eq_right (by omega)]
      have hadv := advanceUnits_standing hr h (k := v - n) (by omega)
      have hin : Within rate (n + (v - n)) := by
        rw [Nat.add_sub_cancel' (by omega)]
        exact ⟨hlt, Nat.lt_of_le_of_lt ((hv' v).mp (Nat.le_refl v)) ht⟩
      rw [if_pos hin, Nat.add_sub_cancel' (by omega)] at hadv
      cases hc : (standing rate n).forest.advanceUnits 0 (v - n) with
      | mk g r =>
        rw [hc] at hadv
        obtain rfl : g = (standing rate v).forest := hadv
        cases r with
        | error e => rfl
        | ok u => rfl
  · rw [if_neg hlt, if_neg hlt]
    rfl

end Standing

end Usermode

end Rsemu
