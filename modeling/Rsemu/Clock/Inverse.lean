import Mathlib.Data.Nat.ModEq
import Rsemu.Clock.Timeline

/-!
# From an instant back to a position

`units_at` is the inverse of the timeline, and it is written as one: the largest unit position
whose instant is at or before the one asked about. The product it starts from does not fit 128
bits, so it is computed in three limbs; the first half of this module says what the limbs are
worth (`mulU128U64_value`, `dec_value`, `divU64_value`), and the second what the answer means
(`unitsAt_spec`).
-/

namespace Rsemu.Clock

open Word

namespace U192

def value (a : U192) : Nat := (a.hi * 2 ^ 64 + a.mid) * 2 ^ 64 + a.lo

/-- Every limb is one. -/
structure Limbs (a : U192) : Prop where
  hi_lt : a.hi < 2 ^ 64
  mid_lt : a.mid < 2 ^ 64
  lo_lt : a.lo < 2 ^ 64

theorem mulU128U64_value {a b : Nat} (ha : a < 2 ^ 128) (hb : b < 2 ^ 64) :
    (mulU128U64 a b).value = a * b ∧ (mulU128U64 a b).Limbs := by
  obtain ⟨x, y, hy, rfl⟩ : ∃ x y, y < 2 ^ 64 ∧ a = x * 2 ^ 64 + y :=
    ⟨a / 2 ^ 64, a % 2 ^ 64, Nat.mod_lt _ (by decide), (Nat.div_add_mod' a (2 ^ 64)).symm⟩
  have hq : (x * 2 ^ 64 + y) / 2 ^ 64 = x := by omega
  have hr : (x * 2 ^ 64 + y) % 2 ^ 64 = y := by omega
  have hxb : x * b ≤ (2 ^ 64 - 1) * (2 ^ 64 - 1) :=
    Nat.mul_le_mul (by omega) (by omega)
  have hyb : y * b ≤ (2 ^ 64 - 1) * (2 ^ 64 - 1) :=
    Nat.mul_le_mul (by omega) (by omega)
  have hmul : (x * 2 ^ 64 + y) * b = x * b * 2 ^ 64 + y * b := by ring
  unfold mulU128U64 value
  dsimp only
  rw [hq, hr, hmul]
  generalize x * b = p at *
  generalize y * b = q at *
  refine ⟨by omega, ?_, ?_, ?_⟩
  · exact Nat.mod_lt _ (by decide)
  · exact Nat.mod_lt _ (by decide)
  · exact Nat.mod_lt _ (by decide)

theorem dec_value {a : U192} (ha : a.Limbs) (hpos : 0 < a.value) :
    a.dec.value = a.value - 1 ∧ a.dec.Limbs := by
  obtain ⟨hhi, hmid, hlo⟩ := ha
  unfold value at hpos
  unfold dec value
  split
  · exact ⟨by dsimp only; omega, hhi, hmid, by dsimp only; omega⟩
  · split
    · exact ⟨by dsimp only; omega, hhi, by dsimp only; omega, by dsimp only; omega⟩
    · rw [if_pos (by omega)]
      exact ⟨by dsimp only; omega, by dsimp only; omega, by dsimp only; omega,
        by dsimp only; omega⟩

theorem divU64_value {a : U192} (ha : a.Limbs) {d : Nat} (hd : 0 < d) :
    (a.divU64 d).1.value = a.value / d := by
  obtain ⟨_, hmid, hlo⟩ := ha
  have carry : ∀ {r m : Nat}, r < d → m < 2 ^ 64 → (r * 2 ^ 64 + m) / d < 2 ^ 64 := by
    intro r m hr hm
    rw [Nat.div_lt_iff_lt_mul hd]
    calc r * 2 ^ 64 + m < (r + 1) * 2 ^ 64 := by omega
      _ ≤ d * 2 ^ 64 := Nat.mul_le_mul_right _ hr
      _ = 2 ^ 64 * d := Nat.mul_comm _ _
  have h1 := carry (Nat.mod_lt a.hi hd) hmid
  have h2 := carry (Nat.mod_lt (a.hi % d * 2 ^ 64 + a.mid) hd) hlo
  unfold divU64 value
  dsimp only
  rw [Nat.mod_eq_of_lt h1, Nat.mod_eq_of_lt h2]
  -- each remainder is carried into the next limb
  have step : ∀ x y : Nat, (x * 2 ^ 64 + y) / d
      = x / d * 2 ^ 64 + (x % d * 2 ^ 64 + y) / d := by
    intro x y
    have hx := Nat.div_add_mod x d
    have : x * 2 ^ 64 + y = (x % d * 2 ^ 64 + y) + d * (x / d * 2 ^ 64) := by
      calc x * 2 ^ 64 + y = (d * (x / d) + x % d) * 2 ^ 64 + y := by rw [hx]
        _ = _ := by ring
    rw [this, Nat.add_mul_div_left _ _ hd, Nat.add_comm]
  have mod_step : (a.hi * 2 ^ 64 + a.mid) % d = (a.hi % d * 2 ^ 64 + a.mid) % d :=
    (Nat.ModEq.add_right _ (Nat.ModEq.mul_right _ (Nat.mod_mod a.hi d))).symm
  rw [step (a.hi * 2 ^ 64 + a.mid) a.lo, step a.hi a.mid, mod_step]

end U192

namespace Oscillator

variable {o : Oscillator}

theorem num_lt_scaled : o.unitRate.num < o.scaled := by
  have hden := o.unitRate.den_pos
  have hnum := o.unitRate.num_lt
  calc o.unitRate.num < 1 * 2 ^ 64 := by omega
    _ ≤ o.unitRate.den * 2 ^ 64 := Nat.mul_le_mul_right _ hden

theorem Timed.instant_strictMono (h : o.Timed) {u v : Nat} (hb : o.baseUnits ≤ u) (huv : u < v) :
    o.instant u < o.instant v := by
  have hgt := o.num_lt_scaled
  unfold instant
  obtain ⟨k, rfl⟩ : ∃ k, v = u + (k + 1) := ⟨v - u - 1, by omega⟩
  have hsub : u + (k + 1) - o.baseUnits = (u - o.baseUnits) + (k + 1) := by omega
  rw [hsub, Nat.add_mul]
  refine Nat.add_lt_add_left ?_ _
  have hle : (u - o.baseUnits) * o.scaled + o.unitRate.num
      ≤ (u - o.baseUnits) * o.scaled + (k + 1) * o.scaled :=
    Nat.add_le_add_left (Nat.le_trans (Nat.le_of_lt hgt) (Nat.le_mul_of_pos_left _ (by omega))) _
  calc (u - o.baseUnits) * o.scaled / o.unitRate.num
      < ((u - o.baseUnits) * o.scaled + o.unitRate.num) / o.unitRate.num := by
        rw [Nat.add_div_right _ h.rate_pos]
        exact Nat.lt_succ_self _
    _ ≤ _ := Nat.div_le_div_right hle

theorem short_of_second {n r x : Nat} (hn : n < 2 ^ 64) (hr : r < n) :
    n * (2 ^ 128 - 1) + r ≠ x * 2 ^ 64 := by
  intro he
  omega

theorem instant_ne_last (hpos : 0 < o.unitRate.num) (hbase : o.baseTime = 0) (u : Nat) :
    o.instant u ≠ 2 ^ 128 - 1 := by
  unfold instant scaled
  rw [hbase, Nat.zero_add, ← Nat.mul_assoc]
  intro he
  have hdm := Nat.div_add_mod ((u - o.baseUnits) * o.unitRate.den * 2 ^ 64) o.unitRate.num
  rw [he] at hdm
  exact short_of_second o.unitRate.num_lt (Nat.mod_lt _ hpos) hdm

theorem unitsAt_quotient {m : Nat} (hpos : 0 < m) (hm : m < 2 ^ 128) (hrate : 0 < o.unitRate.num) :
    (((U192.mulU128U64 m o.unitRate.num).dec.divU64 o.unitRate.den).1.shr64).toU128
      = some ((m * o.unitRate.num - 1) / o.unitRate.den / 2 ^ 64) := by
  obtain ⟨hv, hl⟩ := U192.mulU128U64_value hm o.unitRate.num_lt
  have hprod : 0 < m * o.unitRate.num := Nat.mul_pos hpos hrate
  obtain ⟨hv', hl'⟩ := U192.dec_value hl (by rw [hv]; exact hprod)
  have hq := U192.divU64_value hl' o.unitRate.den_pos
  rw [hv', hv] at hq
  have hlo : ((U192.mulU128U64 m o.unitRate.num).dec.divU64 o.unitRate.den).1.lo < 2 ^ 64 :=
    Nat.mod_lt _ (by decide)
  generalize ((U192.mulU128U64 m o.unitRate.num).dec.divU64 o.unitRate.den).1 = q at hq hlo ⊢
  unfold U192.value at hq
  unfold U192.shr64 U192.toU128
  rw [if_neg (by simp), ← hq]
  clear hq hv hv' hl hl' hprod
  congr 1
  dsimp only
  omega

theorem Timed.unitsAt_spec (h : o.Timed) {t : Nat} (ht : o.baseTime ≤ t) (hlt : t < 2 ^ 128) :
    ∃ v, o.baseUnits ≤ v ∧ (∀ u, o.baseUnits ≤ u → (u ≤ v ↔ o.instant u ≤ t))
      ∧ o.unitsAt t = if v < 2 ^ 64 then .ok v else .error (o.overflow "unit position") := by
  by_cases heq : t ≤ o.baseTime
  · -- the segment's own start
    obtain rfl : t = o.baseTime := Nat.le_antisymm heq ht
    have hstart : o.instant o.baseUnits = o.baseTime := by
      unfold instant
      rw [Nat.sub_self, Nat.zero_mul, Nat.zero_div, Nat.add_zero]
    refine ⟨o.baseUnits, Nat.le_refl _, fun u hu => ?_, ?_⟩
    · constructor
      · intro hle
        rw [Nat.le_antisymm hle hu, hstart]
      · intro hle
        refine Nat.le_of_not_lt fun hgt => ?_
        have := h.instant_strictMono (Nat.le_refl _) hgt
        omega
    · unfold unitsAt
      rw [if_pos heq, if_pos (Nat.lt_of_le_of_lt h.base_le h.units_lt)]
  · obtain ⟨dt, hdt, rfl⟩ : ∃ dt, 0 < dt ∧ t = o.baseTime + dt :=
      ⟨t - o.baseTime, by omega, by omega⟩
    obtain ⟨m, hm⟩ : ∃ m, m = saturatingAdd 128 dt 1 := ⟨_, rfl⟩
    have hpos : 0 < m := by
      unfold saturatingAdd at hm
      omega
    have hmlt : m < 2 ^ 128 := by
      unfold saturatingAdd at hm
      omega
    have hw := unitsAt_quotient (o := o) hpos hmlt h.rate_pos
    obtain ⟨w, hwv⟩ : ∃ w, w = (m * o.unitRate.num - 1) / o.unitRate.den / 2 ^ 64 := ⟨_, rfl⟩
    rw [← hwv] at hw
    -- below `w` is being strictly inside `m` steps of the timeline
    have hbelow : ∀ k, k ≤ w ↔ k * o.scaled / o.unitRate.num < m := by
      intro k
      rw [hwv, Nat.div_div_eq_div_mul, Nat.le_div_iff_mul_le (Nat.mul_pos o.unitRate.den_pos
        (by decide)), Nat.div_lt_iff_lt_mul h.rate_pos]
      change k * o.scaled ≤ m * o.unitRate.num - 1 ↔ _
      have := Nat.mul_pos hpos h.rate_pos
      omega
    refine ⟨o.baseUnits + w, Nat.le_add_right _ _, fun u hu => ?_, ?_⟩
    · obtain ⟨k, rfl⟩ : ∃ k, u = o.baseUnits + k := ⟨u - o.baseUnits, by omega⟩
      rw [Nat.add_le_add_iff_left, hbelow]
      have hinst : o.instant (o.baseUnits + k) = o.baseTime + k * o.scaled / o.unitRate.num := by
        unfold instant
        rw [Nat.add_sub_cancel_left]
      by_cases hsat : dt + 1 < 2 ^ 128
      · have : m = dt + 1 := by
          unfold saturatingAdd at hm
          omega
        omega
      · have hz : o.baseTime = 0 := by omega
        have hlast := instant_ne_last h.rate_pos hz (o.baseUnits + k)
        have : m = 2 ^ 128 - 1 := by
          unfold saturatingAdd at hm
          omega
        omega
    · unfold unitsAt
      rw [if_neg heq]
      simp only [Nat.add_sub_cancel_left, ← hm, hw]
      by_cases hbig : 2 ^ 64 ≤ w
      · rw [if_pos hbig, if_neg (by omega)]
      · rw [if_neg hbig]
        unfold checkedAdd
        by_cases hfit : o.baseUnits + w < 2 ^ 64
        · rw [if_pos hfit, if_pos hfit]
        · rw [if_neg hfit, if_neg hfit]

def atStart (o : Oscillator) : Oscillator :=
  { o.recomputeConversion with
    units := o.baseUnits, unitMul := 1, freq := Rational.one, time := o.baseTime, residual := 0 }

theorem atStart_timed (hrate : 1 ≤ o.unitRate.num) (hb : o.baseUnits < 2 ^ 64)
    (ht : o.baseTime < 2 ^ 128) : o.atStart.Timed where
  unitMul_pos := Nat.one_pos
  unitMul_lt := by
    change 1 < 2 ^ 64
    decide
  freq_pos := Nat.one_pos
  rate_pos := hrate
  units_lt := hb
  base_le := Nat.le_refl _
  step_eq := rfl
  rem_eq := rfl
  time_eq := by
    change o.baseTime = o.baseTime + (o.baseUnits - o.baseUnits) * _ / _
    rw [Nat.sub_self, Nat.zero_mul, Nat.zero_div, Nat.add_zero]
  residual_eq := by
    change 0 = (o.baseUnits - o.baseUnits) * _ % _
    rw [Nat.sub_self, Nat.zero_mul, Nat.zero_mod]
  time_lt := ht

theorem unitsAt_congr {o' : Oscillator} (hname : o'.name = o.name)
    (htime : o'.baseTime = o.baseTime) (hunits : o'.baseUnits = o.baseUnits)
    (hrate : o'.unitRate = o.unitRate) (t : Nat) : o'.unitsAt t = o.unitsAt t := by
  have hov : ∀ what, o'.overflow what = o.overflow what := fun what => by
    unfold overflow
    rw [hname]
  unfold unitsAt
  rw [htime, hunits, hrate]
  by_cases h : t ≤ o.baseTime
  · rw [if_pos h, if_pos h]
  · simp only [hov]

theorem instant_of_le {u : Nat} (hu : u ≤ o.baseUnits) : o.instant u = o.baseTime := by
  rw [instant, Nat.sub_eq_zero_of_le hu, Nat.zero_mul, Nat.zero_div, Nat.add_zero]

theorem converted_unitsAt_spec (hrate : 1 ≤ o.unitRate.num) (hb : o.baseUnits < 2 ^ 64)
    (ht : o.baseTime < 2 ^ 128) {t : Nat} (hge : o.baseTime ≤ t) (hlt : t < 2 ^ 128) :
    ∃ v, o.baseUnits ≤ v ∧ (∀ u, o.baseUnits ≤ u → (u ≤ v ↔ o.instant u ≤ t))
      ∧ o.recomputeConversion.unitsAt t
        = if v < 2 ^ 64 then .ok v else .error (o.overflow "unit position") := by
  obtain ⟨v, hbv, hall, hval⟩ := (atStart_timed hrate hb ht).unitsAt_spec (t := t) hge hlt
  refine ⟨v, hbv, hall, Eq.trans (unitsAt_congr ?_ ?_ ?_ ?_ t) hval⟩
  · rfl
  · rfl
  · rfl
  · rfl

theorem converted_timeForUnits (hrate : 1 ≤ o.unitRate.num) (ht : o.baseTime < 2 ^ 128) {u : Nat}
    (hu : u < 2 ^ 64) : o.recomputeConversion.timeForUnits u
      = if o.instant u < 2 ^ 128 then .ok (o.instant u)
        else .error (o.overflow "global timeline") := by
  have hstep : o.recomputeConversion.step
      = o.recomputeConversion.scaled / o.recomputeConversion.unitRate.num := rfl
  have hrem : o.recomputeConversion.rem
      = o.recomputeConversion.scaled % o.recomputeConversion.unitRate.num := rfl
  exact timeForUnits_eq hstep hrem hrate hu ht

end Oscillator

namespace ClockForest

theorem advanceToGlobal_again {f g : ClockForest} {id : OscillatorId} {t n : Nat}
    (h : f.advanceToGlobal id t = (g, .ok n)) : g.advanceToGlobal id t = (g, .ok 0) := by
  unfold advanceToGlobal at h
  split at h
  · cases congrArg Prod.snd h
  rename_i hcheck
  have ho := checkOsc_ok hcheck
  have again : ∀ {g : ClockForest}, g.oscillators.length = f.oscillators.length →
      ∀ {u : Nat}, (g.osc id).unitsAt t = .ok u → u ≤ (g.osc id).units →
      g.advanceToGlobal id t = (g, .ok 0) := by
    intro g hlen u hu hle
    have hcheck' : g.checkOsc id = .ok () := by
      unfold checkOsc
      rw [if_neg (Nat.not_le.mpr (hlen.symm ▸ ho))]
    unfold advanceToGlobal
    simp only [hcheck', hu, if_pos hle]
  split at h
  · cases congrArg Prod.snd h
  rename_i target htarget
  split at h
  · rename_i hle
    obtain rfl := congrArg Prod.fst h
    exact again rfl htarget hle
  dsimp only at h
  split at h
  · cases congrArg Prod.snd h
  rename_i g' hadv
  obtain rfl := congrArg Prod.fst h
  -- the advance leaves the segment alone and the position at the target
  unfold advanceUnits at hadv
  rw [hcheck] at hadv
  dsimp only at hadv
  split at hadv
  · cases congrArg Prod.snd hadv
  rename_i units hunits
  split at hadv
  · cases congrArg Prod.snd hadv
  rename_i o' hacc
  obtain rfl := congrArg Prod.fst hadv
  obtain ⟨_, rfl⟩ := checkedAdd_eq_some.mp hunits
  have hself := modOsc_osc_self f ho
    fun _ => { o' with units := (f.osc id).units + (target - (f.osc id).units) }
  have hsame : ({ o' with units := (f.osc id).units + (target - (f.osc id).units) }
      : Oscillator).unitsAt t = .ok target := by
    obtain ⟨time, residual, rfl⟩ := accumulate_ok hacc
    refine Eq.trans (Oscillator.unitsAt_congr ?_ ?_ ?_ ?_ t) htarget
    · rfl
    · rfl
    · rfl
    · rfl
  rw [← hself] at hsame
  refine again (modOsc_length f id _) hsame ?_
  rw [hself]
  dsimp only
  omega

end ClockForest

/--
**`units_at` inverts `time_for_units`**, on any oscillator whose unit rate is not zero
and any instant from the start of its segment on. What it answers is the largest position
whose instant is at or before the one asked about; what it refuses is an instant that a
position past the counter has already reached. The instant of a position gives the
position back, or the segment's start if that is later, and an advance to an instant is
done after the first call.
-/
theorem unitsAt_inverts {o : Oscillator} (hrate : 1 ≤ o.unitRate.num)
    (hb : o.baseUnits < 2 ^ 64) (ht : o.baseTime < 2 ^ 128) :
    (∀ t, o.baseTime ≤ t → t < 2 ^ 128 →
      (∀ v, o.recomputeConversion.unitsAt t = .ok v → v < 2 ^ 64 ∧
        ∀ u, u < 2 ^ 64 →
          (u ≤ v ↔ ∃ x, o.recomputeConversion.timeForUnits u = .ok x ∧ x ≤ t))
      ∧ ((∃ e, o.recomputeConversion.unitsAt t = .error e) ↔
        ∃ v, 2 ^ 64 ≤ v ∧ o.instant v ≤ t)
      ∧ ∀ e, o.recomputeConversion.unitsAt t = .error e → e = o.overflow "unit position")
    ∧ (∀ u x, u < 2 ^ 64 → o.recomputeConversion.timeForUnits u = .ok x →
      o.recomputeConversion.unitsAt x = .ok (max u o.baseUnits))
    ∧ ∀ (f g : ClockForest) (id : OscillatorId) (t n : Nat),
      f.advanceToGlobal id t = (g, .ok n) → g.advanceToGlobal id t = (g, .ok 0) := by
  have hspec := fun {t : Nat} => Oscillator.converted_unitsAt_spec (t := t) hrate hb ht
  have hclosed := fun {u : Nat} => Oscillator.converted_timeForUnits (u := u) hrate ht
  have hstart : ∀ u, u ≤ o.baseUnits → o.instant u = o.baseTime :=
    fun u hu => Oscillator.instant_of_le hu
  have hge : ∀ u, o.baseTime ≤ o.instant u := fun u => Nat.le_add_right _ _
  have hmono : ∀ {u v : Nat}, o.baseUnits ≤ u → u < v → o.instant u < o.instant v :=
    fun hbu huv => (Oscillator.atStart_timed hrate hb ht).instant_strictMono hbu huv
  refine ⟨fun t hbt hlt => ?_, fun u x hu hx => ?_, fun f g id t n h =>
    ClockForest.advanceToGlobal_again h⟩
  · obtain ⟨v, hbv, hall, hval⟩ := hspec hbt hlt
    rw [hval]
    by_cases hv : v < 2 ^ 64
    · rw [if_pos hv]
      refine ⟨fun w hw => ?_, ?_, fun e he => absurd he (by simp)⟩
      · obtain rfl := Except.ok.inj hw
        refine ⟨hv, fun u hu => ?_⟩
        have hreach : u ≤ v ↔ o.instant u ≤ t := by
          rcases Nat.le_total o.baseUnits u with hbu | hbu
          · exact hall u hbu
          · rw [hstart u hbu]
            exact ⟨fun _ => hbt, fun _ => Nat.le_trans hbu hbv⟩
        rw [hreach, hclosed hu]
        constructor
        · intro hle
          exact ⟨_, if_pos (Nat.lt_of_le_of_lt hle hlt), hle⟩
        · rintro ⟨x, hx, hle⟩
          split at hx
          · exact Except.ok.inj hx ▸ hle
          · exact absurd hx (by simp)
      · constructor
        · rintro ⟨e, he⟩
          exact absurd he (by simp)
        · rintro ⟨w, hw, hle⟩
          have := (hall w (by omega)).mpr hle
          omega
    · rw [if_neg hv]
      refine ⟨fun w hw => absurd hw (by simp), ⟨fun _ => ?_, fun _ => ⟨_, rfl⟩⟩, fun e he => ?_⟩
      · exact ⟨v, Nat.not_lt.mp hv, (hall v hbv).mp (Nat.le_refl v)⟩
      · exact (Except.error.inj he).symm
  · rw [hclosed hu] at hx
    split at hx
    · rename_i hfit
      obtain rfl := Except.ok.inj hx
      obtain ⟨v, hbv, hall, hval⟩ := hspec (hge u) hfit
      have hmax : v = max u o.baseUnits := by
        rcases Nat.le_total o.baseUnits u with hbu | hbu
        · have hlow := (hall u hbu).mpr (Nat.le_refl _)
          have hhigh : v ≤ u := by
            refine Nat.le_of_not_lt fun hlt => ?_
            exact absurd ((hall v hbv).mp (Nat.le_refl v)) (Nat.not_le.mpr (hmono hbu hlt))
          omega
        · have hhigh : v ≤ o.baseUnits := by
            refine Nat.le_of_not_lt fun hlt => ?_
            have := hmono (Nat.le_refl _) hlt
            have hle := (hall v hbv).mp (Nat.le_refl v)
            rw [hstart u hbu, ← hstart o.baseUnits (Nat.le_refl _)] at hle
            exact absurd hle (Nat.not_le.mpr this)
          omega
      rw [hval, hmax, if_pos (by omega)]
    · exact absurd hx (by simp)

/-- A crystal of three units in seven seconds, asked at its segment's first instant and its
timeline's last. -/
def slowCrystal : Oscillator :=
  { (default : Oscillator) with
    name := "slow", unitRate := (Rational.new 3 7).getD Rational.one, baseUnits := 5,
    baseTime := 1000 }

theorem unitsAt_inverts_slow :
    slowCrystal.recomputeConversion.unitsAt 1000 = .ok (max 5 slowCrystal.baseUnits)
      ∧ ∀ v, slowCrystal.recomputeConversion.unitsAt (2 ^ 128 - 1) = .ok v → v < 2 ^ 64 :=
  have h := unitsAt_inverts (o := slowCrystal) (by decide +kernel) (by decide +kernel)
    (by decide +kernel)
  ⟨h.2.1 5 1000 (by decide) (by decide +kernel),
    fun v hv => ((h.1 (2 ^ 128 - 1) (by decide +kernel) (by decide)).1 v hv).1⟩

def retunedCalls : List Call :=
  [.addOscillator "master" (Rational.integer 1000), .advanceUnits 0 10,
    .setFrequency 0 (Rational.integer 2000)]

/-- A position from before the last change of frequency is not given back. -/
theorem earlier_position_lost :
    ∃ x, ((Call.applyAll retunedCalls ClockForest.new).osc 0).timeForUnits 3 = .ok x
      ∧ ((Call.applyAll retunedCalls ClockForest.new).osc 0).unitsAt x = .ok 10
      ∧ ((Call.applyAll retunedCalls ClockForest.new).osc 0).baseTime ≤ x :=
  ⟨184467440737095516, by decide +kernel, by decide +kernel, by decide +kernel⟩

end Rsemu.Clock
