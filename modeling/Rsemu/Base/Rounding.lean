import Mathlib

/-!
# Rounding magnitudes

A magnitude is rounded to an integer in one of four ways: to the nearest, with ties to even or
away from zero, down or up.

The integers a program computes with do not hold the magnitude itself but its *sticky* form:
the integer below it, made odd when something was lost. A sticky integer lies on the same side
of every even integer as the magnitude it stands for (`Sticky.le_iff`, `Sticky.lt_iff`), which
is all that rounding two or more places further up ever asks. Shifting right keeps it sticky
(`Sticky.jam`), and so does adding or subtracting something even.
-/

namespace Rsemu.Rounding

theorem atLeastTwo_two : Nat.AtLeastTwo 2 := inferInstance

attribute [local instance] atLeastTwo_two

/-- Which way an integer part is rounded. -/
inductive Mode where
  /-- To the nearest, ties to even. -/
  | even
  /-- To the nearest, ties away from zero. -/
  | away
  | down
  | up
  deriving DecidableEq

/-- Whether a magnitude with integer part `k` and fraction `f` is rounded up. -/
def Mode.Up : Mode → ℕ → ℝ → Prop
  | .even, k, f => 1 / 2 < f ∨ (f = 1 / 2 ∧ k % 2 = 1)
  | .away, _, f => 1 / 2 ≤ f
  | .down, _, _ => False
  | .up, _, f => 0 < f

open Classical in
noncomputable def roundNat (m : Mode) (y : ℝ) : ℕ :=
  if m.Up ⌊y⌋₊ (y - ⌊y⌋₊) then ⌊y⌋₊ + 1 else ⌊y⌋₊

theorem roundNat_cases (m : Mode) (y : ℝ) : roundNat m y = ⌊y⌋₊ ∨ roundNat m y = ⌊y⌋₊ + 1 := by
  unfold roundNat
  split
  · exact Or.inr rfl
  · exact Or.inl rfl

theorem Mode.not_up_zero (m : Mode) (k : ℕ) : ¬ m.Up k 0 := by
  cases m with
  | even =>
    rintro (h | ⟨h, -⟩)
    · norm_num at h
    · norm_num at h
  | away => exact fun h => by norm_num [Mode.Up] at h
  | down => exact id
  | up => exact lt_irrefl _

variable {k : ℕ} {y : ℝ}

theorem Mode.Up.mono {m : Mode} {f g : ℝ} (h : m.Up k f) (hfg : f ≤ g) : m.Up k g := by
  cases m with
  | even =>
    rcases h with h | ⟨h, hk⟩
    · exact Or.inl (lt_of_lt_of_le h hfg)
    · rcases lt_or_eq_of_le hfg with hlt | heq
      · exact Or.inl (h ▸ hlt)
      · exact Or.inr ⟨heq ▸ h, hk⟩
  | away => exact le_trans h hfg
  | down => exact h
  | up => exact lt_of_lt_of_le h hfg

theorem roundNat_natCast (m : Mode) (k : ℕ) : roundNat m (k : ℝ) = k := by
  unfold roundNat
  rw [Nat.floor_natCast, sub_self, if_neg (m.not_up_zero k)]

theorem roundNat_small (m : Mode) {t : ℝ} (h0 : 0 < t) (h : t < 1 / 2) :
    roundNat m t = if m = .up then 1 else 0 := by
  have hfloor : ⌊t⌋₊ = 0 := Nat.floor_eq_zero.mpr (by linarith)
  have hup : m.Up 0 t ↔ m = .up := by
    cases m with
    | even =>
      refine iff_of_false ?_ (by decide)
      rintro (hlt | ⟨heq, -⟩)
      · linarith
      · linarith
    | away => exact iff_of_false (not_le.mpr h) (by decide)
    | down => exact iff_of_false id (by decide)
    | up => exact iff_of_true h0 rfl
  unfold roundNat
  rw [hfloor, Nat.cast_zero, sub_zero]
  by_cases hm : m = .up
  · rw [if_pos (hup.mpr hm), if_pos hm]
  · rw [if_neg (hup.not.mpr hm), if_neg hm]

theorem roundNat_mono (m : Mode) {z : ℝ} (hyz : y ≤ z) : roundNat m y ≤ roundNat m z := by
  have hfloor : ⌊y⌋₊ ≤ ⌊z⌋₊ := Nat.floor_le_floor hyz
  rcases Nat.lt_or_eq_of_le hfloor with hlt | heq
  · rcases roundNat_cases m y with hy | hy <;> rcases roundNat_cases m z with hz | hz <;> omega
  · -- the same integer part, so the fraction decides
    by_cases hup : m.Up ⌊y⌋₊ (y - ⌊y⌋₊)
    · have hupz : m.Up ⌊z⌋₊ (z - ⌊z⌋₊) := by
        rw [← heq]
        exact hup.mono (by linarith)
      unfold roundNat
      rw [if_pos hup, if_pos hupz, heq]
    · have hy : roundNat m y = ⌊y⌋₊ := if_neg hup
      rcases roundNat_cases m z with hz | hz <;> omega

theorem le_roundNat {m : Mode} (h : (k : ℝ) ≤ y) : k ≤ roundNat m y := by
  have := roundNat_mono m h
  rwa [roundNat_natCast] at this

theorem roundNat_le {m : Mode} (h : y ≤ k) : roundNat m y ≤ k := by
  have := roundNat_mono m h
  rwa [roundNat_natCast] at this

/-- How far a magnitude has to come to be rounded to `k` or above. -/
def Mode.Reaches : Mode → ℕ → ℝ → Prop
  | .even, k, y => (k : ℝ) - 1 / 2 < y ∨ (y = k - 1 / 2 ∧ k % 2 = 0)
  | .away, k, y => (k : ℝ) - 1 / 2 ≤ y
  | .down, k, y => (k : ℝ) ≤ y
  | .up, k, y => (k : ℝ) - 1 < y

theorem Mode.reaches_of_le (m : Mode) (h : (k : ℝ) ≤ y) : m.Reaches k y := by
  cases m with
  | even => exact Or.inl (by linarith)
  | away => exact (by linarith : (k : ℝ) - 1 / 2 ≤ y)
  | down => exact h
  | up => exact (by linarith : (k : ℝ) - 1 < y)

theorem Mode.Reaches.sub_one_le {m : Mode} (h : m.Reaches k y) : (k : ℝ) - 1 ≤ y := by
  cases m with
  | even => rcases h with h | ⟨h, -⟩ <;> linarith
  | away => exact le_trans (by linarith) h
  | down => exact le_trans (by linarith) h
  | up => exact le_of_lt h

theorem Mode.reaches_iff_up (m : Mode) (hk : 1 ≤ k) (hy : y < k) :
    m.Reaches k y ↔ m.Up (k - 1) (y - (k - 1 : ℕ)) := by
  rw [Nat.cast_sub hk, Nat.cast_one]
  cases m with
  | even =>
    have hodd : (k - 1) % 2 = 1 ↔ k % 2 = 0 := by omega
    simp only [Mode.Reaches, Mode.Up, hodd]
    constructor
    · rintro (h | ⟨h, hp⟩)
      · exact Or.inl (by linarith)
      · exact Or.inr ⟨by linarith, hp⟩
    · rintro (h | ⟨h, hp⟩)
      · exact Or.inl (by linarith)
      · exact Or.inr ⟨by linarith, hp⟩
  | away =>
    simp only [Mode.Reaches, Mode.Up]
    constructor <;> intro h <;> linarith
  | down => exact ⟨fun h => absurd hy (not_lt.mpr h), False.elim⟩
  | up =>
    simp only [Mode.Reaches, Mode.Up]
    constructor <;> intro h <;> linarith

theorem le_roundNat_iff {m : Mode} (hk : 1 ≤ k) (h0 : 0 ≤ y) :
    k ≤ roundNat m y ↔ m.Reaches k y := by
  by_cases hky : (k : ℝ) ≤ y
  · exact ⟨fun _ => m.reaches_of_le hky, fun _ => le_roundNat hky⟩
  · have hy : y < k := not_le.mp hky
    have hfloor : ⌊y⌋₊ < k := (Nat.floor_lt h0).mpr hy
    by_cases hclose : ⌊y⌋₊ = k - 1
    · rw [m.reaches_iff_up hk hy, ← hclose]
      unfold roundNat
      split
      · rename_i hup
        exact ⟨fun _ => hup, fun _ => by omega⟩
      · rename_i hup
        exact ⟨fun h => by omega, fun h => absurd h hup⟩
    · have hless : roundNat m y < k := by
        rcases roundNat_cases m y with h | h <;> omega
      refine ⟨fun h => absurd hless (Nat.not_lt.mpr h), fun h => ?_⟩
      have hge : (k - 1 : ℕ) ≤ ⌊y⌋₊ := by
        rw [Nat.le_floor_iff h0, Nat.cast_sub hk, Nat.cast_one]
        exact h.sub_one_le
      omega

/-- `s` is `y`, or odd and within one of it. -/
def Sticky (s : ℕ) (y : ℝ) : Prop :=
  y = s ∨ (s % 2 = 1 ∧ (s : ℝ) - 1 < y ∧ y < s + 1)

namespace Sticky

variable {s m : ℕ} {y : ℝ}

theorem exact (s : ℕ) : Sticky s (s : ℝ) := Or.inl rfl

theorem lt_iff (h : Sticky s y) (hm : m % 2 = 0) : y < m ↔ s < m := by
  rcases h with rfl | ⟨hodd, hlo, hhi⟩
  · exact Nat.cast_lt
  · constructor
    · intro hy
      by_contra hle
      have hms : m + 1 ≤ s := by omega
      have : ((m + 1 : ℕ) : ℝ) ≤ s := Nat.cast_le.mpr hms
      push_cast at this
      linarith
    · intro hs
      have : ((s + 1 : ℕ) : ℝ) ≤ m := Nat.cast_le.mpr (by omega)
      push_cast at this
      linarith

theorem le_iff (h : Sticky s y) (hm : m % 2 = 0) : y ≤ m ↔ s ≤ m := by
  rcases h with rfl | ⟨hodd, hlo, hhi⟩
  · exact Nat.cast_le
  · constructor
    · intro hy
      by_contra hle
      have hms : m + 1 ≤ s := by omega
      have : ((m + 1 : ℕ) : ℝ) ≤ s := Nat.cast_le.mpr hms
      push_cast at this
      linarith
    · intro hs
      have : ((s + 1 : ℕ) : ℝ) ≤ m := Nat.cast_le.mpr (by omega)
      push_cast at this
      linarith

theorem eq_iff (h : Sticky s y) (hm : m % 2 = 0) : y = m ↔ s = m := by
  have hle := h.le_iff hm
  have hlt := h.lt_iff hm
  constructor
  · intro hy
    have h1 := hle.mp hy.le
    have h2 : ¬ s < m := fun hs => absurd (hlt.mpr hs) (by rw [hy]; exact lt_irrefl _)
    omega
  · intro hs
    have h1 := hle.mpr hs.le
    have h2 : ¬ y < m := fun hy => absurd (hlt.mp hy) (by omega)
    exact le_antisymm h1 (not_lt.mp h2)

theorem nonneg (h : Sticky s y) : 0 ≤ y := by
  have := (h.lt_iff (m := 0) rfl).not
  push_cast at this
  exact not_lt.mp (this.mpr (by omega))

end Sticky

theorem or_one (q : ℕ) : q ||| 1 = 2 * (q / 2) + 1 := by
  apply Nat.eq_of_testBit_eq
  intro i
  rw [Nat.testBit_or]
  cases i with
  | zero => simp [Nat.testBit_zero]
  | succ i =>
    rw [Nat.testBit_succ, Nat.testBit_succ, Nat.testBit_succ]
    have h1 : (2 * (q / 2) + 1) / 2 = q / 2 := by omega
    rw [h1]
    simp

theorem sticky_between {q : ℕ} (hlo : (q : ℝ) < y) (hhi : y < q + 1) : Sticky (q ||| 1) y := by
  rw [or_one]
  rcases Nat.mod_two_eq_zero_or_one q with hq | hq
  · have h : 2 * (q / 2) + 1 = q + 1 := by omega
    rw [h]
    refine Or.inr ⟨by omega, ?_, ?_⟩ <;> push_cast <;> linarith
  · have h : 2 * (q / 2) + 1 = q := by omega
    rw [h]
    exact Or.inr ⟨hq, by linarith, hhi⟩

def jam (s n : ℕ) : ℕ := if s % 2 ^ n = 0 then s / 2 ^ n else s / 2 ^ n ||| 1

theorem jam_zero (s : ℕ) : jam s 0 = s := by
  unfold jam
  rw [pow_zero, Nat.mod_one, if_pos rfl, Nat.div_one]

theorem Sticky.jam {s : ℕ} (h : Sticky s y) (n : ℕ) : Sticky (Rounding.jam s n) (y / 2 ^ n) := by
  cases n with
  | zero => rwa [jam_zero, pow_zero, div_one]
  | succ n =>
    have hpos : (0 : ℝ) < 2 ^ (n + 1) := by positivity
    have heven : ∀ k : ℕ, k * 2 ^ (n + 1) % 2 = 0 := by
      intro k
      rw [Nat.pow_succ, ← Nat.mul_assoc]
      exact Nat.mul_mod_left _ _
    have hdiv := Nat.div_add_mod s (2 ^ (n + 1))
    rw [Nat.mul_comm] at hdiv
    unfold Rounding.jam
    split
    · have hs : s = s / 2 ^ (n + 1) * 2 ^ (n + 1) := by omega
      have hy : y = s := by
        have := (h.eq_iff (heven (s / 2 ^ (n + 1)))).mpr hs
        rw [this, ← hs]
      refine Or.inl ?_
      rw [hy, hs]
      push_cast
      rw [Nat.mul_div_cancel _ (Nat.two_pow_pos _)]
      field_simp
    · have hlow : s / 2 ^ (n + 1) * 2 ^ (n + 1) < s := by omega
      have hhigh : s < (s / 2 ^ (n + 1) + 1) * 2 ^ (n + 1) := by
        rw [Nat.add_mul, Nat.one_mul]
        omega
      refine sticky_between ?_ ?_
      · rw [lt_div_iff₀ hpos]
        have := not_le.mp ((h.le_iff (heven _)).not.mpr (Nat.not_le.mpr hlow))
        push_cast at this
        exact this
      · rw [div_lt_iff₀ hpos]
        have := (h.lt_iff (heven _)).mpr hhigh
        push_cast at this
        exact this

theorem Sticky.add_even {s : ℕ} (h : Sticky s y) {e : ℕ} (he : e % 2 = 0) :
    Sticky (e + s) (e + y) := by
  rcases h with rfl | ⟨hodd, hlo, hhi⟩
  · exact Or.inl (by push_cast; ring)
  · refine Or.inr ⟨by omega, ?_, ?_⟩ <;> push_cast <;> linarith

theorem Sticky.even_sub {s : ℕ} (h : Sticky s y) {e : ℕ} (he : e % 2 = 0) (hle : s ≤ e) :
    Sticky (e - s) (e - y) := by
  rcases h with rfl | ⟨hodd, hlo, hhi⟩
  · exact Or.inl (by rw [Nat.cast_sub hle])
  · refine Or.inr ⟨by omega, ?_, ?_⟩ <;> rw [Nat.cast_sub hle] <;> linarith

theorem Sticky.sub_even {s : ℕ} (h : Sticky s y) {e : ℕ} (he : e % 2 = 0) (hle : e ≤ s) :
    Sticky (s - e) (y - e) := by
  rcases h with rfl | ⟨hodd, hlo, hhi⟩
  · exact Or.inl (by rw [Nat.cast_sub hle])
  · refine Or.inr ⟨by omega, ?_, ?_⟩ <;> rw [Nat.cast_sub hle] <;> linarith

section

variable {s : ℕ} {y : ℝ} {j : ℕ}

theorem Sticky.floor (h : Sticky s y) (hj : 1 ≤ j) : ⌊y / 2 ^ j⌋₊ = s / 2 ^ j := by
  obtain ⟨i, rfl⟩ : ∃ i, j = i + 1 := ⟨j - 1, by omega⟩
  have hpos : (0 : ℝ) < 2 ^ (i + 1) := by positivity
  have heven : ∀ k : ℕ, k * 2 ^ (i + 1) % 2 = 0 := by
    intro k
    rw [Nat.pow_succ, ← Nat.mul_assoc]
    exact Nat.mul_mod_left _ _
  have hdiv := Nat.div_add_mod s (2 ^ (i + 1))
  rw [Nat.mul_comm] at hdiv
  rw [Nat.floor_eq_iff (div_nonneg h.nonneg hpos.le)]
  constructor
  · rw [le_div_iff₀ hpos]
    have := not_lt.mp ((h.lt_iff (heven (s / 2 ^ (i + 1)))).not.mpr (by omega))
    push_cast at this
    exact this
  · rw [div_lt_iff₀ hpos]
    have hhigh : s < (s / 2 ^ (i + 1) + 1) * 2 ^ (i + 1) := by
      rw [Nat.add_mul, Nat.one_mul]
      omega
    have := (h.lt_iff (heven _)).mpr hhigh
    push_cast at this
    exact this

theorem Sticky.fract (h : Sticky s y) (hj : 2 ≤ j) :
    (y / 2 ^ j - ⌊y / 2 ^ j⌋₊ = 0 ↔ s % 2 ^ j = 0) ∧
      (1 / 2 < y / 2 ^ j - ⌊y / 2 ^ j⌋₊ ↔ 2 ^ (j - 1) < s % 2 ^ j) ∧
      (y / 2 ^ j - ⌊y / 2 ^ j⌋₊ = 1 / 2 ↔ s % 2 ^ j = 2 ^ (j - 1)) := by
  rw [h.floor (by omega)]
  obtain ⟨i, rfl⟩ : ∃ i, j = i + 2 := ⟨j - 2, by omega⟩
  have hpos : (0 : ℝ) < 2 ^ (i + 2) := by positivity
  have hdiv := Nat.div_add_mod s (2 ^ (i + 2))
  rw [Nat.mul_comm] at hdiv
  have hhalf : (2 : ℕ) ^ (i + 2 - 1) = 2 * 2 ^ i := by
    rw [show i + 2 - 1 = i + 1 from rfl, Nat.pow_succ]
    ring
  have hfull : (2 : ℕ) ^ (i + 2) = 4 * 2 ^ i := by
    ring
  set q := s / 2 ^ (i + 2) with hq
  have heven0 : q * 2 ^ (i + 2) % 2 = 0 := by
    rw [hfull, show q * (4 * 2 ^ i) = 2 * (2 * (q * 2 ^ i)) by ring]
    exact Nat.mul_mod_right _ _
  have heven1 : (q * 2 ^ (i + 2) + 2 * 2 ^ i) % 2 = 0 := by
    rw [hfull, show q * (4 * 2 ^ i) + 2 * 2 ^ i = 2 * (2 * (q * 2 ^ i) + 2 ^ i) by ring]
    exact Nat.mul_mod_right _ _
  have hsplit : y / 2 ^ (i + 2) - q = (y - q * 2 ^ (i + 2)) / 2 ^ (i + 2) := by
    field_simp
  have hhalfR : (1 : ℝ) / 2 = (2 * 2 ^ i) / 2 ^ (i + 2) := by
    rw [pow_add]
    field_simp
  rw [hsplit, hhalf, hhalfR]
  refine ⟨?_, ?_, ?_⟩
  · rw [div_eq_zero_iff, or_iff_left hpos.ne', sub_eq_zero]
    have := h.eq_iff heven0
    push_cast at this
    rw [this]
    omega
  · rw [div_lt_div_iff_of_pos_right hpos, lt_sub_iff_add_lt]
    have := (h.le_iff heven1).not
    push_cast at this
    rw [not_le, not_le] at this
    rw [add_comm, this]
    omega
  · rw [div_left_inj' hpos.ne', sub_eq_iff_eq_add]
    have := h.eq_iff heven1
    push_cast at this
    rw [add_comm, this]
    omega

end

theorem roundNat_down (y : ℝ) : roundNat .down y = ⌊y⌋₊ := if_neg id

theorem roundNat_add_even (m : Mode) (hy : 0 ≤ y) (hk : k % 2 = 0) :
    roundNat m (y + k) = roundNat m y + k := by
  have hfloor : ⌊y + k⌋₊ = ⌊y⌋₊ + k := Nat.floor_add_natCast hy k
  have hfract : y + k - (⌊y⌋₊ + k : ℕ) = y - ⌊y⌋₊ := by
    push_cast
    ring
  have hup : m.Up (⌊y⌋₊ + k) (y - ⌊y⌋₊) ↔ m.Up ⌊y⌋₊ (y - ⌊y⌋₊) := by
    cases m with
    | even => rw [Mode.Up, Mode.Up, Nat.add_mod, hk, Nat.add_zero, Nat.mod_mod]
    | away => exact Iff.rfl
    | down => exact Iff.rfl
    | up => exact Iff.rfl
  unfold roundNat
  rw [hfloor, hfract]
  by_cases h : m.Up ⌊y⌋₊ (y - ⌊y⌋₊)
  · rw [if_pos h, if_pos (hup.mpr h)]
    omega
  · rw [if_neg h, if_neg (hup.not.mpr h)]

theorem roundNat_even_div (n : ℕ) {d : ℕ} (hd : 0 < d) :
    roundNat .even ((n : ℝ) / d) =
      if d < n % d * 2 ∨ n % d * 2 = d ∧ n / d % 2 = 1 then n / d + 1 else n / d := by
  have hd' : (0 : ℝ) < d := by exact_mod_cast hd
  have hfloor : ⌊(n : ℝ) / d⌋₊ = n / d := Nat.floor_div_eq_div n d
  have hfract : (n : ℝ) / d - (n / d : ℕ) = (n % d : ℕ) / d := by
    rw [sub_eq_iff_eq_add, div_add' _ _ _ hd'.ne', div_left_inj' hd'.ne']
    exact_mod_cast (Nat.mod_add_div' n d).symm
  have hup : Mode.even.Up (n / d) ((n % d : ℕ) / d) ↔
      d < n % d * 2 ∨ n % d * 2 = d ∧ n / d % 2 = 1 := by
    have hhalf : (1 : ℝ) / 2 < (n % d : ℕ) / d ↔ d < n % d * 2 := by
      rw [div_lt_div_iff₀ two_pos hd', one_mul]
      exact_mod_cast Iff.rfl
    have htie : ((n % d : ℕ) : ℝ) / d = 1 / 2 ↔ n % d * 2 = d := by
      rw [div_eq_div_iff hd'.ne' two_ne_zero, one_mul]
      exact_mod_cast Iff.rfl
    rw [Mode.Up, hhalf, htie]
  unfold roundNat
  rw [hfloor, hfract]
  by_cases h : d < n % d * 2 ∨ n % d * 2 = d ∧ n / d % 2 = 1
  · rw [if_pos h, if_pos (hup.mpr h)]
  · rw [if_neg h, if_neg (hup.not.mpr h)]

end Rsemu.Rounding
