import Rsemu.Float.Correct
import Rsemu.Float.Enclosure

/-!
# Rounding keeps the order

Rounding in one direction is monotone on the magnitudes of one sign, also where they overflow, and
moves no number past zero. So a larger exact result never becomes a smaller number
(`correctlyRounded_mono`), and an operation is as monotone as the real one it rounds.
-/

namespace Rsemu.Float

namespace Datum

/-- Both give a result, the first no more than the second. -/
inductive NoMore : Datum → Datum → Prop where
  | num {s s' : Bool} {x y : ℝ} (h : signed s x ≤ signed s' y) : NoMore (.num s x) (.num s' y)
  | below {d : Datum} (h : d ≠ .nan) : NoMore (.inf true) d
  | above {d : Datum} (h : d ≠ .nan) : NoMore d (.inf false)

/-- The second is as far out as the first, on the side of a sign. -/
def Farther (sign : Bool) (d d' : Datum) : Prop := if sign then d'.NoMore d else d.NoMore d'

theorem farther_num {sign : Bool} {x y : ℝ} (h : x ≤ y) :
    Farther sign (.num sign x) (.num sign y) := by
  cases sign with
  | false => exact .num h
  | true => exact .num (neg_le_neg h)

theorem farther_inf {sign : Bool} {d : Datum} (h : d ≠ .nan) : Farther sign d (.inf sign) := by
  cases sign with
  | false => exact .above h
  | true => exact .below h

theorem NoMore.across {d d' : Datum} {s s' : Bool} (h : d.NoMore (.num s 0))
    (h' : NoMore (.num s' 0) d') : d.NoMore d' := by
  have hzero : ∀ s : Bool, signed s 0 = 0 := fun s => by cases s <;> simp [signed]
  cases h with
  | num h =>
    cases h' with
    | num h' =>
      rw [hzero] at h h'
      exact .num (h.trans h')
    | above => exact .above Datum.noConfusion
  | below =>
    cases h' with
    | num => exact .below Datum.noConfusion
    | above => exact .above Datum.noConfusion

end Datum

open Datum

section Rounding

variable {spec : Spec} {round : Round} {x y : ℝ}

theorem overflowing_farther (hs : spec.Sane) (sign : Bool) (hx : 0 < x) (hxy : x ≤ y) :
    Farther sign (overflowing sign x spec round) (overflowing sign y spec round) := by
  have hr := Spec.rounded_mono (m := round.mode sign) (one_le_two.trans hs.two_le_precision) hx hxy
  unfold overflowing
  by_cases hxover : spec.largestValue < spec.rounded (round.mode sign) x
  · rw [if_pos hxover, if_pos (hxover.trans_le hr)]
    split_ifs
    · exact farther_num le_rfl
    · exact farther_inf Datum.noConfusion
  · split_ifs
    · exact farther_num (not_lt.mp hxover)
    · exact farther_inf Datum.noConfusion
    · exact farther_num hr

theorem farther_overflowing (hs : spec.Sane) (sign : Bool) :
    Farther sign (.num sign 0) (overflowing sign x spec round) := by
  unfold overflowing
  split_ifs
  · exact farther_num ((two_zpow_pos _).le.trans (Spec.pow_le_largestValue hs))
  · exact farther_inf Datum.noConfusion
  · exact farther_num (spec.rounded_nonneg _ x)

theorem correctlyRounded_nonneg (hs : spec.Sane) {z : ℝ} (hz : 0 ≤ z) (s : Bool) :
    (Datum.num s 0).NoMore (correctlyRounded s z spec round) := by
  unfold correctlyRounded
  split_ifs
  · exact .num le_rfl
  · rw [decide_eq_false hz.not_gt]
    have hzero : signed s 0 ≤ signed false 0 := by cases s <;> simp [signed]
    exact (Datum.NoMore.num hzero).across (farther_overflowing hs false)

theorem correctlyRounded_nonpos (hs : spec.Sane) {z : ℝ} (hz : z < 0) (s : Bool) :
    (correctlyRounded s z spec round).NoMore (.num true 0) := by
  unfold correctlyRounded
  rw [if_neg hz.ne, decide_eq_true hz]
  exact farther_overflowing hs true

theorem correctlyRounded_mono (hs : spec.Sane) {z w : ℝ} (hzw : z ≤ w) (s s' : Bool) :
    (correctlyRounded s z spec round).NoMore (correctlyRounded s' w spec round) := by
  rcases lt_or_ge w 0 with hw | hw
  · have hz := hzw.trans_lt hw
    unfold correctlyRounded
    rw [if_neg hz.ne, if_neg hw.ne, decide_eq_true hz, decide_eq_true hw]
    exact overflowing_farther hs true (abs_pos.mpr hw.ne) (abs_le_abs_of_nonpos hw.le hzw)
  rcases lt_trichotomy z 0 with hz | rfl | hz
  · exact (correctlyRounded_nonpos hs hz s).across (correctlyRounded_nonneg hs hw s')
  · rw [correctlyRounded, if_pos rfl]
    exact (NoMore.num (le_refl (signed s 0))).across (correctlyRounded_nonneg hs hw s')
  · have hw := hz.trans_le hzw
    unfold correctlyRounded
    rw [if_neg hz.ne', if_neg hw.ne', decide_eq_false hz.not_gt, decide_eq_false hw.not_gt]
    exact overflowing_farther hs false (abs_pos.mpr hz.ne') (abs_le_abs_of_nonneg hz.le hzw)

end Rounding

namespace Format

variable {F : Format} {env : Env}

def NoMore (F : Format) (r r' : Option (Nat × Flags)) : Prop :=
  ∃ bits flags bits' flags', r = some (bits, flags) ∧ r' = some (bits', flags') ∧
    (F.decode bits).datum.NoMore (F.decode bits').datum

theorem Delivers.mono {r r' : Option (Nat × Flags)} {s s' : Bool} {z w : ℝ}
    (h : F.Delivers env r s z) (h' : F.Delivers env r' s' w) (hzw : z ≤ w) : F.NoMore r r' := by
  obtain ⟨bits, flags, hr, hd⟩ := h
  obtain ⟨bits', flags', hr', hd'⟩ := h'
  refine ⟨bits, flags, bits', flags', hr, hr', ?_⟩
  rw [hd, hd']
  exact correctlyRounded_mono F.spec_sane hzw s s'

noncomputable def value (F : Format) (bits : Nat) : ℝ := (F.decode bits).value

/-- The six operations of an interchange format, with operands that grow or shrink. -/
structure Monotone (F : Format) (env : Env) (a a' b b' c c' : Nat) : Prop where
  add : F.value a ≤ F.value a' → F.value b ≤ F.value b' →
    F.NoMore (F.add a b env) (F.add a' b' env)
  sub : F.value a ≤ F.value a' → F.value b' ≤ F.value b →
    F.NoMore (F.sub a b env) (F.sub a' b' env)
  mul : 0 ≤ F.value a → F.value a ≤ F.value a' → 0 ≤ F.value b → F.value b ≤ F.value b' →
    F.NoMore (F.mul a b env) (F.mul a' b' env)
  div : 0 ≤ F.value a → F.value a ≤ F.value a' → 0 < F.value b' → F.value b' ≤ F.value b →
    F.NoMore (F.div a b env) (F.div a' b' env)
  sqrt : 0 ≤ F.value a → F.value a ≤ F.value a' → F.NoMore (F.sqrt a env) (F.sqrt a' env)
  fma : 0 ≤ F.value a → F.value a ≤ F.value a' → 0 ≤ F.value b → F.value b ≤ F.value b' →
    F.value c ≤ F.value c' → F.NoMore (F.fma a b c env) (F.fma a' b' c' env)

/-- **The arithmetic keeps the order**, in every rounding direction, overflow included. -/
theorem operations_monotone (hout : env.flushOutputs = false)
    (hin : env.subnormalInputs.flushes = false) {a a' b b' c c' : Nat}
    (hfinite : ∀ n ∈ [a, a', b, b', c, c'], (F.decode n).IsFinite) :
    F.Monotone env a a' b b' c c' := by
  simp only [List.forall_mem_cons, List.not_mem_nil, false_imp_iff, implies_true,
    and_true] at hfinite
  obtain ⟨ha, ha', hb, hb', hc, hc'⟩ := hfinite
  have h := Format.correctly_rounded hout hin ha hb hc
  have h' := Format.correctly_rounded hout hin ha' hb' hc'
  exact {
    add := fun hx hy => h.add.mono h'.add (add_le_add hx hy)
    sub := fun hx hy => h.sub.mono h'.sub (sub_le_sub hx hy)
    mul := fun hx0 hx hy0 hy => h.mul.mono h'.mul (mul_le_mul hx hy hy0 (hx0.trans hx))
    div := fun hx0 hx hy0 hy => (h.div (hy0.trans_le hy).ne').mono (h'.div hy0.ne')
      (div_le_div₀ (hx0.trans hx) hx hy0 hy)
    sqrt := fun hx0 hx => (h.sqrt hx0).mono (h'.sqrt (hx0.trans hx)) (Real.sqrt_le_sqrt hx)
    fma := fun hx0 hx hy0 hy hu => h.fma.mono h'.fma
      (add_le_add (mul_le_mul hx hy hy0 (hx0.trans hx)) hu) }

/-- One and two are added to one, in binary32. -/
theorem operations_monotone_one :
    b32.NoMore (b32.add 0x3f800000 0x3f800000 .riscv) (b32.add 0x40000000 0x3f800000 .riscv) := by
  have hone : b32.decode 0x3f800000 = ⟨false, -23, 8388608, .finite, false⟩ := by decide
  have htwo : b32.decode 0x40000000 = ⟨false, -22, 8388608, .finite, false⟩ := by decide
  have hfinite : ∀ n ∈ [0x3f800000, 0x40000000, 0x3f800000, 0x3f800000, 0, 0],
      (b32.decode n).IsFinite := by
    unfold Parts.IsFinite
    decide
  refine (operations_monotone rfl rfl hfinite).add ?_ le_rfl
  unfold value
  rw [hone, htwo]
  norm_num [Parts.value, signed]

end Format

end Rsemu.Float
