import Rsemu.Float.Remainder

/-!
# The reduction loop

Software executes `FPREM` or `FPREM1` again and again on its own result until the reduction
is complete. Each partial step leaves less than `2^k` divisors, where it stopped at `k`, and
was made at more than `2^(62+k)` of them, so the steps come to an end; each takes away an even
multiple of the divisor, so the quotient the last step rounds has the parity of the whole
one, and the last remainder is that of the first dividend (`remainder_exact`).

The quotient's low three bits are another matter. A partial step reports none, and what it
takes away is a multiple of `2^k` divisors only: a step made at 64 or 65 binades apart
stops at `k = 1` or `k = 2` and can leave bits of the quotient behind that no later step
reports (`octant_bits_iff`).
-/

namespace Rsemu.Float

open Rounding

attribute [local instance] atLeastTwo_two

/-- What the loop did: each partial step with its dividend, and the step that completed it. -/
structure Reduction where
  earlier : List (F80 × Remainder)
  last : Remainder
  deriving DecidableEq

def Reduction.results (l : Reduction) : List Remainder := l.earlier.map Prod.snd ++ [l.last]

namespace F80

def reduce (b : F80) (ieee : Bool) (env : Env) : Nat → F80 → Option Reduction
  | 0, _ => none
  | fuel + 1, a =>
    (remainder a b ieee env).bind fun r =>
      if r.incomplete then
        (reduce b ieee env fuel r.value).map fun l => ⟨(a, r) :: l.earlier, l.last⟩
      else some ⟨[], r⟩

/--
A partial step on `a` that takes away a multiple of the divisor that is not one of eight of
them: 64 binades apart with a quotient that four does not divide, or 65 apart with an odd one.
-/
def missesOctants (a b : F80) : Bool :=
  match a.operand, b.operand with
  | some na, some nb =>
    let q := na.2 * 2 ^ 63 / nb.2
    (na.1 - nb.1 == 64 && q % 4 != 0) || (na.1 - nb.1 == 65 && q % 2 != 0)
  | _, _ => false

end F80

noncomputable def impliedQuotient (ieee : Bool) (z : ℝ) : ℝ :=
  signed (decide (z < 0)) (roundNat (quotientMode ieee) |z|)

/-- A loop that came to its end, of the magnitude `x` by `y`. -/
structure Reduced (b : F80) (ieee sign : Bool) (x y : ℝ) (l : Reduction) : Prop where
  complete : l.last.incomplete = false
  quiet : ∀ r ∈ l.results, r.flags.Quiet
  value : ∃ s m, l.last.value.Is s m ∧
    signed s m = signed sign (x - roundNat (quotientMode ieee) (x / y) * y) ∧ (m = 0 → s = sign)
  octants : l.last.quotient = roundNat (quotientMode ieee) (x / y) % 8 ↔
    ∀ e ∈ l.earlier, e.1.missesOctants b = false
  near : x < 2 ^ 62 * y → l.earlier = []

theorem Completes.reduced {ieee sign : Bool} {x y : ℝ} {r : Remainder} (b : F80)
    (h : Completes ieee sign x y r) : Reduced b ieee sign x y ⟨[], r⟩ where
  complete := h.incomplete
  quiet := by
    intro r' hr'
    rw [show r' = r by simpa [Reduction.results] using hr']
    exact h.quiet
  value := h.value
  octants := iff_of_true h.quotient fun e he => absurd he (List.not_mem_nil)
  near := fun _ => rfl

theorem missesOctants_eq_false {a b : F80} {na nb : Int × Nat} (ha : a.operand = some na)
    (hb : b.operand = some nb) {k : ℕ} (hk : 1 ≤ k) (hgap : na.1 - nb.1 = 63 + k) :
    a.missesOctants b = false ↔ na.2 * 2 ^ 63 / nb.2 * 2 ^ k % 8 = 0 := by
  obtain ⟨q, hq⟩ : ∃ q, q = na.2 * 2 ^ 63 / nb.2 := ⟨_, rfl⟩
  have hbool : a.missesOctants b = true ↔
      na.1 - nb.1 = 64 ∧ q % 4 ≠ 0 ∨ na.1 - nb.1 = 65 ∧ q % 2 ≠ 0 := by
    unfold F80.missesOctants
    rw [ha, hb]
    simp only [← hq, Bool.or_eq_true, Bool.and_eq_true, beq_iff_eq, bne_iff_ne]
  rw [← Bool.not_eq_true, hbool, ← hq]
  rcases (by omega : k = 1 ∨ k = 2 ∨ 3 ≤ k) with rfl | rfl | hbig
  · omega
  · omega
  · obtain ⟨j, rfl⟩ : ∃ j, k = j + 3 := ⟨k - 3, by omega⟩
    have hmul : q * 2 ^ (j + 3) % 8 = 0 := by
      rw [pow_add, ← mul_assoc]
      exact Nat.mul_mod_left _ _
    exact iff_of_true (by omega) hmul

theorem Shortens.reduced {a b : F80} {ieee sign : Bool} {x y : ℝ} {k : ℕ} {r : Remainder}
    {l : Reduction} {na nb : Int × Nat} (ha : a.operand = some na) (hb : b.operand = some nb)
    (hy : 0 < y) (hk : 1 ≤ k) (hgap : na.1 - nb.1 = 63 + k)
    (h : Shortens sign x y k (na.2 * 2 ^ 63 / nb.2 * 2 ^ k) r)
    (hl : Reduced b ieee sign (x - (na.2 * 2 ^ 63 / nb.2 * 2 ^ k : ℕ) * y) y l) :
    Reduced b ieee sign x y ⟨(a, r) :: l.earlier, l.last⟩ := by
  have hmiss := missesOctants_eq_false ha hb hk hgap
  obtain ⟨q, hq⟩ : ∃ q, q = na.2 * 2 ^ 63 / nb.2 := ⟨_, rfl⟩
  obtain ⟨m, hm⟩ : ∃ m, m = q * 2 ^ k := ⟨_, rfl⟩
  rw [← hq, ← hm] at h hl hmiss
  have heven : m % 2 = 0 := by
    obtain ⟨j, rfl⟩ : ∃ j, k = j + 1 := ⟨k - 1, by omega⟩
    rw [hm, pow_succ, ← mul_assoc]
    exact Nat.mul_mod_left _ _
  -- the whole quotient is what was taken and the quotient of what is left
  have hround : roundNat (quotientMode ieee) (x / y) =
      roundNat (quotientMode ieee) ((x - m * y) / y) + m := by
    have hdiv : x / y = (x - m * y) / y + m := by
      field_simp
      ring
    rw [hdiv]
    exact roundNat_add_even _ (div_nonneg h.nonneg hy.le) heven
  refine ⟨hl.complete, ?_, ?_, ?_, ?_⟩
  · intro r' hr'
    rw [Reduction.results, List.map_cons, List.cons_append, List.mem_cons] at hr'
    rcases hr' with rfl | hmem
    · exact h.quiet
    · exact hl.quiet r' hmem
  · obtain ⟨s, m', his, hval, hzero⟩ := hl.value
    refine ⟨s, m', his, ?_, hzero⟩
    rw [hval, hround]
    congr 1
    push_cast
    ring
  · rw [hround]
    simp only [List.forall_mem_cons, hmiss]
    by_cases hbig : 3 ≤ k
    · -- a multiple of eight divisors: the low bits are those of what is left
      have hmul : m % 8 = 0 := by
        obtain ⟨j, rfl⟩ : ∃ j, k = j + 3 := ⟨k - 3, by omega⟩
        rw [hm, pow_add, ← mul_assoc]
        exact Nat.mul_mod_left _ _
      rw [Nat.add_mod, hmul, Nat.add_zero, Nat.mod_mod, hl.octants]
      exact ⟨fun h => ⟨rfl, h⟩, And.right⟩
    · -- so little is left that the next step is the last one
      have hnil : l.earlier = [] := by
        refine hl.near (lt_trans h.lt ?_)
        exact mul_lt_mul_of_pos_right (pow_lt_pow_right₀ (by norm_num) (by omega)) hy
      have hlast := hl.octants.mpr (by rw [hnil]; exact fun e he => absurd he List.not_mem_nil)
      rw [hlast, hnil]
      constructor
      · intro h
        exact ⟨by omega, fun e he => absurd he List.not_mem_nil⟩
      · intro h
        omega
  · intro hnear
    have hge : (2 : ℝ) ^ 62 ≤ 2 ^ (62 + k) := pow_le_pow_right₀ (by norm_num) (by omega)
    have := mul_le_mul_of_nonneg_right hge hy.le
    exact absurd hnear (not_lt.mpr (le_trans this h.far.le))

theorem reduce_run {b : F80} {t : Bool} {y : ℝ} {env : Env} (hout : env.flushOutputs = false)
    (hin : env.subnormalInputs.flushes = false) (hb : b.Is t y) (hy : 0 < y) (ieee sign : Bool) :
    ∀ (n : ℕ) {a : F80} {x : ℝ}, a.Is sign x → 0 ≤ x → x < 2 ^ n * y →
      ∃ l, (∀ fuel, n < fuel → F80.reduce b ieee env fuel a = some l) ∧
        Reduced b ieee sign x y l := by
  intro n
  induction n using Nat.strong_induction_on with
  | _ n ih =>
    intro a x ha hx hn
    obtain ⟨r, hr, hstep⟩ := remainder_step hout hin ha hb hx hy ieee
    rcases hstep with hdone | ⟨na, nb, k, hna, hnb, hk, hgap, hshort⟩
    · refine ⟨⟨[], r⟩, ?_, hdone.reduced b⟩
      intro fuel hfuel
      obtain ⟨f, rfl⟩ : ∃ f, fuel = f + 1 := ⟨fuel - 1, by omega⟩
      unfold F80.reduce
      rw [hr, Option.bind_some, hdone.incomplete]
      rfl
    · have hkn : k < n := by
        have hlt : (2 : ℝ) ^ (62 + k) < 2 ^ n :=
          lt_of_mul_lt_mul_right (lt_trans hshort.far hn) hy.le
        have := (pow_lt_pow_iff_right₀ (by norm_num : (1 : ℝ) < 2)).mp hlt
        omega
      obtain ⟨l, hl, hred⟩ := ih k hkn hshort.value hshort.nonneg hshort.lt
      refine ⟨⟨(a, r) :: l.earlier, l.last⟩, ?_, hshort.reduced hna hnb hy hk hgap hred⟩
      intro fuel hfuel
      obtain ⟨f, rfl⟩ : ∃ f, fuel = f + 1 := ⟨fuel - 1, by omega⟩
      unfold F80.reduce
      rw [hr, Option.bind_some, hshort.incomplete, if_pos rfl, hl f (by omega), Option.map_some]

theorem F80.Is.of_decode {v : F80} {p : Parts} (hp : v.decode = some p) (h : p.IsFinite) :
    v.Is p.sign (p.frac * 2 ^ p.exp) := ⟨p, hp, Parts.datum_eq h⟩

theorem Parts.magnitude_nonneg (p : Parts) : (0 : ℝ) ≤ p.frac * 2 ^ p.exp :=
  mul_nonneg (Nat.cast_nonneg _) (two_zpow_pos _).le

theorem Parts.magnitude_pos {p : Parts} (h : p.value ≠ 0) : (0 : ℝ) < p.frac * 2 ^ p.exp := by
  refine lt_of_le_of_ne p.magnitude_nonneg fun h0 => h ?_
  rw [Parts.value, ← h0]
  cases p.sign <;> simp [signed]

theorem abs_signed_nonneg {s : Bool} {z : ℝ} (hz : 0 ≤ z) : |signed s z| = z := by
  cases s <;> simp [signed, abs_of_nonneg hz]

theorem impliedQuotient_signed (ieee s : Bool) {z : ℝ} (hz : 0 ≤ z) :
    impliedQuotient ieee (signed s z) = signed s (roundNat (quotientMode ieee) z) := by
  unfold impliedQuotient
  rw [abs_signed_nonneg hz]
  rcases hz.eq_or_lt with rfl | hpos
  · have h0 : roundNat (quotientMode ieee) 0 = 0 := by
      exact_mod_cast roundNat_natCast (quotientMode ieee) 0
    rw [h0]
    simp [signed]
  · congr 1
    apply Bool.eq_iff_iff.mpr
    rw [decide_eq_true_eq]
    exact signed_neg_iff hpos

theorem signed_remainder (s t : Bool) (x y : ℝ) (n : ℝ) :
    signed s (x - n * y) = signed s x - signed t y * signed (s ^^ t) n := by
  cases s <;> cases t <;> simp [signed] <;> ring

section Loop

variable {a b : F80} {x y : Parts} {env : Env} (hout : env.flushOutputs = false)
  (hin : env.subnormalInputs.flushes = false) (ha : a.decode = some x) (hb : b.decode = some y)
  (hx : x.IsFinite) (hy : y.IsFinite) (hne : y.value ≠ 0)

include hout hin ha hb hx hy hne

theorem reduce_ends (ieee : Bool) :
    ∃ l n, (∀ fuel, n ≤ fuel → F80.reduce b ieee env fuel a = some l) ∧
      Reduced b ieee x.sign (x.frac * 2 ^ x.exp) (y.frac * 2 ^ y.exp) l := by
  have hpos := Parts.magnitude_pos hne
  obtain ⟨n, hn⟩ := pow_unbounded_of_one_lt (x.frac * 2 ^ x.exp / (y.frac * 2 ^ y.exp) : ℝ)
    (by norm_num : (1 : ℝ) < 2)
  obtain ⟨l, hl, hred⟩ := reduce_run hout hin (F80.Is.of_decode hb hy) hpos ieee x.sign n
    (F80.Is.of_decode ha hx) x.magnitude_nonneg ((div_lt_iff₀ hpos).mp hn)
  exact ⟨l, n + 1, fun fuel hfuel => hl fuel (by omega), hred⟩

/--
**`FPREM` and `FPREM1` are exact.** On finite operands and a divisor other than zero, in
either mode, the loop comes to an end; no step of it raises inexact, overflow or underflow;
and what the last step delivers is exactly `a - b * q`, for `q` the quotient rounded toward
zero or to nearest with ties to even, with the sign of `a` where it is zero.
-/
theorem remainder_exact (ieee : Bool) :
    ∃ l z, (∃ n, ∀ fuel, n ≤ fuel → F80.reduce b ieee env fuel a = some l) ∧
      l.last.incomplete = false ∧
      (∀ r ∈ l.results, r.flags.inexact = false ∧ r.flags.overflow = false ∧
        r.flags.underflow = false) ∧
      l.last.value.decode = some z ∧ z.IsFinite ∧
      z.value = x.value - y.value * impliedQuotient ieee (x.value / y.value) ∧
      (z.value = 0 → z.sign = x.sign) := by
  obtain ⟨l, n, hl, hred⟩ := reduce_ends hout hin ha hb hx hy hne ieee
  obtain ⟨s, m, ⟨z, hz, hd⟩, hval, hzero⟩ := hred.value
  obtain ⟨hfin, hs, hm⟩ := Parts.of_datum hd
  have hpos := Parts.magnitude_pos hne
  have hquot : impliedQuotient ieee (x.value / y.value) = signed (x.sign ^^ y.sign)
      (roundNat (quotientMode ieee) (x.frac * 2 ^ x.exp / (y.frac * 2 ^ y.exp))) := by
    rw [Parts.value, Parts.value, ← signed_div,
      impliedQuotient_signed ieee _ (div_nonneg x.magnitude_nonneg hpos.le)]
  refine ⟨l, z, ⟨n, hl⟩, hred.complete, ?_, hz, hfin, ?_, ?_⟩
  · intro r hr
    have hquiet := hred.quiet r hr
    exact ⟨hquiet.inexact, hquiet.overflow, hquiet.underflow⟩
  · rw [hquot, Parts.value, Parts.value, Parts.value, ← signed_remainder, hs, hm, hval]
  · intro h0
    rw [hs]
    refine hzero ?_
    rw [← hm]
    by_contra hne0
    have hzpos : (0 : ℝ) < z.frac * 2 ^ z.exp := lt_of_le_of_ne z.magnitude_nonneg (Ne.symm hne0)
    exact signed_ne_zero hzpos h0

/--
**The quotient bits of `FPREM` are right exactly when no step misses an octant.** When the loop
comes to its end, the quotient of the last step is the low three bits of the whole quotient if
and only if no partial step was made 64 binades apart with a quotient that four does not divide
or 65 binades apart with an odd one.
-/
theorem octant_bits_iff :
    ∃ l, (∃ n, ∀ fuel, n ≤ fuel → F80.reduce b false env fuel a = some l) ∧
      l.last.incomplete = false ∧
      (l.last.quotient = ⌊|x.value / y.value|⌋₊ % 8 ↔
        ∀ e ∈ l.earlier, e.1.missesOctants b = false) := by
  obtain ⟨l, n, hl, hred⟩ := reduce_ends hout hin ha hb hx hy hne false
  have hfloor : ⌊|x.value / y.value|⌋₊ = roundNat (quotientMode false)
      (x.frac * 2 ^ x.exp / (y.frac * 2 ^ y.exp)) := by
    rw [show quotientMode false = .down from rfl, roundNat_down, Parts.value, Parts.value,
      ← signed_div, abs_signed_nonneg (div_nonneg x.magnitude_nonneg y.magnitude_nonneg)]
  refine ⟨l, ⟨n, hl⟩, hred.complete, ?_⟩
  rw [hfloor]
  exact hred.octants

end Loop

/-- Just over one by the smallest subnormal, with the quotient rounded to nearest. -/
theorem remainder_exact_subnormal :
    ∃ l z, (∃ n, ∀ fuel, n ≤ fuel →
        F80.reduce (F80.new 0 1) true .x87 fuel (F80.new 16383 (2 ^ 63 + 1)) = some l) ∧
      l.last.incomplete = false ∧
      (∀ r ∈ l.results, r.flags.inexact = false ∧ r.flags.overflow = false ∧
        r.flags.underflow = false) ∧
      l.last.value.decode = some z ∧ z.IsFinite ∧
      z.value = (⟨false, -63, 2 ^ 63 + 1, .finite, false⟩ : Parts).value -
        (⟨false, -16445, 1, .finite, false⟩ : Parts).value *
          impliedQuotient true ((⟨false, -63, 2 ^ 63 + 1, .finite, false⟩ : Parts).value /
            (⟨false, -16445, 1, .finite, false⟩ : Parts).value) ∧
      (z.value = 0 → z.sign = false) :=
  remainder_exact rfl rfl (by decide) (by decide) (Or.inr rfl) (Or.inr rfl)
    (signed_ne_zero (mul_pos (by norm_num) (two_zpow_pos _))) true

/-- Three times `2^64` by one: a partial step 65 binades apart, with an even quotient. -/
theorem octant_bits_even :
    ∃ l, (∃ n, ∀ fuel, n ≤ fuel →
        F80.reduce (F80.new 16383 (2 ^ 63)) false .x87 fuel (F80.new 16448 (3 * 2 ^ 62)) = some l) ∧
      l.last.incomplete = false ∧
      (l.last.quotient = ⌊|(⟨false, 2, 3 * 2 ^ 62, .finite, false⟩ : Parts).value /
          (⟨false, -63, 2 ^ 63, .finite, false⟩ : Parts).value|⌋₊ % 8 ↔
        ∀ e ∈ l.earlier, e.1.missesOctants (F80.new 16383 (2 ^ 63)) = false) :=
  octant_bits_iff rfl rfl (by decide) (by decide) (Or.inr rfl) (Or.inr rfl)
    (signed_ne_zero (mul_pos (by norm_num) (two_zpow_pos _)))

/--
`2^64 + 2` by one. The partial step, 64 binades apart, takes all of it away and reports no
quotient; the last step finds a zero and reports 0, where the quotient's low bits are 2.
-/
theorem octant_bits_lost :
    ¬ ∀ (a b : F80) (x y : Parts), a.decode = some x → b.decode = some y → x.IsFinite →
      y.IsFinite → y.value ≠ 0 → ∀ fuel l, F80.reduce b false .x87 fuel a = some l →
        l.last.quotient = ⌊|x.value / y.value|⌋₊ % 8 := by
  intro h
  have hrun := h (F80.new 16447 (2 ^ 63 + 1)) (F80.new 16383 (2 ^ 63))
    ⟨false, 1, 2 ^ 63 + 1, .finite, false⟩ ⟨false, -63, 2 ^ 63, .finite, false⟩ (by decide)
    (by decide) (Or.inr rfl) (Or.inr rfl)
    (signed_ne_zero (mul_pos (by norm_num) (two_zpow_pos _))) 2
    ⟨[(F80.new 16447 (2 ^ 63 + 1), ⟨F80.new 0 0, .none, 0, true⟩)], ⟨F80.new 0 0, .none, 0, false⟩⟩
    (by decide +kernel)
  have hone : (⟨false, -63, 2 ^ 63, .finite, false⟩ : Parts).value = 1 := by
    norm_num [Parts.value, signed]
  have hbig : (⟨false, 1, 2 ^ 63 + 1, .finite, false⟩ : Parts).value =
      ((2 ^ 64 + 2 : ℕ) : ℝ) := by
    norm_num [Parts.value, signed]
  rw [hone, hbig, div_one, abs_of_nonneg (Nat.cast_nonneg _), Nat.floor_natCast] at hrun
  cases hrun

end Rsemu.Float
