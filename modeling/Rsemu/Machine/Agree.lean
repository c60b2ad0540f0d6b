import Rsemu.Machine.Resolver
import Mathlib.Algebra.Order.Field.Rat
import Mathlib.Data.Int.Cast.Field
import Mathlib.Data.Rat.Lemmas
import Mathlib.Tactic.FieldSimp
import Mathlib.Tactic.Ring

/-!
# One expression, two evaluators

A loop bound, a name, a frequency and a clock's scale are evaluated over exact rationals; a
property, a map's base and its size over integers, where a division drops its remainder. Both
are compared with what the expression comes to among the rationals.

The first never differs from it (`evalRational_exact`). The second does not as long as every
division comes out whole (`value_exact`), and the first division that does not is a place
where the two part (`agree_iff`).
-/

namespace Rsemu.Machine

open Fallible

def BinOp.exact (op : BinOp) (x y : ℚ) : ℚ :=
  match op with
  | .add => x + y
  | .sub => x - y
  | .mul => x * y
  | .div => x / y
  | .rem => (x.num.tmod y.num : Int)

/-- **The number an expression comes to**, whatever its suffixes and wherever it is written. -/
def Expr.exact : Expr → ℚ
  | .num lit _ => lit.value.toNat
  | .unary .neg operand _ => -operand.exact
  | .binary op lhs rhs _ => op.exact lhs.exact rhs.exact
  | _ => 0

def Expr.parts : Expr → List Expr
  | .unary op operand span => .unary op operand span :: operand.parts
  | .binary op lhs rhs span => .binary op lhs rhs span :: (lhs.parts ++ rhs.parts)
  | other => [other]

/-- **No division has a remainder.** -/
def Expr.WholeDivisions : Expr → Prop
  | .unary _ operand _ => operand.WholeDivisions
  | .binary op lhs rhs _ =>
    lhs.WholeDivisions ∧ rhs.WholeDivisions ∧ (op = .div → (lhs.exact / rhs.exact).den = 1)
  | _ => True

namespace Rational

def toRat (r : Rational) : ℚ := r.num / r.den

theorem toRat_reduce {num den : Int} (h : 0 < den) : (reduce num den h).toRat = num / den := by
  have hgcd : ((num.gcd den : Nat) : ℚ) ≠ 0 := by
    have := Int.gcd_pos_of_ne_zero_right num (show den ≠ 0 by omega)
    exact_mod_cast this.ne'
  have hnum : ((num / num.gcd den : Int) : ℚ) = num / num.gcd den := by
    rw [Int.cast_div (Int.gcd_dvd_left ..) (by exact_mod_cast hgcd), Int.cast_natCast]
  have hden : ((den / num.gcd den : Int) : ℚ) = den / num.gcd den := by
    rw [Int.cast_div (Int.gcd_dvd_right ..) (by exact_mod_cast hgcd), Int.cast_natCast]
  unfold toRat reduce
  rw [hnum, hden, div_div_div_cancel_right₀ hgcd]

variable {a r : Rational}

theorem toRat_new {num den : Int} (h : new num den = some r) : r.toRat = num / den ∧ den ≠ 0 := by
  unfold new at h
  split_ifs at h with hmin hpos hneg
  · cases h
    exact ⟨toRat_reduce hpos, by omega⟩
  · cases h
    rw [toRat_reduce, Int.cast_neg, Int.cast_neg, neg_div_neg_eq]
    exact ⟨rfl, by omega⟩

theorem den_ne_zero (r : Rational) : (r.den : ℚ) ≠ 0 := by
  have := r.den_pos
  exact_mod_cast this.ne'

theorem toInteger_eq_some {n : Int} : r.toInteger = some n ↔ r.toRat = n := by
  unfold toInteger toRat
  constructor
  · intro h
    split at h
    · rename_i hden
      cases h
      rw [hden, Int.cast_one, div_one]
    · cases h
  · intro h
    have hmul : r.num = n * r.den := by
      rw [div_eq_iff r.den_ne_zero] at h
      exact_mod_cast h
    have hden : r.den = 1 := by
      have hgcd := r.reduced
      rw [hmul, Int.gcd_mul_left_left] at hgcd
      have := r.den_pos
      omega
    rw [if_pos hden, hmul, hden, Int.mul_one]

theorem i128_eq {x y : Int} (h : i128 x = some y) : y = x := by
  unfold i128 at h
  split at h
  · exact (Option.some.inj h).symm
  · cases h

theorem toRat_checkedAdd {b : Rational} (h : a.checkedAdd b = some r) :
    r.toRat = a.toRat + b.toRat := by
  simp only [checkedAdd, Option.bind_eq_some_iff] at h
  obtain ⟨x, hx, y, hy, num, hnum, den, hden, h⟩ := h
  rw [(toRat_new h).1, i128_eq hnum, i128_eq hx, i128_eq hy, i128_eq hden]
  have ha := a.den_ne_zero
  have hb := b.den_ne_zero
  unfold toRat
  push_cast
  field_simp

theorem toRat_checkedSub {b : Rational} (h : a.checkedSub b = some r) :
    r.toRat = a.toRat - b.toRat := by
  simp only [checkedSub, Option.bind_eq_some_iff] at h
  obtain ⟨x, hx, y, hy, num, hnum, den, hden, h⟩ := h
  rw [(toRat_new h).1, i128_eq hnum, i128_eq hx, i128_eq hy, i128_eq hden]
  have ha := a.den_ne_zero
  have hb := b.den_ne_zero
  unfold toRat
  push_cast
  field_simp

theorem toRat_checkedMul {b : Rational} (h : a.checkedMul b = some r) :
    r.toRat = a.toRat * b.toRat := by
  simp only [checkedMul, Option.bind_eq_some_iff] at h
  obtain ⟨num, hnum, den, hden, h⟩ := h
  rw [(toRat_new h).1, i128_eq hnum, i128_eq hden]
  unfold toRat
  push_cast
  rw [div_mul_div_comm]

theorem toRat_checkedDiv {b : Rational} (h : a.checkedDiv b = some r) :
    r.toRat = a.toRat / b.toRat := by
  unfold checkedDiv at h
  split at h
  · cases h
  · simp only [Option.bind_eq_some_iff] at h
    obtain ⟨num, hnum, den, hden, h⟩ := h
    rw [(toRat_new h).1, i128_eq hnum, i128_eq hden]
    unfold toRat
    push_cast
    rw [div_div_div_eq]

theorem toRat_checkedNeg (h : a.checkedNeg = some r) : r.toRat = -a.toRat := by
  simp only [checkedNeg, Option.bind_eq_some_iff] at h
  obtain ⟨num, hnum, h⟩ := h
  rw [(toRat_new h).1, i128_eq hnum]
  unfold toRat
  push_cast
  rw [neg_div]

end Rational

variable {r : Rational} {span : Span}

theorem rational_exact {op : BinOp} {a b : Rational} {rhs : Span}
    (h : op.rational a b rhs span = .ok r) : r.toRat = op.exact a.toRat b.toRat := by
  obtain ⟨out, hout, hr⟩ := ok_of_bind h
  obtain rfl : out = some r := by
    cases out with
    | none => cases hr
    | some r' =>
      cases hr
      rfl
  cases op with
  | add => exact Rational.toRat_checkedAdd (Except.ok.inj hout)
  | sub => exact Rational.toRat_checkedSub (Except.ok.inj hout)
  | mul => exact Rational.toRat_checkedMul (Except.ok.inj hout)
  | div =>
    dsimp only at hout
    split at hout
    · cases hout
    · exact Rational.toRat_checkedDiv (Except.ok.inj hout)
  | rem =>
    dsimp only at hout
    unfold remChecked at hout
    split at hout
    · rename_i x y hx hy
      split at hout
      · cases hout
      · rw [(Rational.toRat_new (Except.ok.inj hout)).1, Rational.toInteger_eq_some.mp hx,
          Rational.toInteger_eq_some.mp hy, Int.cast_one, div_one]
        rfl
    · cases hout

theorem evalRational_neg {operand : Expr} (h : (Expr.unary .neg operand span).evalRational = .ok r)
    : ∃ v, operand.evalRational = .ok v ∧ v.checkedNeg = some r := by
  obtain ⟨v, hv, h⟩ := ok_of_bind h
  refine ⟨v, hv, ?_⟩
  split at h
  · rename_i r' hneg
    cases h
    exact hneg
  · cases h

theorem evalRational_binary {op : BinOp} {lhs rhs : Expr}
    (h : (Expr.binary op lhs rhs span).evalRational = .ok r) :
    ∃ a b, lhs.evalRational = .ok a ∧ rhs.evalRational = .ok b ∧
      op.rational a b rhs.span span = .ok r := by
  rw [Expr.evalRational] at h
  obtain ⟨a, ha, h⟩ := ok_of_bind h
  obtain ⟨b, hb, h⟩ := ok_of_bind h
  exact ⟨a, b, ha, hb, h⟩

theorem evalRational_other {other : Expr} (hnum : ∀ lit span, other = .num lit span → False)
    (hneg : ∀ operand span, other = .unary .neg operand span → False)
    (hbinary : ∀ op lhs rhs span, other = .binary op lhs rhs span → False) :
    other.evalRational ≠ .ok r := by
  intro h
  rw [Expr.evalRational.eq_def] at h
  split at h
  · exact absurd rfl (hnum _ _)
  · exact absurd rfl (hneg _ _)
  · exact absurd rfl (hbinary _ _ _ _)
  · cases h

theorem evalRational_exact {e : Expr} (h : e.evalRational = .ok r) : r.toRat = e.exact := by
  induction e using Expr.evalRational.induct generalizing r with
  | case1 lit span r' hnew =>
    rw [Expr.evalRational, hnew] at h
    cases h
    rw [(Rational.toRat_new hnew).1, Expr.exact, Int.cast_one, div_one, Int.cast_natCast]
  | case2 lit span hnew =>
    rw [Expr.evalRational, hnew] at h
    cases h
  | case3 operand span ih =>
    obtain ⟨v, hv, hneg⟩ := evalRational_neg h
    rw [Rational.toRat_checkedNeg hneg, ih hv, Expr.exact]
  | case4 op lhs rhs span ihl ihr =>
    obtain ⟨a, b, ha, hb, hop⟩ := evalRational_binary h
    rw [rational_exact hop, ihl ha, ihr hb, Expr.exact]
  | case5 other hnum hneg hbinary => exact absurd h (evalRational_other hnum hneg hbinary)

theorem i64_toInt {x : Int} {i : Int64} (h : i64 x = some i) : i.toInt = x := by
  unfold i64 at h
  split at h
  · cases h
    exact Int64.toInt_ofInt_of_le (by omega) (by omega)
  · cases h

theorem u64_toNat {x : Int} {u : UInt64} (h : u64 x = some u) : (u.toNat : Int) = x := by
  unfold u64 at h
  split at h
  · cases h
    rw [UInt64.toNat_ofNat']
    omega
  · cases h

theorem fromNanos_numeric {nanos : UInt64} {v : Value} (h : Value.fromNanos nanos = some v) :
    v.numeric = some (nanos.toNat : Int) := by
  unfold Value.fromNanos at h
  split at h
  · cases h
    rw [Value.numeric, UInt64.toNat_ofNat']
    congr 2
    omega
  · cases h

theorem numValue_numeric {lit : NumLit} {v : Value} (h : numValue lit span = .ok v) :
    v.numeric = some (lit.value.toNat : Int) := by
  unfold numValue at h
  split at h
  · cases h
    rfl
  · split at h
    · rename_i hnanos
      cases h
      exact fromNanos_numeric hnanos
    · cases h
  · split at h <;>
    · cases h
      rfl

theorem ofRank_numeric {rank : Nat} {out : Int} {first v : Value}
    (h : ofRank rank out first span = .ok v) : v.numeric = some out := by
  unfold ofRank at h
  split at h
  · split at h
    · cases hi : i64 out with
      | none =>
        rw [hi] at h
        cases h
      | some i =>
        rw [hi] at h
        cases h
        exact congrArg some (i64_toInt hi)
    · cases hu : u64 out with
      | none =>
        rw [hu] at h
        cases h
      | some u =>
        rw [hu] at h
        cases h
        exact congrArg some (u64_toNat hu)
  · split at h
    · cases h
    · rename_i n hn
      have hnum := congrArg some (u64_toNat hn)
      split at h
      · cases h
        exact hnum
      · split at h
        · cases h
          exact hnum
        · cases hnanos : Value.fromNanos n with
          | none =>
            rw [hnanos] at h
            cases h
          | some v' =>
            rw [hnanos] at h
            cases h
            exact (fromNanos_numeric hnanos).trans hnum

theorem arith_numeric {op : BinOp} {a b v : Value} (h : arith op a b span = .ok v) :
    ∃ x y out, a.numeric = some x ∧ b.numeric = some y ∧
      op.integer x y span = .ok (some out) ∧ v.numeric = some out := by
  unfold arith at h
  split at h
  · rename_i x y hx hy
    dsimp only at h
    split at h
    · cases h
    · obtain ⟨out, hout, h⟩ := ok_of_bind h
      cases out with
      | none => cases h
      | some out => exact ⟨x, y, out, hx, hy, hout, ofRank_numeric h⟩
  · cases h

theorem integer_exact {op : BinOp} {x y out : Int} (h : op.integer x y span = .ok (some out))
    (hdiv : op = .div → ((x : ℚ) / y).den = 1) : (out : ℚ) = op.exact x y := by
  cases op with
  | add =>
    rw [Rational.i128_eq (Except.ok.inj h), BinOp.exact]
    push_cast
    rfl
  | sub =>
    rw [Rational.i128_eq (Except.ok.inj h), BinOp.exact]
    push_cast
    rfl
  | mul =>
    rw [Rational.i128_eq (Except.ok.inj h), BinOp.exact]
    push_cast
    rfl
  | div =>
    rw [BinOp.integer] at h
    split at h
    · cases h
    · rename_i hy
      -- a whole quotient is one the divisor goes into
      obtain ⟨q, hq⟩ : ∃ q : Int, (x : ℚ) / y = q :=
        ⟨_, ((Rat.den_eq_one_iff _).mp (hdiv rfl)).symm⟩
      have hy' : (y : ℚ) ≠ 0 := by exact_mod_cast hy
      have hx : x = q * y := by
        rw [div_eq_iff hy'] at hq
        exact_mod_cast hq
      rw [Rational.i128_eq (Except.ok.inj h), BinOp.exact, hq, hx, Int.mul_tdiv_cancel _ hy]
  | rem =>
    rw [BinOp.integer] at h
    split at h
    · cases h
    · rw [Rational.i128_eq (Except.ok.inj h), BinOp.exact]
      rfl

section Evaluators

variable {table : Table} {scope : String}

/-- **The two evaluators agree** on an expression: wherever both of them succeed, the first comes
to a whole number and the second to the same one. -/
def Agree (table : Table) (scope : String) (e : Expr) : Prop :=
  ∀ r v, e.evalRational = .ok r → value table scope e = .ok v →
    ∃ n, r.toInteger = some n ∧ v.numeric = some n

theorem value_neg {operand : Expr} {v : Value}
    (h : value table scope (.unary .neg operand span) = .ok v) :
    ∃ w, value table scope operand = .ok w ∧ arith .sub (.int 0) w span = .ok v := by
  exact ok_of_bind h

theorem value_binary {op : BinOp} {lhs rhs : Expr} {v : Value}
    (h : value table scope (.binary op lhs rhs span) = .ok v) :
    ∃ a b, value table scope lhs = .ok a ∧ value table scope rhs = .ok b ∧
      arith op a b span = .ok v := by
  rw [value] at h
  obtain ⟨a, ha, h⟩ := ok_of_bind h
  obtain ⟨b, hb, h⟩ := ok_of_bind h
  exact ⟨a, b, ha, hb, h⟩

theorem value_exact {e : Expr} (hwhole : e.WholeDivisions) {v : Value} (hr : e.evalRational = .ok r)
    (hv : value table scope e = .ok v) : ∃ n : Int, e.exact = n ∧ v.numeric = some n := by
  induction e using Expr.evalRational.induct generalizing r v with
  | case1 lit span r' hnew =>
    exact ⟨lit.value.toNat, by rw [Expr.exact, Int.cast_natCast], numValue_numeric hv⟩
  | case2 lit span hnew =>
    rw [Expr.evalRational, hnew] at hr
    cases hr
  | case3 operand span ih =>
    obtain ⟨r', hr', -⟩ := evalRational_neg hr
    obtain ⟨w, hw, hv⟩ := value_neg hv
    obtain ⟨n, hn, hwn⟩ := ih hwhole hr' hw
    obtain ⟨x, y, out, hx, hy, hout, hvn⟩ := arith_numeric hv
    obtain rfl : n = y := Option.some.inj (hwn.symm.trans hy)
    obtain rfl : 0 = x := Option.some.inj hx
    refine ⟨out, ?_, hvn⟩
    rw [integer_exact hout (by simp), Expr.exact, hn, BinOp.exact, Int.cast_zero, zero_sub]
  | case4 op lhs rhs span ihl ihr =>
    obtain ⟨hwl, hwr, hdiv⟩ := hwhole
    obtain ⟨ra, rb, hra, hrb, -⟩ := evalRational_binary hr
    obtain ⟨a, b, ha, hb, hv⟩ := value_binary hv
    obtain ⟨n, hn, han⟩ := ihl hwl hra ha
    obtain ⟨m, hm, hbm⟩ := ihr hwr hrb hb
    obtain ⟨x, y, out, hx, hy, hout, hvn⟩ := arith_numeric hv
    obtain rfl : n = x := Option.some.inj (han.symm.trans hx)
    obtain rfl : m = y := Option.some.inj (hbm.symm.trans hy)
    refine ⟨out, ?_, hvn⟩
    rw [hn, hm] at hdiv
    rw [integer_exact hout hdiv, Expr.exact, hn, hm]
  | case5 other hnum hneg hbinary => exact absurd hr (evalRational_other hnum hneg hbinary)

theorem agree_of_whole {e : Expr} (hwhole : e.WholeDivisions) : Agree table scope e := by
  intro r v hr hv
  obtain ⟨n, hn, hvn⟩ := value_exact hwhole hr hv
  exact ⟨n, Rational.toInteger_eq_some.mpr ((evalRational_exact hr).trans hn), hvn⟩

theorem self_mem_parts (e : Expr) : e ∈ e.parts := by
  cases e <;> simp [Expr.parts]

theorem whole_of_mem_parts {e s : Expr} (h : e.WholeDivisions) (hs : s ∈ e.parts) :
    s.WholeDivisions := by
  induction e using Expr.parts.induct with
  | case1 op operand span ih =>
    rw [Expr.parts, List.mem_cons] at hs
    rcases hs with rfl | hs
    · exact h
    · exact ih h hs
  | case2 op lhs rhs span ihl ihr =>
    rw [Expr.parts, List.mem_cons, List.mem_append] at hs
    rcases hs with rfl | hs | hs
    · exact h
    · exact ihl h.1 hs
    · exact ihr h.2.1 hs
  | case3 other hunary hbinary =>
    rw [Expr.parts.eq_def] at hs
    split at hs
    · exact absurd rfl (hunary _ _ _)
    · exact absurd rfl (hbinary _ _ _ _)
    · rwa [List.mem_singleton.mp hs]

/--
**The two evaluators agree, on an expression and all it is made of, exactly when none of its
divisions has a remainder.**
-/
theorem agree_iff {e : Expr} {r : Rational} {v : Value} (hr : e.evalRational = .ok r)
    (hv : value table scope e = .ok v) :
    (∀ s ∈ e.parts, Agree table scope s) ↔ e.WholeDivisions := by
  constructor
  · intro hagree
    induction e using Expr.evalRational.induct generalizing r v with
    | case1 lit span r' hnew => trivial
    | case2 lit span hnew => trivial
    | case3 operand span ih =>
      obtain ⟨r', hr', -⟩ := evalRational_neg hr
      obtain ⟨w, hw, hv⟩ := value_neg hv
      exact ih hr' hw fun s hs => hagree s (List.mem_cons_of_mem _ hs)
    | case4 op lhs rhs span ihl ihr =>
      obtain ⟨ra, rb, hra, hrb, -⟩ := evalRational_binary hr
      obtain ⟨a, b, ha, hb, -⟩ := value_binary hv
      refine ⟨ihl hra ha fun s hs => ?_, ihr hrb hb fun s hs => ?_, fun hop => ?_⟩
      · exact hagree s (List.mem_cons_of_mem _ (List.mem_append_left _ hs))
      · exact hagree s (List.mem_cons_of_mem _ (List.mem_append_right _ hs))
      · -- the division itself is one of the parts
        obtain ⟨n, hn, -⟩ := hagree _ (self_mem_parts _) r v hr hv
        have hwhole := (evalRational_exact hr).symm.trans (Rational.toInteger_eq_some.mp hn)
        rw [Expr.exact, hop, BinOp.exact] at hwhole
        rw [hwhole, Rat.den_intCast]
    | case5 other hnum hneg hbinary => exact absurd hr (evalRational_other hnum hneg hbinary)
  · intro hwhole s hs
    exact agree_of_whole (whole_of_mem_parts hwhole hs)

def plain (n : UInt64) : Expr := literal n .none (.point 0)

def plainOp (op : BinOp) (lhs rhs : Expr) : Expr := .binary op lhs rhs (.point 0)

/-- Six halves, in which no division has a remainder. -/
theorem agree_six_halves :
    (∀ s ∈ (plainOp .div (plain 6) (plain 2)).parts, Agree [] "" s) ↔
      (plainOp .div (plain 6) (plain 2)).WholeDivisions := by
  have hrational : ((plainOp .div (plain 6) (plain 2)).evalRational.toOption.map
      Rational.toInteger) = some (some 3) := by decide +kernel
  have hvalue : ((value [] "" (plainOp .div (plain 6) (plain 2))).toOption.map
      Value.numeric) = some (some 3) := by decide +kernel
  obtain ⟨r, hr, -⟩ := ok_of_toOption_map hrational
  obtain ⟨v, hv, -⟩ := ok_of_toOption_map hvalue
  exact agree_iff hr hv

/-- Twice a half is one among the rationals, and nothing among the integers. -/
theorem half_twice_disagrees :
    ¬ Agree [] "" (plainOp .mul (plainOp .div (plain 1) (plain 2)) (plain 2)) := by
  have hrational : ((plainOp .mul (plainOp .div (plain 1) (plain 2)) (plain 2)).evalRational
      |>.toOption.map Rational.toInteger) = some (some 1) := by decide +kernel
  have hvalue : ((value [] "" (plainOp .mul (plainOp .div (plain 1) (plain 2)) (plain 2))).toOption
      |>.map Value.numeric) = some (some 0) := by decide +kernel
  obtain ⟨r, hr, hone⟩ := ok_of_toOption_map hrational
  obtain ⟨v, hv, hnone⟩ := ok_of_toOption_map hvalue
  intro h
  obtain ⟨n, hn, hvn⟩ := h r v hr hv
  rw [hone] at hn
  rw [hnone, ← hn] at hvn
  cases hvn

end Evaluators

end Rsemu.Machine
