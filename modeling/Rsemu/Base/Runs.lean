import Mathlib.Data.List.Basic
import Mathlib.Algebra.Order.Ring.Nat

/-!
# Runs of a predicate

A scan of the numbers below a bound that collects the maximal runs on which a predicate
holds, as half-open pairs in order. Together they hold exactly the numbers that satisfy
it (`mem_runs_iff`).
-/

namespace Rsemu.Runs

/-- A scan under way: the runs that are over, and where the present one began. -/
structure Scan where
  ended : List (Nat × Nat)
  start : Option Nat

def step (p : Nat → Bool) (s : Scan) (y : Nat) : Scan :=
  match p y, s.start with
  | true, none => { s with start := some y }
  | false, some top => { ended := s.ended ++ [(top, y)], start := none }
  | _, _ => s

def finish (n : Nat) (s : Scan) : List (Nat × Nat) :=
  match s.start with
  | none => s.ended
  | some top => s.ended ++ [(top, n)]

def runs (p : Nat → Bool) (n : Nat) : List (Nat × Nat) :=
  finish n ((List.range n).foldl (step p) { ended := [], start := none })

/-- A run below a bound that cannot be made to begin earlier. -/
structure IsRun (p : Nat → Bool) (n : Nat) (r : Nat × Nat) : Prop where
  lt : r.1 < r.2
  le : r.2 ≤ n
  holds : ∀ y, r.1 ≤ y → y < r.2 → p y = true
  first : ∀ y, y + 1 = r.1 → p y = false

variable {p : Nat → Bool}

/-- What a scan knows of the numbers it has seen. -/
structure Scanned (p : Nat → Bool) (n : Nat) (s : Scan) : Prop where
  ended : ∀ r ∈ s.ended, IsRun p n r
  start : ∀ top, s.start = some top → IsRun p n (top, n)
  all : ∀ y, y < n → p y = true →
    (∃ r ∈ s.ended, r.1 ≤ y ∧ y < r.2) ∨ ∃ top, s.start = some top ∧ top ≤ y
  gap : s.start = none → ∀ y, y + 1 = n → p y = false
  count : s.ended.length + s.start.toList.length ≤ n

theorem IsRun.mono {n m : Nat} {r : Nat × Nat} (h : IsRun p n r) (hm : n ≤ m) : IsRun p m r where
  lt := h.lt
  le := Nat.le_trans h.le hm
  holds := h.holds
  first := h.first

theorem Scanned.step {n : Nat} {s : Scan} (h : Scanned p n s) : Scanned p (n + 1) (step p s n) := by
  have hended : ∀ r ∈ s.ended, IsRun p (n + 1) r := fun r hr => (h.ended r hr).mono (Nat.le_succ n)
  have hcount := h.count
  cases hp : p n with
  | true =>
    cases hs : s.start with
    | none =>
      have hstep : Runs.step p s n = { s with start := some n } := by
        simp only [Runs.step, hp, hs]
      rw [hstep]
      refine ⟨hended, ?_, ?_, ?_, ?_⟩
      · intro top htop
        cases htop
        refine ⟨Nat.lt_succ_self n, Nat.le_refl _, fun y hle hlt => ?_, h.gap hs⟩
        have : y = n := by omega
        rw [this, hp]
      · intro y hy hpy
        by_cases hyn : y = n
        · exact Or.inr ⟨n, rfl, by omega⟩
        · rcases h.all y (by omega) hpy with hr | ⟨top, htop, -⟩
          · exact Or.inl hr
          · rw [hs] at htop
            cases htop
      · intro hc
        cases hc
      · simp only [hs, Option.toList_none, Option.toList_some, List.length_nil,
          List.length_singleton] at hcount ⊢
        omega
    | some top =>
      have hstep : Runs.step p s n = s := by simp only [Runs.step, hp, hs]
      rw [hstep]
      have hrun := h.start top hs
      refine ⟨hended, ?_, ?_, ?_, by omega⟩
      · intro t ht
        rw [hs] at ht
        cases ht
        refine ⟨Nat.lt_succ_of_lt hrun.lt, Nat.le_refl _, fun y hle hlt => ?_, hrun.first⟩
        by_cases hyn : y = n
        · rw [hyn, hp]
        · exact hrun.holds y hle (by omega)
      · intro y hy hpy
        by_cases hyn : y = n
        · exact Or.inr ⟨top, hs, by have := hrun.lt; omega⟩
        · exact h.all y (by omega) hpy
      · intro hc
        rw [hs] at hc
        cases hc
  | false =>
    have hgap : ∀ y, y + 1 = n + 1 → p y = false := by
      intro y hy
      have : y = n := by omega
      rw [this, hp]
    cases hs : s.start with
    | none =>
      have hstep : Runs.step p s n = s := by simp only [Runs.step, hp, hs]
      rw [hstep]
      refine ⟨hended, fun top htop => ?_, ?_, fun _ => hgap, by omega⟩
      · rw [hs] at htop
        cases htop
      · intro y hy hpy
        by_cases hyn : y = n
        · rw [hyn, hp] at hpy
          cases hpy
        · exact h.all y (by omega) hpy
    | some top =>
      have hstep : Runs.step p s n = { ended := s.ended ++ [(top, n)], start := none } := by
        simp only [Runs.step, hp, hs]
      rw [hstep]
      have hrun := (h.start top hs).mono (Nat.le_succ n)
      refine ⟨?_, fun t ht => (by cases ht), ?_, fun _ => hgap, ?_⟩
      · intro r hr
        rcases List.mem_append.mp hr with hr | hr
        · exact hended r hr
        · rw [List.mem_singleton.mp hr]
          exact hrun
      · intro y hy hpy
        by_cases hyn : y = n
        · rw [hyn, hp] at hpy
          cases hpy
        · left
          rcases h.all y (by omega) hpy with ⟨r, hr, hin⟩ | ⟨t, ht, hle⟩
          · exact ⟨r, List.mem_append_left _ hr, hin⟩
          · rw [hs] at ht
            cases ht
            exact ⟨(top, n), List.mem_append_right _ List.mem_cons_self, hle, by omega⟩
      · simp only [hs, Option.toList_none, Option.toList_some, List.length_nil,
          List.length_append, List.length_singleton] at hcount ⊢
        omega

theorem scanned (p : Nat → Bool) (n : Nat) :
    Scanned p n ((List.range n).foldl (step p) { ended := [], start := none }) := by
  induction n with
  | zero =>
    exact ⟨fun r hr => absurd hr List.not_mem_nil, fun top h => (by cases h),
      fun y hy => absurd hy (Nat.not_lt_zero y), fun _ y hy => (by cases hy), Nat.le_refl 0⟩
  | succ n ih =>
    rw [List.range_succ, List.foldl_append]
    exact ih.step

theorem isRun_of_mem {n : Nat} {r : Nat × Nat} (h : r ∈ runs p n) : IsRun p n r := by
  have hs := scanned p n
  unfold runs finish at h
  split at h
  · exact hs.ended r h
  · rename_i top htop
    rcases List.mem_append.mp h with h | h
    · exact hs.ended r h
    · rw [List.mem_singleton.mp h]
      exact hs.start top htop

theorem exists_run {n y : Nat} (hy : y < n) (hp : p y = true) :
    ∃ r ∈ runs p n, r.1 ≤ y ∧ y < r.2 := by
  have hs := scanned p n
  unfold runs finish
  rcases hs.all y hy hp with ⟨r, hr, hin⟩ | ⟨top, htop, hle⟩
  · refine ⟨r, ?_, hin⟩
    split
    · exact hr
    · exact List.mem_append_left _ hr
  · rw [htop]
    exact ⟨(top, n), List.mem_append_right _ List.mem_cons_self, hle, hy⟩

theorem mem_runs_iff {n y : Nat} : (∃ r ∈ runs p n, r.1 ≤ y ∧ y < r.2) ↔ y < n ∧ p y = true := by
  constructor
  · rintro ⟨r, hr, hle, hlt⟩
    have h := isRun_of_mem hr
    exact ⟨Nat.lt_of_lt_of_le hlt h.le, h.holds y hle hlt⟩
  · rintro ⟨hy, hp⟩
    exact exists_run hy hp

theorem length_runs_le (p : Nat → Bool) (n : Nat) : (runs p n).length ≤ n := by
  have hcount := (scanned p n).count
  unfold runs finish
  split
  · rename_i hs
    rw [hs] at hcount
    exact hcount
  · rename_i top hs
    rw [hs] at hcount
    rw [List.length_append]
    exact hcount

theorem runs_eq_nil_iff {n : Nat} : runs p n = [] ↔ ∀ y, y < n → p y = false := by
  constructor
  · intro h y hy
    by_contra hp
    obtain ⟨r, hr, -⟩ := exists_run hy (Bool.not_eq_false _ ▸ hp)
    rw [h] at hr
    cases hr
  · intro h
    refine List.eq_nil_iff_forall_not_mem.mpr fun r hr => ?_
    have hrun := isRun_of_mem hr
    have hfalse := h r.1 (Nat.lt_of_lt_of_le hrun.lt hrun.le)
    rw [hrun.holds r.1 (Nat.le_refl _) hrun.lt] at hfalse
    cases hfalse

end Rsemu.Runs
