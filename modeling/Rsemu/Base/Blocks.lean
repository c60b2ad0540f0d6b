import Mathlib.Algebra.Order.Ring.Nat
import Mathlib.Data.Nat.Basic
import Mathlib.Data.List.Range
import Mathlib.Logic.Function.Basic

/-!
# Blocks of a growing size

A hierarchical wheel cuts the line of instants into blocks: a block of level `l` is `2 ^ (bits
* l)` instants long, and `2 ^ bits` of them make one of the next level. An instant stands at
level `l` of a wheel that is at `n` when its block is ahead of the wheel's, and less than a
turn ahead.

`Ahead` says so. What is a turn ahead at one level is ahead at the next (`block_succ_lt`), and
what is not is not further up either (`turn_mono`).
-/

namespace Rsemu.Blocks

variable {bits : Nat}

def block (bits level g : Nat) : Nat := g >>> (bits * level)

theorem block_zero (g : Nat) : block bits 0 g = g := rfl

theorem block_succ (level g : Nat) : block bits (level + 1) g = block bits level g / 2 ^ bits := by
  unfold block
  rw [Nat.mul_succ, Nat.shiftRight_add, Nat.shiftRight_eq_div_pow _ bits]

theorem block_mono {a b : Nat} (h : a ≤ b) (level : Nat) :
    block bits level a ≤ block bits level b := by
  unfold block
  rw [Nat.shiftRight_eq_div_pow, Nat.shiftRight_eq_div_pow]
  exact Nat.div_le_div_right h

variable {level : Nat}

theorem lt_of_block_lt {a b : Nat} (h : block bits level a < block bits level b) : a < b :=
  Nat.lt_of_not_le fun hle => absurd (block_mono hle level) (Nat.not_le.mpr h)

theorem block_lt_turn {a b : Nat} (h : block bits (level + 1) a ≤ block bits (level + 1) b) :
    block bits level a < block bits level b + 2 ^ bits := by
  rw [block_succ, block_succ] at h
  have ha := Nat.div_add_mod (block bits level a) (2 ^ bits)
  have hb := Nat.div_add_mod (block bits level b) (2 ^ bits)
  have hmul := Nat.mul_le_mul_left (2 ^ bits) h
  omega

theorem block_succ_lt {a b : Nat} (h : block bits level a + 2 ^ bits ≤ block bits level b) :
    block bits (level + 1) a < block bits (level + 1) b :=
  Nat.lt_of_not_le fun hle => absurd (block_lt_turn hle) (Nat.not_lt.mpr h)

/-- `g` is ahead of `n` at a level, by less than a turn. -/
structure Ahead (bits n level g : Nat) : Prop where
  ahead : block bits level n < block bits level g
  turn : block bits level g < block bits level n + 2 ^ bits

theorem Ahead.lt {n g : Nat} (h : Ahead bits n level g) : n < g := lt_of_block_lt h.ahead

theorem turn_succ {n g : Nat} (h : block bits level g < block bits level n + 2 ^ bits) :
    block bits (level + 1) g ≤ block bits (level + 1) n + 1 := by
  rw [block_succ, block_succ, ← Nat.add_div_right _ (Nat.two_pow_pos bits)]
  exact Nat.div_le_div_right (by omega)

theorem turn_mono {n l m g : Nat} (hbits : 0 < bits) (hle : l ≤ m)
    (h : block bits l g < block bits l n + 2 ^ bits) :
    block bits m g < block bits m n + 2 ^ bits := by
  have hturn : 2 ≤ 2 ^ bits := by
    obtain ⟨b, rfl⟩ : ∃ b, bits = b + 1 := ⟨bits - 1, by omega⟩
    have := Nat.two_pow_pos b
    omega
  induction m with
  | zero =>
    rw [Nat.le_zero.mp hle] at h
    exact h
  | succ m ih =>
    rcases Nat.lt_or_ge l (m + 1) with hlt | hge
    · have := turn_succ (ih (by omega))
      omega
    · rw [show m + 1 = l by omega]
      exact h

section

variable {α : Type}

def pool (near : Nat → List α) (n : Nat) : List α := (List.range n).flatMap near

theorem pool_succ (near : Nat → List α) (n : Nat) : pool near (n + 1) = pool near n ++ near n := by
  unfold pool
  rw [List.range_succ, List.flatMap_append, List.flatMap_singleton]

theorem mem_pool {near : Nat → List α} {n : Nat} {a : α} :
    a ∈ pool near n ↔ ∃ i < n, a ∈ near i := by
  unfold pool
  rw [List.mem_flatMap]
  exact ⟨fun ⟨i, hi, ha⟩ => ⟨i, List.mem_range.mp hi, ha⟩,
    fun ⟨i, hi, ha⟩ => ⟨i, List.mem_range.mpr hi, ha⟩⟩

theorem pool_nil (n : Nat) : pool (fun _ => ([] : List α)) n = [] :=
  List.flatMap_eq_nil_iff.mpr fun _ _ => rfl

theorem pool_update_of_le {near : Nat → List α} {n i : Nat} (h : n ≤ i) (bucket : List α) :
    pool (Function.update near i bucket) n = pool near n := by
  refine List.flatMap_congr fun j hj => ?_
  have hj := List.mem_range.mp hj
  rw [Function.update_of_ne (by omega)]

theorem pool_update_perm (near : Nat → List α) {n i : Nat} (h : i < n) (bucket : List α) :
    (near i ++ pool (Function.update near i bucket) n).Perm (bucket ++ pool near n) := by
  induction n with
  | zero => exact absurd h (Nat.not_lt_zero i)
  | succ n ih =>
    rw [pool_succ, pool_succ]
    rcases Nat.lt_or_ge i n with hlt | hge
    · rw [Function.update_of_ne (by omega), ← List.append_assoc, ← List.append_assoc]
      exact (ih hlt).append_right _
    · obtain rfl : i = n := by omega
      rw [pool_update_of_le (Nat.le_refl i), Function.update_self]
      -- only the two buckets change places
      refine (List.perm_append_comm_assoc _ _ _).trans ?_
      refine ((List.perm_append_comm).append_left _).trans ?_
      exact List.perm_append_comm_assoc _ _ _

def tally (near : Nat → List α) (n : Nat) : Nat := (pool near n).length

theorem pool_congr {near near' : Nat → List α} {n : Nat} (h : ∀ i < n, near i = near' i) :
    pool near n = pool near' n :=
  List.flatMap_congr fun i hi => h i (List.mem_range.mp hi)

theorem tally_update (near : Nat → List α) {n i : Nat} (h : i < n) (bucket : List α) :
    (near i).length + tally (Function.update near i bucket) n = bucket.length + tally near n := by
  have hlen := (pool_update_perm near h bucket).length_eq
  rwa [List.length_append, List.length_append] at hlen

end

end Rsemu.Blocks
