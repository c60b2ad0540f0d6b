import Mathlib.Data.Finset.Card
import Mathlib.Data.Nat.Bitwise
import Mathlib.Logic.Function.Basic

/-!
# Bitmaps over words

A table of flags kept as a row of 64-bit words: flag `i` is bit `i % 64` of word `i / 64`.

A walk over a word visits its set bits by taking the lowest and clearing it, in the usual two
instructions. It works on a copy, so what it visits is settled by the word it was given
(`walk_eq`), whatever the visits do to the row.
-/

namespace Rsemu.Bitmap

/-- Flags, 64 to a word. -/
abbrev Flags := Nat → BitVec 64

def bit (i : Nat) : BitVec 64 := 1#64 <<< (i % 64)

def test (b : Flags) (i : Nat) : Bool := b (i / 64) &&& bit i != 0#64

def insert (b : Flags) (i : Nat) : Flags :=
  Function.update b (i / 64) (b (i / 64) ||| bit i)

def erase (b : Flags) (i : Nat) : Flags :=
  Function.update b (i / 64) (b (i / 64) &&& ~~~(bit i))

def walk {σ : Type} (body : Nat → σ → σ) : Nat → BitVec 64 → σ → σ
  | 0, _, s => s
  | fuel + 1, set, s =>
    if set = 0#64 then s else walk body fuel (set &&& (set - 1#64)) (body set.ctz.toNat s)

section Flags

variable {b : Flags} {i j : Nat}

theorem getLsbD_bit (i k : Nat) : (bit i).getLsbD k = decide (k = i % 64) := by
  unfold bit
  have hi : i % 64 < 64 := Nat.mod_lt i (by decide)
  by_cases hk : k = i % 64
  · subst hk
    simp [hi]
  · by_cases hlt : k < i % 64
    · simp [hlt, hk]
    · have : k - i % 64 ≠ 0 := by omega
      simp [hlt, hk, BitVec.getLsbD_one, this]

theorem test_eq (b : Flags) (i : Nat) : test b i = (b (i / 64)).getLsbD (i % 64) := by
  unfold test
  cases hb : (b (i / 64)).getLsbD (i % 64) with
  | true =>
    simp only [bne_iff_ne, ne_eq]
    intro hz
    have := congrArg (BitVec.getLsbD · (i % 64)) hz
    simp [getLsbD_bit, hb] at this
  | false =>
    simp only [bne_eq_false_iff_eq]
    refine BitVec.eq_of_getLsbD_eq fun k hk => ?_
    rw [BitVec.getLsbD_and, getLsbD_bit]
    by_cases he : k = i % 64
    · subst he
      simp [hb]
    · simp [he]

theorem flag_eq (hw : i / 64 = j / 64) (hb : i % 64 = j % 64) : i = j := by
  omega

theorem test_insert : test (insert b i) j = (test b j || decide (j = i)) := by
  rw [test_eq, test_eq]
  unfold insert
  by_cases hw : j / 64 = i / 64
  · rw [hw, Function.update_self, BitVec.getLsbD_or, getLsbD_bit]
    have hiff : j % 64 = i % 64 ↔ j = i := ⟨flag_eq hw, fun h => h ▸ rfl⟩
    simp only [hiff]
  · rw [Function.update_of_ne hw]
    have : j ≠ i := fun h => hw (h ▸ rfl)
    simp [this]

theorem test_erase : test (erase b i) j = (test b j && !decide (j = i)) := by
  rw [test_eq, test_eq]
  unfold erase
  have hj : j % 64 < 64 := Nat.mod_lt j (by decide)
  by_cases hw : j / 64 = i / 64
  · rw [hw, Function.update_self, BitVec.getLsbD_and, BitVec.getLsbD_not, getLsbD_bit]
    have hiff : j % 64 = i % 64 ↔ j = i := ⟨flag_eq hw, fun h => h ▸ rfl⟩
    simp only [hj, hiff, decide_true, Bool.true_and]
  · rw [Function.update_of_ne hw]
    have : j ≠ i := fun h => hw (h ▸ rfl)
    simp [this]

end Flags

def count (b : Flags) (n : Nat) : Nat := ((Finset.range n).filter fun i => test b i = true).card

theorem count_erase {b : Flags} {i n : Nat} (hi : i < n) (hset : test b i = true) :
    count (erase b i) n + 1 = count b n := by
  unfold count
  have hsub : (Finset.range n).filter (fun j => test (erase b i) j = true)
      = ((Finset.range n).filter fun j => test b j = true).erase i := by
    ext j
    simp only [Finset.mem_filter, Finset.mem_erase, test_erase, Bool.and_eq_true,
      Bool.not_eq_true', decide_eq_false_iff_not]
    tauto
  rw [hsub, Finset.card_erase_add_one]
  exact Finset.mem_filter.mpr ⟨Finset.mem_range.mpr hi, hset⟩

theorem count_insert {b : Flags} {i n : Nat} (hi : i < n) (hclear : test b i = false) :
    count (insert b i) n = count b n + 1 := by
  unfold count
  have hsup : (Finset.range n).filter (fun j => test (insert b i) j = true)
      = Insert.insert i ((Finset.range n).filter fun j => test b j = true) := by
    ext j
    simp only [Finset.mem_filter, Finset.mem_insert, Finset.mem_range, test_insert,
      Bool.or_eq_true, decide_eq_true_eq]
    constructor
    · rintro ⟨hj, h | rfl⟩
      · exact Or.inr ⟨hj, h⟩
      · exact Or.inl rfl
    · rintro (rfl | ⟨hj, h⟩)
      · exact ⟨hi, Or.inr rfl⟩
      · exact ⟨hj, Or.inl h⟩
  rw [hsup, Finset.card_insert_of_notMem]
  simp [hclear]

theorem count_congr {b b' : Flags} {n : Nat} (h : ∀ i, test b' i = test b i) :
    count b' n = count b n := by
  unfold count
  simp only [h]

theorem count_pos {b : Flags} {i n : Nat} (hi : i < n) (hset : test b i = true) : 0 < count b n :=
  Finset.card_pos.mpr ⟨i, Finset.mem_filter.mpr ⟨Finset.mem_range.mpr hi, hset⟩⟩

theorem getLsbD_clearLowest {x : BitVec 64} (hx : x ≠ 0#64) (k : Nat) :
    (x &&& (x - 1#64)).getLsbD k = (x.getLsbD k && !decide (k = x.ctz.toNat)) := by
  obtain ⟨c, hc⟩ : ∃ c, c = x.ctz.toNat := ⟨_, rfl⟩
  have hset : x.toNat.testBit c = true := hc ▸ BitVec.getLsbD_true_ctz_of_ne_zero hx
  have hlow : x.toNat % 2 ^ c = 0 := by
    refine Nat.eq_of_testBit_eq fun j => ?_
    by_cases hj : j < c
    · have : x.toNat.testBit j = false := BitVec.getLsbD_false_of_lt_ctz (hc ▸ hj)
      simp [this]
    · simp [hj]
  -- the word is `2 ^ c * (2 * m + 1)`
  obtain ⟨m, hm⟩ : ∃ m, x.toNat = 2 ^ c * (2 * m + 1) := by
    have hodd : x.toNat / 2 ^ c % 2 = 1 := by
      rw [Nat.testBit_eq_decide_div_mod_eq] at hset
      exact of_decide_eq_true hset
    refine ⟨x.toNat / 2 ^ c / 2, ?_⟩
    have h1 := Nat.div_add_mod x.toNat (2 ^ c)
    have h2 := Nat.div_add_mod (x.toNat / 2 ^ c) 2
    rw [hodd] at h2
    rw [h2]
    omega
  have hpos := Nat.two_pow_pos c
  have hsub : (x - 1#64).toNat = 2 ^ (c + 1) * m + (2 ^ c - 1) := by
    have hone : (1#64).toNat ≤ x.toNat := by
      rw [hm]
      exact Nat.mul_pos hpos (Nat.succ_pos _)
    rw [BitVec.toNat_sub_of_le hone, hm, Nat.mul_add, Nat.pow_succ]
    have : (1#64).toNat = 1 := rfl
    rw [this, Nat.mul_one, Nat.mul_assoc]
    omega
  have hval : x.toNat = 2 ^ (c + 1) * m + 2 ^ c := by
    rw [hm, Nat.mul_add, Nat.pow_succ, Nat.mul_one, Nat.mul_assoc]
  rw [BitVec.getLsbD_and, ← hc]
  have hk : x.getLsbD k = x.toNat.testBit k := rfl
  have hk' : (x - 1#64).getLsbD k = (x - 1#64).toNat.testBit k := rfl
  have hlt : 2 ^ c < 2 ^ (c + 1) := Nat.pow_lt_pow_right (by decide) (Nat.lt_succ_self c)
  rw [hk, hk', hsub, Nat.testBit_two_pow_mul_add m (by omega), hval,
    Nat.testBit_two_pow_mul_add m hlt]
  by_cases hkc : k < c + 1
  · rw [if_pos hkc, if_pos hkc, Nat.testBit_two_pow, Nat.testBit_two_pow_sub_one]
    by_cases he : k = c
    · simp [he]
    · have : c ≠ k := Ne.symm he
      simp [he, this]
  · rw [if_neg hkc, if_neg hkc]
    have : k ≠ c := by omega
    simp [this]

theorem walk_aux {σ : Type} (body : Nat → σ → σ) : ∀ (fuel : Nat) (set : BitVec 64) (s : σ),
    fuel ≤ 64 → (∀ k, k < 64 - fuel → set.getLsbD k = false) →
    ∃ l : List Nat, (∀ k, k ∈ l ↔ set.getLsbD k = true)
      ∧ walk body fuel set s = l.foldl (fun s k => body k s) s
  | 0, set, s, _, hlow => by
    refine ⟨[], fun k => ?_, rfl⟩
    have hk : set.getLsbD k = false := by
      by_cases hk : k < 64
      · exact hlow k hk
      · exact BitVec.getLsbD_of_ge _ _ (Nat.le_of_not_lt hk)
    simp [hk]
  | fuel + 1, set, s, hfuel, hlow => by
    by_cases hz : set = 0#64
    · subst hz
      exact ⟨[], fun k => by simp, by simp [walk]⟩
    have hctz := BitVec.getLsbD_true_ctz_of_ne_zero hz
    have hge : 64 - (fuel + 1) ≤ set.ctz.toNat := by
      refine Nat.le_of_not_lt fun hlt => ?_
      rw [hlow _ hlt] at hctz
      cases hctz
    obtain ⟨l, hl, hwalk⟩ := walk_aux body fuel (set &&& (set - 1#64))
      (body set.ctz.toNat s) (by omega) (by
        intro k hk
        rw [getLsbD_clearLowest hz]
        by_cases he : k = set.ctz.toNat
        · simp [he]
        · have : set.getLsbD k = false := BitVec.getLsbD_false_of_lt_ctz (by omega)
          simp [this])
    refine ⟨set.ctz.toNat :: l, fun k => ?_, ?_⟩
    · rw [List.mem_cons, hl, getLsbD_clearLowest hz]
      by_cases he : k = set.ctz.toNat
      · simp [he, hctz]
      · simp [he]
    · rw [walk, if_neg hz, hwalk]
      rfl

theorem walk_eq {σ : Type} (body : Nat → σ → σ) (set : BitVec 64) (s : σ) :
    ∃ l : List Nat, (∀ k, k ∈ l ↔ set.getLsbD k = true)
      ∧ walk body 64 set s = l.foldl (fun s k => body k s) s :=
  walk_aux body 64 set s (Nat.le_refl 64) fun k hk => absurd hk (by omega)

def firstClear (b : Flags) (n : Nat) : Option Nat :=
  (List.range n).findSome? fun w =>
    if b w = BitVec.allOnes 64 then none else some (w * 64 + (~~~(b w)).ctz.toNat)

theorem firstClear_some {b : Flags} {n i : Nat} (h : firstClear b n = some i) :
    i < n * 64 ∧ test b i = false := by
  obtain ⟨w, hw, hi⟩ := List.exists_of_findSome?_eq_some h
  split at hi
  · cases hi
  rename_i hne
  have hz : ~~~(b w) ≠ 0#64 := by
    intro hz
    refine hne ?_
    rw [← BitVec.not_not (b := b w), hz, BitVec.not_zero]
  have hlt : (~~~(b w)).ctz.toNat < 64 := by
    have := BitVec.ctz_lt_iff_ne_zero.mpr hz
    exact this
  have hset := BitVec.getLsbD_true_ctz_of_ne_zero hz
  obtain rfl := (Option.some.inj hi).symm
  generalize (~~~(b w)).ctz.toNat = k at hlt hset ⊢
  have hwn := List.mem_range.mp hw
  refine ⟨by omega, ?_⟩
  have hdiv : (w * 64 + k) / 64 = w := by omega
  have hmod : (w * 64 + k) % 64 = k := by omega
  rw [test_eq, hdiv, hmod]
  rw [BitVec.getLsbD_not, decide_eq_true hlt, Bool.true_and, Bool.not_eq_true'] at hset
  exact hset

end Rsemu.Bitmap
