import Rsemu.Base.Arbiter
import Rsemu.Base.SortedMap

/-!
# Taking turns

Lines in a circle, and a cursor that stands behind the one served last. A scan from the
cursor serves the first line it finds, so what it serves is the line of smallest
position (`scanFrom_find`).

A line that asks at every turn cannot be overtaken twice: each turn that serves another
brings the cursor nearer (`Serves.nearer`), so there are only so many of them
(`Serves.wait_le`), and none serves a line the cursor has just left (`Serves.between`).
-/

namespace Rsemu

namespace Arbiter

variable {n : Nat}

theorem position_val (base line : Fin n) :
    (position base line).val
      = if base ≤ line then line.val - base.val else n + line.val - base.val := by
  split
  · rename_i h
    exact Fin.sub_val_of_le h
  · rename_i h
    have hl : line.val < base.val := Nat.lt_of_not_le h
    have hb := base.isLt
    unfold position
    rw [Fin.sub_def]
    change (n - base.val + line.val) % n = _
    rw [Nat.mod_eq_of_lt (by omega)]
    omega

theorem succ_val [NeZero n] (line : Fin n) :
    (line + 1).val = if line.val + 1 = n then 0 else line.val + 1 := by
  rw [Fin.val_add, Fin.val_one', Nat.add_mod_mod]
  split
  · rename_i h
    rw [h, Nat.mod_self]
  · exact Nat.mod_eq_of_lt (by omega)

theorem position_inj [NeZero n] {base a b : Fin n} (h : position base a = position base b) :
    a = b := by
  rw [← levelAt_position base a, h, levelAt_position]

theorem position_behind [NeZero n] {line a : Fin n} (h : a ≠ line) :
    (position (line + 1) a).val < (position (line + 1) line).val := by
  have hs := succ_val line
  rw [position_val, position_val]
  split at hs <;> split <;> split <;> omega

theorem position_served [NeZero n] {base line a : Fin n}
    (h : (position base line).val < (position base a).val) :
    (position (line + 1) a).val + (position base line).val + 1 = (position base a).val := by
  have hs := succ_val line
  have hp := position_val base line
  have hq := position_val base a
  have hr := position_val (line + 1) a
  split at hs <;> split at hp <;> split at hq <;> split at hr <;> omega

/-- One turn: the lines that ask, and the one served. -/
structure Turn (n : Nat) where
  asked : Fin n → Prop
  served : Fin n

/-- The line served is the first asked for, counted from `base`. -/
def Turn.InOrder (base : Fin n) (t : Turn n) : Prop :=
  ∀ line, t.asked line → (position base t.served).val ≤ (position base line).val

/-- Turns taken one after another, the cursor moving behind each line served. -/
def Serves [NeZero n] : Fin n → List (Turn n) → Prop
  | _, [] => True
  | base, t :: ts => t.InOrder base ∧ Serves (t.served + 1) ts

def cursorAfter [NeZero n] : Fin n → List (Turn n) → Fin n
  | base, [] => base
  | _, t :: ts => cursorAfter (t.served + 1) ts

section Serves

variable [NeZero n] {base line : Fin n} {turns : List (Turn n)}

theorem Serves.append {more : List (Turn n)} :
    Serves base (turns ++ more) ↔ Serves base turns ∧ Serves (cursorAfter base turns) more := by
  induction turns generalizing base with
  | nil => exact ⟨fun h => ⟨trivial, h⟩, fun h => h.2⟩
  | cons t ts ih =>
    constructor
    · rintro ⟨ht, hts⟩
      obtain ⟨h1, h2⟩ := ih.mp hts
      exact ⟨⟨ht, h1⟩, h2⟩
    · rintro ⟨⟨ht, h1⟩, h2⟩
      exact ⟨ht, ih.mpr ⟨h1, h2⟩⟩

theorem Serves.nearer (h : Serves base turns)
    (hask : ∀ t ∈ turns, t.asked line ∧ t.served ≠ line) :
    (position (cursorAfter base turns) line).val + turns.length ≤ (position base line).val
      ∧ ∀ a, (position base line).val < (position base a).val →
        (position (cursorAfter base turns) line).val
          < (position (cursorAfter base turns) a).val := by
  induction turns generalizing base with
  | nil => exact ⟨Nat.le_refl _, fun _ ha => ha⟩
  | cons t ts ih =>
    obtain ⟨ht, hts⟩ := h
    obtain ⟨hasked, hne⟩ := hask t (List.mem_cons_self ..)
    obtain ⟨hwait, hahead⟩ := ih hts fun u hu => hask u (List.mem_cons_of_mem _ hu)
    have hlt : (position base t.served).val < (position base line).val :=
      Nat.lt_of_le_of_ne (ht line hasked) fun he => hne (position_inj (Fin.ext he))
    have hline := position_served hlt
    refine ⟨?_, fun a ha => hahead a ?_⟩
    · rw [List.length_cons]
      change (position (cursorAfter (t.served + 1) ts) line).val + _ ≤ _
      omega
    · have ha' := position_served (Nat.lt_trans hlt ha)
      omega

theorem Serves.wait_le (h : Serves base turns)
    (hask : ∀ t ∈ turns, t.asked line ∧ t.served ≠ line) :
    turns.length ≤ (position base line).val :=
  Nat.le_trans (Nat.le_add_left _ _) (h.nearer hask).1

theorem Serves.between {a : Fin n} {last : Turn n} (h : Serves (a + 1) (turns ++ [last]))
    (hlast : last.served = a) (hne : line ≠ a) (hask : ∀ t ∈ turns ++ [last], t.asked line) :
    ∃ t ∈ turns, t.served = line := by
  by_contra hno
  obtain ⟨hturns, hend⟩ := Serves.append.mp h
  have hwait : ∀ t ∈ turns, t.asked line ∧ t.served ≠ line := fun t ht =>
    ⟨hask t (List.mem_append_left _ ht), fun he => hno ⟨t, ht, he⟩⟩
  have hahead := (hturns.nearer hwait).2 a (position_behind hne)
  have hle := hend.1 line (hask last (List.mem_append_right _ (List.mem_singleton_self _)))
  rw [hlast] at hle
  omega

end Serves

end Arbiter

namespace SortedMap

open Arbiter

variable {n : Nat} {ν : Type}

def scanFrom (m : SortedMap (Fin n) ν) (base : Fin n) : List (Fin n × ν) :=
  m.entries.filter (fun e => base ≤ e.1) ++ m.entries.filter (fun e => e.1 < base)

variable {m : SortedMap (Fin n) ν}

theorem mem_scanFrom {base : Fin n} {e : Fin n × ν} : e ∈ m.scanFrom base ↔ e ∈ m.entries := by
  unfold scanFrom
  rw [List.mem_append, List.mem_filter, List.mem_filter, decide_eq_true_eq, decide_eq_true_eq]
  constructor
  · rintro (h | h)
    · exact h.1
    · exact h.1
  · intro h
    rcases le_or_gt base e.1 with hb | hb
    · exact Or.inl ⟨h, hb⟩
    · exact Or.inr ⟨h, hb⟩

theorem scanFrom_sorted (m : SortedMap (Fin n) ν) (base : Fin n) :
    (m.scanFrom base).Pairwise fun a b => (position base a.1).val < (position base b.1).val := by
  refine List.pairwise_append.mpr ⟨?_, ?_, ?_⟩
  · refine (List.Pairwise.filter _ m.sorted).imp_of_mem ?_
    intro a b ha hb hab
    have ha' := of_decide_eq_true (List.mem_filter.mp ha).2
    have hb' := of_decide_eq_true (List.mem_filter.mp hb).2
    rw [position_val, position_val, if_pos ha', if_pos hb']
    simp only [Fin.le_def, Fin.lt_def] at *
    omega
  · refine (List.Pairwise.filter _ m.sorted).imp_of_mem ?_
    intro a b ha hb hab
    have ha' := of_decide_eq_true (List.mem_filter.mp ha).2
    have hb' := of_decide_eq_true (List.mem_filter.mp hb).2
    rw [position_val, position_val, if_neg (not_le_of_gt ha'), if_neg (not_le_of_gt hb')]
    have hbase := base.isLt
    simp only [Fin.lt_def] at *
    omega
  · intro a ha b hb
    have ha' := of_decide_eq_true (List.mem_filter.mp ha).2
    have hb' := of_decide_eq_true (List.mem_filter.mp hb).2
    rw [position_val, position_val, if_pos ha', if_neg (not_le_of_gt hb')]
    have halt := a.1.isLt
    simp only [Fin.le_def, Fin.lt_def] at *
    omega

theorem scanFrom_find {base : Fin n} {p : Fin n × ν → Bool} {e : Fin n × ν}
    (h : (m.scanFrom base).find? p = some e) :
    e ∈ m.entries ∧ p e = true ∧ ∀ f ∈ m.entries, p f = true →
      (position base e.1).val ≤ (position base f.1).val := by
  refine ⟨mem_scanFrom.mp (List.mem_of_find?_eq_some h), List.find?_some h, fun f hf hp => ?_⟩
  obtain ⟨_, front, back, hsplit, hfront⟩ := List.find?_eq_some_iff_append.mp h
  have hmem : f ∈ m.scanFrom base := mem_scanFrom.mpr hf
  have hsorted := m.scanFrom_sorted base
  rw [hsplit] at hmem hsorted
  rcases List.mem_append.mp hmem with hmem | hmem
  · exact absurd hp (by simpa using hfront f hmem)
  · rcases List.mem_cons.mp hmem with rfl | hmem
    · exact Nat.le_refl _
    · exact Nat.le_of_lt ((List.pairwise_cons.mp (List.pairwise_append.mp hsorted).2.1).1 f hmem)

theorem scanFrom_find_none {base : Fin n} {p : Fin n × ν → Bool} :
    (m.scanFrom base).find? p = none ↔ ∀ e ∈ m.entries, p e = false := by
  rw [List.find?_eq_none]
  constructor
  · intro h e he
    exact Bool.eq_false_iff.mpr (h e (mem_scanFrom.mpr he))
  · intro h e he
    rw [h e (mem_scanFrom.mp he)]
    decide

end SortedMap

end Rsemu
