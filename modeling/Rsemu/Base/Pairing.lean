import Mathlib.Data.List.Basic
import Mathlib.Data.List.Perm.Basic

/-!
# Pairing two lists off

Each element of one list in its turn takes the first element of another that goes with it and
that none took before; the elements of the other list carry a mark for that. Whatever goes with
what, nothing is lost or taken twice: the first list is what the pairs have on their left
(`pairUp_fst`), and the second is what they have on their right together with what is left over
(`pairUp_perm`).
-/

namespace Rsemu.Pairing

variable {α β γ : Type}

def unpaired (ys : List (β × Bool)) : List β := (ys.filter fun y => !y.2).map (·.1)

def takeMate (goes : β → Bool) : List (β × Bool) → Option (β × List (β × Bool))
  | [] => none
  | y :: ys =>
    if !y.2 && goes y.1 then some (y.1, (y.1, true) :: ys)
    else (takeMate goes ys).map fun out => (out.1, y :: out.2)

/-- Each of the first list with the first of the second that goes with it and is free. -/
def pairUp (goes : α → β → Bool) : List α → List (β × Bool) → List (α × Option β) × List (β × Bool)
  | [], ys => ([], ys)
  | x :: xs, ys =>
    match takeMate (goes x) ys with
    | some (y, ys) => ((x, some y) :: (pairUp goes xs ys).1, (pairUp goes xs ys).2)
    | none => ((x, none) :: (pairUp goes xs ys).1, (pairUp goes xs ys).2)

theorem unpaired_cons (y : β × Bool) (ys : List (β × Bool)) :
    unpaired (y :: ys) = if y.2 then unpaired ys else y.1 :: unpaired ys := by
  obtain ⟨y, b⟩ := y
  cases b <;> rfl

theorem unpaired_new (ys : List β) : unpaired (ys.map fun y => (y, false)) = ys := by
  induction ys with
  | nil => rfl
  | cons y ys ih =>
    rw [List.map_cons, unpaired_cons, ih]
    rfl

theorem takeMate_perm {goes : β → Bool} {ys ys' : List (β × Bool)} {y : β}
    (h : takeMate goes ys = some (y, ys')) :
    goes y = true ∧ (unpaired ys).Perm (y :: unpaired ys') := by
  induction ys generalizing ys' with
  | nil => exact absurd h (by simp [takeMate])
  | cons z ys ih =>
    unfold takeMate at h
    by_cases hz : (!z.2 && goes z.1) = true
    · rw [if_pos hz] at h
      obtain ⟨rfl, rfl⟩ := Prod.mk.inj (Option.some.inj h)
      obtain ⟨hfree, hgoes⟩ := Bool.and_eq_true_iff.mp hz
      have hfree : z.2 = false := by simpa using hfree
      refine ⟨hgoes, ?_⟩
      rw [unpaired_cons, unpaired_cons, hfree]
      exact List.Perm.refl _
    · rw [if_neg hz] at h
      obtain ⟨out, hout, heq⟩ := Option.map_eq_some_iff.mp h
      obtain ⟨rfl, rfl⟩ := Prod.mk.inj heq
      obtain ⟨hgoes, hperm⟩ := ih hout
      refine ⟨hgoes, ?_⟩
      rw [unpaired_cons, unpaired_cons]
      cases z.2 with
      | true => exact hperm
      | false => exact (hperm.cons _).trans (List.Perm.swap ..)

theorem pairUp_fst (goes : α → β → Bool) (xs : List α) (ys : List (β × Bool)) :
    (pairUp goes xs ys).1.map (·.1) = xs := by
  induction xs generalizing ys with
  | nil => rfl
  | cons x xs ih =>
    unfold pairUp
    rcases takeMate (goes x) ys with _ | out
    · exact congrArg (x :: ·) (ih ys)
    · exact congrArg (x :: ·) (ih out.2)

theorem pairUp_perm (goes : α → β → Bool) (xs : List α) (ys : List (β × Bool)) :
    (unpaired ys).Perm
      ((pairUp goes xs ys).1.filterMap (·.2) ++ unpaired (pairUp goes xs ys).2) := by
  induction xs generalizing ys with
  | nil => exact List.Perm.refl _
  | cons x xs ih =>
    unfold pairUp
    rcases htake : takeMate (goes x) ys with _ | out
    · exact ih ys
    · exact (takeMate_perm htake).2.trans ((ih out.2).cons _)

theorem sides_perm (f : α → γ) (g : β → γ) (pairs : List (α × Option β)) :
    (pairs.flatMap fun pair => f pair.1 :: (pair.2.map g).toList).Perm
      ((pairs.map (·.1)).map f ++ (pairs.filterMap (·.2)).map g) := by
  induction pairs with
  | nil => exact List.Perm.refl _
  | cons pair pairs ih =>
    obtain ⟨x, y⟩ := pair
    rw [List.flatMap_cons, List.map_cons, List.map_cons]
    cases y with
    | none => exact ih.cons _
    | some y =>
      have hright : ((x, some y) :: pairs).filterMap (·.2) =
          y :: pairs.filterMap (·.2) := rfl
      rw [hright, List.map_cons]
      exact ((ih.cons _).trans List.perm_middle.symm).cons _

end Rsemu.Pairing
