import Rsemu.Base.Codec
import Mathlib.Data.List.GetD

/-!
# Bytes at addresses

Memory with holes: an address holds a byte, or there is nothing at it. A run of bytes is read
where all of it is there. What was put at a place is read there (`read_put`), and a run
reads as before where its own bytes have not changed (`put_apart`, `read_congr`).
-/

namespace Rsemu

open Codec (Bytes)

/-- Bytes by address, where there are any. -/
abbrev Memory := Nat → Option UInt8

namespace Memory

variable {m : Memory} {at_ n : Nat} {bs : Bytes}

def read (m : Memory) : Nat → Nat → Option Bytes
  | _, 0 => some []
  | at_, n + 1 => (m at_).bind fun b => (read m (at_ + 1) n).map (b :: ·)

def put (m : Memory) (at_ : Nat) (bs : Bytes) : Memory := fun a =>
  if at_ ≤ a ∧ a < at_ + bs.length then bs[a - at_]? else m a

theorem put_apart {a : Nat} (h : a < at_ ∨ at_ + bs.length ≤ a) : m.put at_ bs a = m a := by
  unfold put
  rw [if_neg (by omega)]

theorem read_eq_some_iff :
    m.read at_ n = some bs ↔ bs.length = n ∧ ∀ i < n, m (at_ + i) = bs[i]? := by
  induction n generalizing at_ bs with
  | zero =>
    constructor
    · intro h
      rw [← Option.some.inj h]
      exact ⟨rfl, fun i hi => absurd hi (Nat.not_lt_zero i)⟩
    · intro h
      rw [List.length_eq_zero_iff.mp h.1]
      rfl
  | succ n ih =>
    rw [read, Option.bind_eq_some_iff]
    constructor
    · rintro ⟨b, hb, hrest⟩
      obtain ⟨rest, hread, rfl⟩ := Option.map_eq_some_iff.mp hrest
      obtain ⟨hlen, hbytes⟩ := ih.mp hread
      refine ⟨by rw [List.length_cons, hlen], fun i hi => ?_⟩
      rcases i with _ | i
      · exact hb
      · rw [List.getElem?_cons_succ, ← hbytes i (by omega), Nat.add_right_comm, Nat.add_assoc]
    · rintro ⟨hlen, hbytes⟩
      cases bs with
      | nil => cases hlen
      | cons b rest =>
        refine ⟨b, hbytes 0 (Nat.succ_pos n), Option.map_eq_some_iff.mpr ⟨rest, ih.mpr ⟨?_, ?_⟩, rfl⟩⟩
        · exact Nat.succ.inj hlen
        · intro i hi
          have := hbytes (i + 1) (by omega)
          rwa [List.getElem?_cons_succ, ← Nat.add_assoc, Nat.add_right_comm] at this

theorem read_put (m : Memory) (at_ : Nat) (bs : Bytes) :
    (m.put at_ bs).read at_ bs.length = some bs := by
  refine read_eq_some_iff.mpr ⟨rfl, fun i hi => ?_⟩
  unfold put
  rw [if_pos ⟨Nat.le_add_right _ _, by omega⟩, Nat.add_sub_cancel_left]

theorem read_congr {m' : Memory} {a : Nat} (h : ∀ i < n, m' (a + i) = m (a + i)) :
    m'.read a n = m.read a n := by
  induction n generalizing a with
  | zero => rfl
  | succ n ih =>
    have hfirst : m' a = m a := h 0 (Nat.succ_pos n)
    rw [read, read, hfirst, ih fun i hi => by
      rw [Nat.add_assoc, Nat.add_comm 1]
      exact h (i + 1) (by omega)]

theorem put_append (m : Memory) (at_ : Nat) (xs ys : Bytes) :
    (m.put at_ xs).put (at_ + xs.length) ys = m.put at_ (xs ++ ys) := by
  funext a
  unfold put
  rw [List.length_append]
  by_cases hsecond : at_ + xs.length ≤ a ∧ a < at_ + xs.length + ys.length
  · rw [if_pos hsecond, if_pos (by omega), List.getElem?_append_right (by omega)]
    congr 1
    omega
  · rw [if_neg hsecond]
    by_cases hfirst : at_ ≤ a ∧ a < at_ + xs.length
    · rw [if_pos hfirst, if_pos (by omega), List.getElem?_append_left (by omega)]
    · rw [if_neg hfirst, if_neg (by omega)]

theorem put_nil (m : Memory) (at_ : Nat) : m.put at_ [] = m := by
  funext a
  exact put_apart (by rw [List.length_nil]; omega)

theorem read_add {n' : Nat} {xs ys : Bytes} (hx : m.read at_ n = some xs)
    (hy : m.read (at_ + n) n' = some ys) : m.read at_ (n + n') = some (xs ++ ys) := by
  obtain ⟨hlen, hbytes⟩ := read_eq_some_iff.mp hx
  obtain ⟨hlen', hbytes'⟩ := read_eq_some_iff.mp hy
  refine read_eq_some_iff.mpr ⟨by rw [List.length_append, hlen, hlen'], fun i hi => ?_⟩
  rcases Nat.lt_or_ge i n with hlt | hge
  · rw [List.getElem?_append_left (by omega), hbytes i hlt]
  · rw [List.getElem?_append_right (by omega), hlen, ← hbytes' (i - n) (by omega)]
    congr 1
    omega

/-- The chunk holds the address. -/
def Within (c : Nat × Nat) (a : Nat) : Prop := c.1 ≤ a ∧ a < c.1 + c.2

/-- No address is in both chunks. -/
def Apart (c c' : Nat × Nat) : Prop := ∀ a, Within c a → ¬ Within c' a

def gather (m : Memory) : List (Nat × Nat) → Option Bytes
  | [] => some []
  | c :: cs => (m.read c.1 c.2).bind fun xs => (gather m cs).map (xs ++ ·)

def spread (m : Memory) : List (Nat × Nat) → Bytes → Memory
  | [], _ => m
  | c :: cs, bs => spread (m.put c.1 (bs.take c.2)) cs (bs.drop c.2)

variable {cs : List (Nat × Nat)}

theorem spread_apart {a : Nat} (h : ∀ c ∈ cs, ¬ Within c a) : m.spread cs bs a = m a := by
  induction cs generalizing m bs with
  | nil => rfl
  | cons c cs ih =>
    rw [spread, ih fun c' hc' => h c' (List.mem_cons_of_mem c hc')]
    have hout := h c List.mem_cons_self
    unfold Within at hout
    refine put_apart ?_
    rw [List.length_take]
    omega

theorem gather_spread (happart : cs.Pairwise Apart) (hlen : (cs.map (·.2)).sum = bs.length) :
    (m.spread cs bs).gather cs = some bs := by
  induction cs generalizing m bs with
  | nil =>
    have hnil : bs = [] := List.length_eq_zero_iff.mp hlen.symm
    rw [hnil]
    rfl
  | cons c cs ih =>
    rw [List.map_cons, List.sum_cons] at hlen
    have htake : (bs.take c.2).length = c.2 := List.length_take_of_le (by omega)
    have hread : (m.spread (c :: cs) bs).read c.1 c.2 = some (bs.take c.2) := by
      have hput := read_put m c.1 (bs.take c.2)
      rw [htake] at hput
      rw [← hput, spread]
      refine read_congr fun i hi => spread_apart fun c' hc' => ?_
      exact (List.pairwise_cons.mp happart).1 c' hc' (c.1 + i) ⟨by omega, by omega⟩
    have hrest : (m.spread (c :: cs) bs).gather cs = some (bs.drop c.2) :=
      ih (List.pairwise_cons.mp happart).2 (by rw [List.length_drop]; omega)
    rw [gather, hread, hrest]
    exact congrArg some (List.take_append_drop c.2 bs)

end Memory

end Rsemu
