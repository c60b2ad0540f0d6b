import Mathlib.Data.List.Basic
import Mathlib.Algebra.Order.Ring.Nat

/-!
# Decoding a stream that arrives in pieces

A decoder looks at the bytes in front of it and says that it needs more, that it has used so
many of them, or that they can never be right.

The laws a decoder keeps are fields of `Decoder`: it uses something of what is there, what it
has once said does not change as more arrives, and short of the whole item it waits. With them
a reader that keeps everything does not notice the cuts (`drain_append`). One that keeps no
more than a limit notices a cut exactly where an item is longer than the limit and one more
(`serve_whole`, `serve_cut`).
-/

namespace Rsemu.Incremental

/-- What a decoder in a state says of the bytes in front of it. -/
inductive Verdict (σ ω : Type) where
  | wait
  | take (used : Nat) (next : σ) (out : List ω)
  | fail

/-- A reader of items from input that arrives in pieces. -/
structure Decoder (σ β ω : Type) where
  next : σ → List β → Verdict σ ω
  /-- An item uses something, and no more than there is. -/
  used : ∀ {s bs n s' o}, next s bs = .take n s' o → 0 < n ∧ n ≤ bs.length
  /-- What has been said is not taken back. -/
  settled : ∀ {s bs} more, next s bs ≠ .wait → next s (bs ++ more) = next s bs
  /-- An item is its own bytes alone. -/
  exact : ∀ {s bs n s' o}, next s bs = .take n s' o → next s (bs.take n) = .take n s' o
  /-- Short of the whole item there is nothing to say. -/
  waits : ∀ {s bs n s' o k}, next s bs = .take n s' o → k < n → next s (bs.take k) = .wait

/-- What was taken from the front of a stream, and where that left the decoder: its
state and the bytes it waits on, or nothing once they can never be right. -/
structure Drained (σ β ω : Type) where
  items : List (Nat × List ω)
  left : Option (σ × List β)

namespace Drained

variable {σ β ω : Type}

def outs (r : Drained σ β ω) : List ω :=
  r.items.flatMap Prod.snd

def lengths (r : Drained σ β ω) : List Nat :=
  r.items.map Prod.fst

def cons (item : Nat × List ω) (r : Drained σ β ω) : Drained σ β ω :=
  { r with items := item :: r.items }

@[simp] theorem items_cons (item : Nat × List ω) (r : Drained σ β ω) :
    (r.cons item).items = item :: r.items := rfl

@[simp] theorem left_cons (item : Nat × List ω) (r : Drained σ β ω) :
    (r.cons item).left = r.left := rfl

@[simp] theorem outs_cons (item : Nat × List ω) (r : Drained σ β ω) :
    (r.cons item).outs = item.2 ++ r.outs := by
  simp [outs]

@[simp] theorem lengths_cons (item : Nat × List ω) (r : Drained σ β ω) :
    (r.cons item).lengths = item.1 :: r.lengths := rfl

end Drained

namespace Decoder

variable {σ β ω : Type} (d : Decoder σ β ω)

/-- Take whatever is whole. -/
def drain (s : σ) (bs : List β) : Drained σ β ω :=
  match _h : d.next s bs with
  | .wait => { items := [], left := some (s, bs) }
  | .fail => { items := [], left := none }
  | .take n s' o => (drain s' (bs.drop n)).cons (n, o)
termination_by bs.length
decreasing_by
  have hn := d.used _h
  rw [List.length_drop]
  omega

variable {bs rest : List β} {s s' : σ} {limit : Nat}

theorem drain_wait (h : d.next s bs = .wait) :
    d.drain s bs = { items := [], left := some (s, bs) } := by
  rw [drain]
  split
  · rfl
  · rename_i hf
    rw [h] at hf
    cases hf
  · rename_i ht
    rw [h] at ht
    cases ht

theorem drain_fail (h : d.next s bs = .fail) : d.drain s bs = { items := [], left := none } := by
  rw [drain]
  split
  · rename_i hw
    rw [h] at hw
    cases hw
  · rfl
  · rename_i ht
    rw [h] at ht
    cases ht

theorem drain_take {n : Nat} {o : List ω} (h : d.next s bs = .take n s' o) :
    d.drain s bs = (d.drain s' (bs.drop n)).cons (n, o) := by
  rw [drain]
  split
  · rename_i hw
    rw [h] at hw
    cases hw
  · rename_i hf
    rw [h] at hf
    cases hf
  · rename_i ht
    rw [h] at ht
    cases ht
    rfl

theorem drain_induction {motive : σ → List β → Prop}
    (wait : ∀ s bs, d.next s bs = .wait → motive s bs)
    (fail : ∀ s bs, d.next s bs = .fail → motive s bs)
    (take : ∀ s bs n s' o, d.next s bs = .take n s' o → motive s' (bs.drop n) → motive s bs)
    (s : σ) (bs : List β) : motive s bs := by
  induction hl : bs.length using Nat.strong_induction_on generalizing s bs with
  | _ l ih =>
    cases hv : d.next s bs with
    | wait => exact wait s bs hv
    | fail => exact fail s bs hv
    | take n s' o =>
      have hn := d.used hv
      refine take s bs n s' o hv (ih _ ?_ s' _ rfl)
      rw [List.length_drop]
      omega

theorem left_waits (h : (d.drain s bs).left = some (s', rest)) : d.next s' rest = .wait := by
  induction s, bs using d.drain_induction with
  | wait s bs hv =>
    rw [d.drain_wait hv] at h
    cases h
    exact hv
  | fail s bs hv =>
    rw [d.drain_fail hv] at h
    cases h
  | take s bs n s₁ o hv ih =>
    rw [d.drain_take hv] at h
    exact ih h

theorem drain_append (more : List β) (h : (d.drain s bs).left = some (s', rest)) :
    d.drain s (bs ++ more)
      = { items := (d.drain s bs).items ++ (d.drain s' (rest ++ more)).items
          left := (d.drain s' (rest ++ more)).left } := by
  induction s, bs using d.drain_induction with
  | wait s bs hv =>
    rw [d.drain_wait hv] at h ⊢
    cases h
    rfl
  | fail s bs hv =>
    rw [d.drain_fail hv] at h
    cases h
  | take s bs n s₁ o hv ih =>
    have hn := d.used hv
    have hne : d.next s bs ≠ .wait := by
      rw [hv]
      intro hc
      cases hc
    have hv' : d.next s (bs ++ more) = .take n s₁ o := by rw [d.settled more hne, hv]
    rw [d.drain_take hv] at h ⊢
    rw [d.drain_take hv', List.drop_append_of_le_length hn.2, ih h]
    rfl

theorem drain_append_failed (more : List β) (h : (d.drain s bs).left = none) :
    d.drain s (bs ++ more) = d.drain s bs := by
  induction s, bs using d.drain_induction with
  | wait s bs hv =>
    rw [d.drain_wait hv] at h
    cases h
  | fail s bs hv =>
    have hne : d.next s bs ≠ .wait := by
      rw [hv]
      intro hc
      cases hc
    rw [d.drain_fail hv, d.drain_fail (by rw [d.settled more hne, hv])]
  | take s bs n s₁ o hv ih =>
    have hn := d.used hv
    have hne : d.next s bs ≠ .wait := by
      rw [hv]
      intro hc
      cases hc
    have hv' : d.next s (bs ++ more) = .take n s₁ o := by rw [d.settled more hne, hv]
    rw [d.drain_take hv] at h ⊢
    rw [d.drain_take hv', List.drop_append_of_le_length hn.2, ih h]

theorem lengths_sum (h : (d.drain s bs).left = some (s', rest)) :
    (d.drain s bs).lengths.sum + rest.length = bs.length := by
  induction s, bs using d.drain_induction with
  | wait s bs hv =>
    rw [d.drain_wait hv] at h ⊢
    cases h
    exact Nat.zero_add _
  | fail s bs hv =>
    rw [d.drain_fail hv] at h
    cases h
  | take s bs n s₁ o hv ih =>
    have hn := d.used hv
    rw [d.drain_take hv] at h ⊢
    have ih := ih h
    rw [List.length_drop] at ih
    rw [Drained.lengths_cons, List.sum_cons]
    omega

theorem lengths_sum_le (s : σ) (bs : List β) : (d.drain s bs).lengths.sum ≤ bs.length := by
  induction s, bs using d.drain_induction with
  | wait s bs hv =>
    rw [d.drain_wait hv]
    exact Nat.zero_le _
  | fail s bs hv =>
    rw [d.drain_fail hv]
    exact Nat.zero_le _
  | take s bs n s₁ o hv ih =>
    have hn := d.used hv
    rw [d.drain_take hv, Drained.lengths_cons, List.sum_cons]
    rw [List.length_drop] at ih
    omega

theorem next_append {n : Nat} {o : List ω} (more : List β) (h : d.next s bs = .take n s' o) :
    d.next s (bs ++ more) = .take n s' o := by
  rw [d.settled more (by rw [h]; intro hc; cases hc), h]

theorem length_lt {more : List β} {n : Nat} {o : List ω} (hw : d.next s bs = .wait)
    (ht : d.next s (bs ++ more) = .take n s' o) : bs.length < n := by
  by_contra hle
  have he := d.exact ht
  rw [List.take_append_of_le_length (by omega)] at he
  have hb := d.next_append (bs.drop n) he
  rw [List.take_append_drop, hw] at hb
  cases hb

theorem items_append {more : List β} (h : (d.drain s (bs ++ more)).lengths.sum ≤ bs.length) :
    (d.drain s (bs ++ more)).items = (d.drain s bs).items := by
  cases hl : (d.drain s bs).left with
  | none => rw [d.drain_append_failed more hl]
  | some w =>
    obtain ⟨s', rest⟩ := w
    have hsum := d.lengths_sum hl
    have hw := d.left_waits hl
    rw [d.drain_append more hl] at h ⊢
    cases hv : d.next s' (rest ++ more) with
    | wait => simp [d.drain_wait hv]
    | fail => simp [d.drain_fail hv]
    | take n s₁ o =>
      have hn := d.length_lt hw hv
      rw [d.drain_take hv] at h
      simp only [Drained.lengths, List.map_append, List.sum_append, Drained.items_cons,
        List.map_cons, List.sum_cons] at h hsum
      omega

theorem lengths_append (more : List β) {n : Nat} (h : n ∈ (d.drain s bs).lengths) :
    n ∈ (d.drain s (bs ++ more)).lengths := by
  cases hl : (d.drain s bs).left with
  | none => rwa [d.drain_append_failed more hl]
  | some w =>
    rw [d.drain_append more hl, Drained.lengths, List.map_append]
    exact List.mem_append_left _ h

theorem items_lt {more : List β} (h : bs.length < (d.drain s (bs ++ more)).lengths.sum) :
    (d.drain s bs).items.length < (d.drain s (bs ++ more)).items.length := by
  obtain ⟨tail, htail⟩ :
      ∃ tail, (d.drain s (bs ++ more)).items = (d.drain s bs).items ++ tail := by
    cases hl : (d.drain s bs).left with
    | none => exact ⟨[], by rw [d.drain_append_failed more hl, List.append_nil]⟩
    | some w =>
      obtain ⟨s', rest⟩ := w
      exact ⟨(d.drain s' (rest ++ more)).items, by rw [d.drain_append more hl]⟩
  cases tail with
  | nil =>
    have hle := d.lengths_sum_le s bs
    rw [Drained.lengths, htail, List.append_nil] at h
    rw [Drained.lengths] at hle
    omega
  | cons item tail =>
    rw [htail, List.length_append, List.length_cons]
    omega

def keep (limit : Nat) : Option (σ × List β) → Option (σ × List β)
  | none => none
  | some (s, rest) => if rest.length > limit then none else some (s, rest)

@[simp] theorem keep_none (limit : Nat) : keep limit (none : Option (σ × List β)) = none := rfl

theorem keep_of_le (s : σ) (h : rest.length ≤ limit) :
    keep limit (some (s, rest)) = some (s, rest) :=
  if_neg (by omega)

theorem keep_of_lt (s : σ) (h : limit < rest.length) : keep limit (some (s, rest)) = none :=
  if_pos h

/-- One turn of a reader that keeps no more than `limit`: what more there is, decoded,
and what is kept, unless the stream is given up. -/
def poll (limit : Nat) (s : σ) (inbox chunk : List β) : List ω × Option (σ × List β) :=
  ((d.drain s (inbox ++ chunk)).outs, keep limit (d.drain s (inbox ++ chunk)).left)

/-- Pieces put behind what is kept, and the connection given up when that is too much. -/
def serve (limit : Nat) : σ → List β → List (List β) → List ω × Option (σ × List β)
  | s, inbox, [] => ([], some (s, inbox))
  | s, inbox, chunk :: chunks =>
    match (d.poll limit s inbox chunk).2 with
    | none => ((d.poll limit s inbox chunk).1, none)
    | some w =>
      ((d.poll limit s inbox chunk).1 ++ (serve limit w.1 w.2 chunks).1,
        (serve limit w.1 w.2 chunks).2)

theorem serve_stop {inbox chunk : List β} (chunks : List (List β))
    (h : (d.poll limit s inbox chunk).2 = none) :
    d.serve limit s inbox (chunk :: chunks) = ((d.poll limit s inbox chunk).1, none) := by
  rw [serve, h]

theorem serve_go {inbox chunk : List β} (chunks : List (List β))
    (h : (d.poll limit s inbox chunk).2 = some (s', rest)) :
    d.serve limit s inbox (chunk :: chunks)
      = ((d.poll limit s inbox chunk).1 ++ (d.serve limit s' rest chunks).1,
          (d.serve limit s' rest chunks).2) := by
  rw [serve, h]

theorem serve_one (limit : Nat) (s : σ) (inbox chunk : List β) :
    d.serve limit s inbox [chunk] = d.poll limit s inbox chunk := by
  cases hp : (d.poll limit s inbox chunk).2 with
  | none => rw [d.serve_stop [] hp, ← hp]
  | some w =>
    rw [d.serve_go [] hp, serve, List.append_nil, ← hp]

/-- Input that more input can make fail is no longer than `limit`. -/
def FailsWithin (limit : Nat) : Prop :=
  ∀ {s bs more}, d.next s bs = .wait → d.next s (bs ++ more) = .fail → bs.length ≤ limit

/-- Every item read says something. -/
def Speaks : Prop :=
  ∀ {s bs n s' o}, d.next s bs = .take n s' o → o ≠ []

theorem serve_whole (hf : d.FailsWithin limit) {chunks : List (List β)} {inbox : List β}
    (hw : d.next s inbox = .wait) (hi : inbox.length ≤ limit)
    (hl : ∀ n ∈ (d.drain s (inbox ++ chunks.flatten)).lengths, n ≤ limit + 1) :
    d.serve limit s inbox chunks = d.poll limit s inbox chunks.flatten := by
  induction chunks generalizing s inbox with
  | nil =>
    rw [serve, poll, List.flatten_nil, List.append_nil, d.drain_wait hw, keep_of_le s hi]
    rfl
  | cons chunk chunks ih =>
    rw [List.flatten_cons, ← List.append_assoc] at hl
    have hwhole : d.poll limit s inbox (chunk :: chunks).flatten
        = ((d.drain s (inbox ++ chunk ++ chunks.flatten)).outs,
            keep limit (d.drain s (inbox ++ chunk ++ chunks.flatten)).left) := by
      rw [poll, List.flatten_cons, ← List.append_assoc]
    rw [hwhole]
    cases hd : (d.drain s (inbox ++ chunk)).left with
    | none =>
      have hp : (d.poll limit s inbox chunk).2 = none := by rw [poll, hd, keep_none]
      rw [d.serve_stop chunks hp, d.drain_append_failed _ hd, hd]
      rfl
    | some w =>
      obtain ⟨s', rest⟩ := w
      have hw' := d.left_waits hd
      rw [d.drain_append _ hd] at hl ⊢
      have hl' : ∀ n ∈ (d.drain s' (rest ++ chunks.flatten)).lengths, n ≤ limit + 1 := by
        intro n hn
        refine hl n ?_
        rw [Drained.lengths, List.map_append]
        exact List.mem_append_right _ hn
      by_cases hr : rest.length ≤ limit
      · have hp : (d.poll limit s inbox chunk).2 = some (s', rest) := by
          rw [poll, hd, keep_of_le s' hr]
        rw [d.serve_go chunks hp, ih hw' hr hl', poll, poll]
        simp only [Drained.outs, List.flatMap_append]
      · -- what is kept is already too long, and no item that short follows
        have hp : (d.poll limit s inbox chunk).2 = none := by
          rw [poll, hd, keep_of_lt s' (by omega)]
        have hwait : d.next s' (rest ++ chunks.flatten) = .wait := by
          cases hv : d.next s' (rest ++ chunks.flatten) with
          | wait => rfl
          | fail => exact absurd (hf hw' hv) hr
          | take n s₁ o =>
            have hn := d.length_lt hw' hv
            rw [d.drain_take hv] at hl'
            have := hl' n List.mem_cons_self
            omega
        have hlong : limit < (rest ++ chunks.flatten).length := by
          rw [List.length_append]
          omega
        rw [d.serve_stop chunks hp, d.drain_wait hwait, keep_of_lt s' hlong, poll]
        simp only [List.append_nil]
        rfl

theorem exists_cut {n : Nat} (hn : n ∈ (d.drain s bs).lengths) (hlong : limit + 1 < n) :
    ∃ front more s' rest, bs = front ++ more ∧ (d.drain s front).left = some (s', rest) ∧
      limit < rest.length ∧ (d.drain s front).items.length < (d.drain s bs).items.length := by
  induction s, bs using d.drain_induction with
  | wait s bs hv =>
    rw [d.drain_wait hv] at hn
    cases hn
  | fail s bs hv =>
    rw [d.drain_fail hv] at hn
    cases hn
  | take s bs m s₁ o hv ih =>
    have hm := d.used hv
    rw [d.drain_take hv, Drained.lengths_cons, List.mem_cons] at hn
    rcases hn with rfl | hn
    · have hw := d.waits hv (show n - 1 < n by omega)
      refine ⟨bs.take (n - 1), bs.drop (n - 1), s, bs.take (n - 1),
        (List.take_append_drop _ _).symm, by rw [d.drain_wait hw], ?_, ?_⟩
      · rw [List.length_take]
        omega
      · rw [d.drain_wait hw, d.drain_take hv]
        exact Nat.succ_pos _
    · obtain ⟨front, more, s', rest, hbs, hleft, hrest, hitems⟩ := ih hn
      have hv' := d.next_append front (d.exact hv)
      have hdrop : (bs.take m ++ front).drop m = front := by
        rw [List.drop_append_of_le_length (by rw [List.length_take]; omega),
          List.drop_take, Nat.sub_self, List.take_zero, List.nil_append]
      refine ⟨bs.take m ++ front, more, s', rest, ?_, ?_, hrest, ?_⟩
      · rw [List.append_assoc, ← hbs, List.take_append_drop]
      · rw [d.drain_take hv', hdrop]
        exact hleft
      · rw [d.drain_take hv', d.drain_take hv, hdrop]
        exact Nat.succ_lt_succ hitems

theorem outs_append_ne (ho : d.Speaks) {front more : List β}
    (h : (d.drain s front).items.length < (d.drain s (front ++ more)).items.length) :
    (d.drain s front).outs ≠ (d.drain s (front ++ more)).outs := by
  cases hl : (d.drain s front).left with
  | none =>
    rw [d.drain_append_failed more hl] at h
    omega
  | some w =>
    obtain ⟨s', rest⟩ := w
    rw [d.drain_append more hl] at h ⊢
    cases hv : d.next s' (rest ++ more) with
    | wait => simp [d.drain_wait hv] at h
    | fail => simp [d.drain_fail hv] at h
    | take n s₁ o =>
      have hne := ho hv
      rw [d.drain_take hv]
      intro heq
      have hlen := congrArg List.length heq
      have hpos := List.length_pos_of_ne_nil hne
      simp only [Drained.outs, Drained.items_cons, List.flatMap_append, List.flatMap_cons,
        List.length_append] at hlen
      omega

end Decoder

end Rsemu.Incremental
