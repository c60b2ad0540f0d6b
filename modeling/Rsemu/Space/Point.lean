import Mathlib.Data.List.Sigma
import Rsemu.Space.Flat

/-!
# Flattening, one address at a time

The flattener works on ranges: it cuts, decides and merges. This module says what it
computes at a single address, which is what every statement about a flat view is
about.

`point` walks the tree with an address instead of a window, and makes each
container's decision once. `resolveRegion_point` is the result: the pieces of a
window tile it, and what the piece covering an address answers there is what `point`
answers. The cuts and the merges do not show.

The one thing a window can do that an address cannot is start beyond the top of the
64-bit range, when an alias has been stretched; `Wraps` says where that shows.
-/

namespace Rsemu.Space

open Word

/-! ## A piece seen from one of its points -/

def LeafSpec.seen (n : Nat) (l : LeafSpec) : LeafSpec :=
  { l with
    fixed := if l.period = 0 then wrappingAdd 64 l.fixed n else wrappingAdd 64 l.fixed n % l.period }

def Answer.seen (n : Nat) (a : Answer) : Answer := { a with leaves := a.leaves.map (·.seen n) }

def Piece.covers (x : Nat) (p : Piece) : Bool := p.start ≤ x && x < p.start + p.len

def answerAt (pieces : List Piece) (x : Nat) : Option Answer :=
  (pieces.find? (·.covers x)).map fun p => p.toAnswer.seen (x - p.start)

/-- Every node of a region tree. -/
inductive Sub : Region → Region → Prop where
  | refl (r : Region) : Sub r r
  | window {s r : Region} {a : Alias Region} : r.kind = .alias a → Sub s a.target → Sub s r
  | child {s r : Region} {children : List (Mapping Region)} {combine : CombinePolicy}
      {m : Mapping Region} :
      r.kind = .container children combine → m ∈ children → Sub s m.region → Sub s r

/-- The mapping places its region over `y`. -/
def Mapping.Covers (m : Mapping Region) (y : Nat) : Prop :=
  m.base ≤ y ∧ y < m.base + m.region.len

/-- **A path from `y` enters a window past the top of the 64-bit range**, and comes out over its
target again. `off` is where the part of the region that is looked at starts. -/
inductive Wraps (cells : Cells) : Region → Nat → Nat → Prop where
  | here {r : Region} {a : Alias Region} {off y : Nat} :
      r.kind = .alias a → a.repeats = false → y < r.len → 2 ^ 64 ≤ cells a.id + off →
      wrappingAdd 64 (cells a.id) off + (y - off) < a.target.len → Wraps cells r off y
  | window {r : Region} {a : Alias Region} {off y : Nat} :
      r.kind = .alias a → a.repeats = false → y < r.len → cells a.id + off < 2 ^ 64 →
      Wraps cells a.target (cells a.id + off) (cells a.id + y) → Wraps cells r off y
  | child {r : Region} {children : List (Mapping Region)} {combine : CombinePolicy}
      {m : Mapping Region} {off y : Nat} :
      r.kind = .container children combine → y < r.len → m ∈ children → m.Covers y →
      Wraps cells m.region (off - m.base) (y - m.base) → Wraps cells r off y

def rankedChildren (children : List (Mapping Region)) : List (Mapping Region × Nat) :=
  children.zipIdx.insertionSort fun i j =>
    j.1.priority < i.1.priority ∨ i.1.priority = j.1.priority ∧ j.2 ≤ i.2

def childAt (resolve : Region → Nat → Perms → Option Answer) (limit : Nat) (perms : Perms)
    (y : Nat) (child : Mapping Region × Nat) : Option Answer :=
  if child.1.base ≤ y ∧ y < min child.1.stop limit then
    resolve child.1.region (y - child.1.base) (perms.intersect child.1.perms)
  else none

def settle (combine : CombinePolicy) : List Answer → Option Answer
  | [] => none
  | active => some (choose combine active)

def pointChildren (resolve : Region → Nat → Perms → Option Answer)
    (children : List (Mapping Region)) (limit y : Nat) (combine : CombinePolicy)
    (perms : Perms) : Option Answer :=
  settle combine ((rankedChildren children).filterMap (childAt resolve limit perms y))

def leafAnswer (l : LeafSpec) : Answer := ⟨[l], .priority, false⟩

/-- What a region answers at offset `y`. -/
def point (cells : Cells) : Nat → Region → Nat → Perms → Option Answer
  | 0, _, _, _ => none
  | levels + 1, r, y, perms =>
    if r.len ≤ y then none
    else
      match r.kind with
      | .ram store => some (leafAnswer ⟨.ram store, y, [], 0, r.constraints, perms⟩)
      | .rom store onWrite =>
        some (leafAnswer ⟨.rom store onWrite, y, [], 0, r.constraints, perms⟩)
      | .io ops => some (leafAnswer ⟨.io ops, y, [], 0, r.constraints, perms⟩)
      | .alias a =>
        if a.repeats then
          (leafTarget a.target).map fun target =>
            leafAnswer ⟨target, y % a.target.len, [], a.target.len, r.constraints, perms⟩
        else
          (point cells levels a.target (cells a.id + y) (perms.intersect .rwx)).map
            fun ans => { ans with leaves := ans.leaves.map (windowLeaf cells r a) }
      | .container children combine =>
        pointChildren (point cells levels) children r.len y combine perms

/-! ## Cutting and choosing commute with looking at a point -/

theorem wrappingAdd_assoc (w a b c : Nat) :
    wrappingAdd w (wrappingAdd w a b) c = wrappingAdd w a (b + c) := by
  unfold wrappingAdd
  rw [Nat.mod_add_mod, Nat.add_assoc]

theorem LeafSpec.seen_cut (n k : Nat) (l : LeafSpec) : (l.cut n).seen k = l.seen (n + k) := by
  unfold seen cut
  simp only [wrappingAdd_assoc]

theorem Answer.seen_answers (n : Nat) (a : Answer) (want : Perms) :
    (a.seen n).answers want = a.answers want := by
  unfold seen answers
  rw [List.any_map]
  rfl

theorem Answer.seen_length (n : Nat) (a : Answer) : (a.seen n).leaves.length = a.leaves.length := by
  simp [seen]

theorem Cand.seen_cut (c : Cand) (a n : Nat) :
    (c.cut a).seen n = c.toAnswer.seen (a - c.start + n) := by
  unfold cut Answer.seen
  simp only [List.map_map, Answer.mk.injEq, and_true]
  exact List.map_congr_left fun l _ => l.seen_cut _ _

theorem choose_seen (combine : CombinePolicy) (n : Nat) (active : List Answer)
    (hne : active ≠ []) :
    choose combine (active.map (·.seen n)) = (choose combine active).seen n := by
  have hf : ∀ want, ((·.answers want) ∘ fun a : Answer => a.seen n) = (·.answers want) := by
    intro want
    funext a
    exact Answer.seen_answers n a want
  unfold choose
  by_cases hc : combine ≠ .priority
  · simp only [if_pos hc, Answer.seen, List.map_flatMap, List.flatMap_map]
  · simp only [if_neg hc, List.find?_map, List.findIdx_map, hf]
    cases hr : active.find? (·.answers .read) with
    | none =>
      cases hw : active.find? (·.answers .write) with
      | none =>
        obtain ⟨i, rest, rfl⟩ := List.exists_cons_of_ne_nil hne
        rfl
      | some w => rfl
    | some r =>
      cases hw : active.find? (·.answers .write) with
      | none => rfl
      | some w =>
        simp only [Option.map_some, Answer.seen_length]
        split
        · simp [Answer.seen]
        · rfl

/-! ## Merging does not show -/

theorem LeafSpec.seen_of_continues {l next : LeafSpec} {len : Nat}
    (h : l.continues next len = true) (k : Nat) : l.seen (len + k) = next.seen k := by
  unfold continues at h
  split at h
  · cases h
  · rename_i hp
    simp only [Bool.and_eq_true, beq_iff_eq] at h
    obtain ⟨⟨⟨⟨ht, hc⟩, hperm⟩, hterms⟩, hfix⟩ := h
    have hl : l.period = 0 := by by_contra hne; exact hp (Or.inl hne)
    have hn : next.period = 0 := by by_contra hne; exact hp (Or.inr hne)
    unfold seen
    rw [if_pos hl, if_pos hn, ← wrappingAdd_assoc, hfix]
    simp only [LeafSpec.mk.injEq]
    exact ⟨ht, trivial, hterms, hl.trans hn.symm, hc, hperm⟩

theorem map_seen_of_continues {ls ns : List LeafSpec} {len : Nat} (hlen : ls.length = ns.length)
    (h : (ls.zip ns).all (fun p => p.1.continues p.2 len) = true) (k : Nat) :
    ls.map (·.seen (len + k)) = ns.map (·.seen k) := by
  induction ls generalizing ns with
  | nil =>
    cases ns with
    | nil => rfl
    | cons n ns => cases hlen
  | cons l ls ih =>
    cases ns with
    | nil => cases hlen
    | cons n ns =>
      simp only [List.zip_cons_cons, List.all_cons, Bool.and_eq_true] at h
      simp only [List.map_cons]
      rw [LeafSpec.seen_of_continues h.1, ih (by simpa using hlen) h.2]

/-- Pieces newest first: apart, none empty, and all below `b`. -/
structure Piled (b : Nat) (ps : List Piece) : Prop where
  apart : ps.Pairwise fun p q => q.start + q.len ≤ p.start
  pos : ∀ p ∈ ps, 0 < p.len
  below : ∀ p ∈ ps, p.start + p.len ≤ b

theorem covers_iff {x : Nat} {p : Piece} :
    p.covers x = true ↔ p.start ≤ x ∧ x < p.start + p.len := by
  simp [Piece.covers]

theorem answerAt_cons_of_covers {p : Piece} {ps : List Piece} {x : Nat}
    (h : p.start ≤ x ∧ x < p.start + p.len) :
    answerAt (p :: ps) x = some (p.toAnswer.seen (x - p.start)) := by
  simp [answerAt, List.find?_cons_of_pos (covers_iff.mpr h)]

theorem answerAt_cons_of_not_covers {p : Piece} {ps : List Piece} {x : Nat}
    (h : ¬ (p.start ≤ x ∧ x < p.start + p.len)) : answerAt (p :: ps) x = answerAt ps x := by
  unfold answerAt
  rw [List.find?_cons_of_neg (fun hc => h (covers_iff.mp hc))]

theorem push_spec {a b : Nat} {ps : List Piece} {piece : Piece} (h : Piled a ps)
    (hs : piece.start = a) (hl : piece.len = b - a) (hab : a < b) (hb : b < 2 ^ 64) :
    Piled b (pushPiece piece ps) ∧
      ∀ x < b, answerAt (pushPiece piece ps) x =
        if x < a then answerAt ps x else some (piece.toAnswer.seen (x - a)) := by
  -- the piece set down on its own
  have hfresh : Piled b (piece :: ps) ∧ ∀ x < b, answerAt (piece :: ps) x =
      if x < a then answerAt ps x else some (piece.toAnswer.seen (x - a)) := by
    refine ⟨⟨List.pairwise_cons.mpr ⟨fun q hq => ?_, h.apart⟩, ?_, ?_⟩, ?_⟩
    · rw [hs]; exact h.below q hq
    · intro p hp
      rcases List.mem_cons.mp hp with rfl | hp
      · omega
      · exact h.pos p hp
    · intro p hp
      rcases List.mem_cons.mp hp with rfl | hp
      · omega
      · have := h.below p hp
        omega
    · intro x hx
      by_cases hxa : x < a
      · rw [if_pos hxa]
        exact answerAt_cons_of_not_covers (by omega)
      · rw [if_neg hxa, answerAt_cons_of_covers (by omega), hs]
  cases ps with
  | nil => exact hfresh
  | cons prev rest =>
    simp only [pushPiece]
    split
    · rename_i hext
      simp only [Piece.extendedBy, Bool.and_eq_true, beq_iff_eq] at hext
      obtain ⟨⟨⟨⟨hadj, hcomb⟩, hdir⟩, hcount⟩, hcont⟩ := hext
      have hbelow := h.below prev (List.mem_cons_self ..)
      rw [hs, wrappingAdd_of_lt (by omega)] at hadj
      obtain ⟨hsep, hrest⟩ := List.pairwise_cons.mp h.apart
      refine ⟨⟨List.pairwise_cons.mpr ⟨hsep, hrest⟩, ?_, ?_⟩, ?_⟩
      · intro p hp
        rcases List.mem_cons.mp hp with rfl | hp
        · have := h.pos prev (List.mem_cons_self ..)
          simp only
          omega
        · exact h.pos p (List.mem_cons_of_mem _ hp)
      · intro p hp
        rcases List.mem_cons.mp hp with rfl | hp
        · simp only
          omega
        · have := h.below p (List.mem_cons_of_mem _ hp)
          omega
      · intro x hx
        by_cases hxp : x < prev.start
        · rw [if_pos (by omega), answerAt_cons_of_not_covers (by simp only; omega),
            answerAt_cons_of_not_covers (by omega)]
        · rw [answerAt_cons_of_covers (by simp only; omega)]
          by_cases hxa : x < a
          · rw [if_pos hxa, answerAt_cons_of_covers (by omega)]
          · rw [if_neg hxa]
            -- past the seam, the offsets carry on
            have hk := map_seen_of_continues hcount hcont (x - a)
            rw [show prev.len + (x - a) = x - prev.start by omega] at hk
            simp only [Answer.seen, hk, hcomb, hdir]
    · exact hfresh

/-! ## The sweep -/

/-- Pieces in order: apart, none empty, and all below `hi`. -/
structure Tiles (hi : Nat) (ps : List Piece) : Prop where
  apart : ps.Pairwise fun p q => p.start + p.len ≤ q.start
  pos : ∀ p ∈ ps, 0 < p.len
  below : ∀ p ∈ ps, p.start + p.len ≤ hi

theorem Tiles.unique {hi x : Nat} {ps : List Piece} (h : Tiles hi ps) :
    ∀ p ∈ ps, ∀ q ∈ ps, p.covers x = true → q.covers x = true → p = q := by
  have hd : ∀ {p q : Piece}, p.start + p.len ≤ q.start →
      p.covers x = true → q.covers x = true → False := by
    intro p q hpq hp hq
    rw [covers_iff] at hp hq
    omega
  have hpw : ps.Pairwise fun p q => p.covers x = true → q.covers x = true → p = q :=
    h.apart.imp fun hpq hp hq => (hd hpq hp hq).elim
  have hflip : ps.Pairwise (flip fun p q => p.covers x = true → q.covers x = true → p = q) :=
    h.apart.imp fun hpq hq hp => (hd hpq hp hq).elim
  exact fun p hp q hq => hpw.forall_of_forall_of_flip (fun _ _ _ _ => rfl) hflip hp hq

theorem Piled.reverse {b : Nat} {ps : List Piece} (h : Piled b ps) : Tiles b ps.reverse :=
  ⟨List.pairwise_reverse.mpr h.apart, fun p hp => h.pos p (List.mem_reverse.mp hp),
    fun p hp => h.below p (List.mem_reverse.mp hp)⟩

theorem answerAt_eq_none {ps : List Piece} {x : Nat} :
    answerAt ps x = none ↔ ∀ p ∈ ps, ¬ (p.start ≤ x ∧ x < p.start + p.len) := by
  simp [answerAt, Piece.covers]

theorem Tiles.answerAt_eq_some {hi x : Nat} {ps : List Piece} (h : Tiles hi ps) {a : Answer} :
    answerAt ps x = some a ↔
      ∃ p ∈ ps, (p.start ≤ x ∧ x < p.start + p.len) ∧ a = p.toAnswer.seen (x - p.start) := by
  constructor
  · intro ha
    obtain ⟨p, hp, rfl⟩ := Option.map_eq_some_iff.mp ha
    exact ⟨p, List.mem_of_find?_eq_some hp, covers_iff.mp (List.find?_some hp), rfl⟩
  · rintro ⟨p, hp, hc, rfl⟩
    cases hf : ps.find? (·.covers x) with
    | none => exact absurd (covers_iff.mpr hc) (List.find?_eq_none.mp hf p hp)
    | some q =>
      rw [h.unique p hp q (List.mem_of_find?_eq_some hf) (covers_iff.mpr hc)
        (List.find?_some hf)]
      simp [answerAt, hf]

theorem Tiles.answerAt_reverse {hi x : Nat} {ps : List Piece} (h : Tiles hi ps.reverse) :
    answerAt ps.reverse x = answerAt ps x := by
  cases ha : answerAt ps x with
  | none =>
    rw [answerAt_eq_none] at ha ⊢
    exact fun p hp => ha p (List.mem_reverse.mp hp)
  | some a =>
    obtain ⟨p, hp, rfl⟩ := Option.map_eq_some_iff.mp ha
    exact h.answerAt_eq_some.mpr ⟨p, List.mem_reverse.mpr (List.mem_of_find?_eq_some hp),
      covers_iff.mp (List.find?_some hp), rfl⟩

instance : Std.Total Ahead where
  total i j := by
    unfold Ahead
    omega

instance : IsTrans (Cand × Nat) Ahead where
  trans i j k hij hjk := by
    unfold Ahead at *
    omega

def activeAt (cands : List Cand) (x : Nat) : List (Cand × Nat) :=
  Sweep.active (fun i : Cand × Nat => i.1.start) (fun i => i.1.stop) Ahead cands.zipIdx x

theorem zipIdx_inj {α : Type} {l : List α} {i j : α × Nat} (hi : i ∈ l.zipIdx)
    (hj : j ∈ l.zipIdx) (h : i.2 = j.2) : i = j := by
  rw [List.mem_zipIdx_iff_getElem?] at hi hj
  rw [h, hj] at hi
  exact Prod.ext (Option.some.inj hi).symm h

/-- **The state of the sweep at `b`**: every point below is decided, and no piece passes it. -/
structure Decided (cands : List Cand) (combine : CombinePolicy) (b : Nat) (ps : List Piece) :
    Prop where
  piled : Piled b ps
  answer : ∀ x < b, answerAt ps x =
    settle combine ((activeAt cands x).map fun i => i.1.toAnswer.seen (x - i.1.start))

theorem activeAt_eq_nil {cands : List Cand} {x : Nat}
    (h : ∀ i ∈ cands.zipIdx, ¬ (i.1.start ≤ x ∧ x < i.1.stop)) : activeAt cands x = [] := by
  rw [List.eq_nil_iff_forall_not_mem]
  intro i hi
  obtain ⟨hi', hx⟩ := Sweep.mem_active.mp hi
  exact h i hi' hx

theorem decided_init {cands : List Cand} {combine : CombinePolicy} {a : Nat}
    (h : ∀ i ∈ cands.zipIdx, a ≤ i.1.start) : Decided cands combine a [] := by
  refine ⟨⟨List.Pairwise.nil, by simp, by simp⟩, fun x hx => ?_⟩
  rw [activeAt_eq_nil fun i hi hx' => by have := h i hi; omega]
  rfl

theorem decided_skip {cands : List Cand} {combine : CombinePolicy} {a b : Nat}
    {ps : List Piece} (hab : a < b) (hact : ∀ x, a ≤ x → x < b → activeAt cands x = [])
    (h : Decided cands combine a ps) : Decided cands combine b ps := by
  refine ⟨⟨h.piled.apart, h.piled.pos, fun p hp => ?_⟩, fun x hx => ?_⟩
  · have := h.piled.below p hp
    omega
  · by_cases hxa : x < a
    · exact h.answer x hxa
    · rw [hact x (by omega) hx]
      exact answerAt_eq_none.mpr fun p hp => by have := h.piled.below p hp; omega

theorem decided_emit {cands : List Cand} {combine : CombinePolicy} {a b : Nat}
    {ps : List Piece} {act : List (Cand × Nat)} (hab : a < b) (hb : b < 2 ^ 64) (hne : act ≠ [])
    (hact : ∀ x, a ≤ x → x < b → activeAt cands x = act) (h : Decided cands combine a ps) :
    Decided cands combine b (emitPiece combine a b act ps) := by
  have hpush := @push_spec a b ps { choose combine (act.map fun i => i.1.cut a) with
    start := a, len := b - a } h.piled rfl rfl hab hb
  refine ⟨hpush.1, fun x hx => ?_⟩
  rw [emitPiece, hpush.2 x hx]
  by_cases hxa : x < a
  · rw [if_pos hxa]
    exact h.answer x hxa
  · rw [if_neg hxa, hact x (by omega) hx]
    -- each candidate covers the whole interval, so it starts no later than `a`
    have hmap : act.map ((fun c : Answer => c.seen (x - a)) ∘ fun i => i.1.cut a)
        = act.map fun i => i.1.toAnswer.seen (x - i.1.start) := by
      refine List.map_congr_left fun i hi => ?_
      have hle := (Sweep.mem_active.mp (hact a (Nat.le_refl a) hab ▸ hi)).2.1
      simp only [Function.comp_apply, Cand.seen_cut]
      congr 1
      omega
    rw [← choose_seen combine (x - a) _ (by simpa using hne), List.map_map, hmap]
    obtain ⟨i, rest, rfl⟩ := List.exists_cons_of_ne_nil hne
    rfl

theorem resolveOverlaps_spec {cands : List Cand} {combine : CombinePolicy} {hi : Nat}
    (hhi : hi < 2 ^ 64) (hc : ∀ c ∈ cands, c.start + c.len ≤ hi) :
    Tiles hi (resolveOverlaps cands combine) ∧
      ∀ x, answerAt (resolveOverlaps cands combine) x =
        settle combine ((activeAt cands x).map fun i => i.1.toAnswer.seen (x - i.1.start)) := by
  have hmem : ∀ i ∈ cands.zipIdx, i.1.start + i.1.len ≤ hi := by
    intro i hi
    rw [List.mem_zipIdx_iff_getElem?] at hi
    exact hc i.1 (List.mem_of_getElem? hi)
  have hstop : ∀ i ∈ cands.zipIdx, i.1.stop = i.1.start + i.1.len := by
    intro i hi
    have := hmem i hi
    unfold Cand.stop saturatingAdd
    omega
  have hanti : ∀ i ∈ cands.zipIdx, ∀ j ∈ cands.zipIdx, Ahead i j → Ahead j i → i = j := by
    intro i hi j hj hij hji
    refine zipIdx_inj hi hj ?_
    unfold Ahead at hij hji
    omega
  have hsweep : ∃ b, (∀ i ∈ cands.zipIdx, i.1.stop ≤ b) ∧ Decided cands combine b
      (Sweep.sweep (fun i : Cand × Nat => i.1.start) (fun i => i.1.stop) Ahead
        (emitPiece combine) cands.zipIdx []) := by
    refine Sweep.sweep_induction hi hanti (fun i hi => ?_) (fun a => decided_init) ?_
    · have := hmem i hi
      rw [hstop i hi]
      omega
    · intro a b ps act hab hbhi hact h
      by_cases hemp : act = []
      · subst hemp
        exact decided_skip hab hact h
      · have hfalse : act.isEmpty = false := by simpa using hemp
        simp only [hfalse, Bool.false_eq_true, if_false]
        exact decided_emit hab (by omega) hemp hact h
  obtain ⟨b, hb, hdec⟩ := hsweep
  have htiles := hdec.piled.reverse
  have hanswer : ∀ x, answerAt (resolveOverlaps cands combine) x =
      settle combine ((activeAt cands x).map fun i => i.1.toAnswer.seen (x - i.1.start)) := by
    intro x
    unfold resolveOverlaps
    rw [htiles.answerAt_reverse]
    by_cases hx : x < b
    · exact hdec.answer x hx
    · -- past the last boundary there is neither a candidate nor a piece
      rw [activeAt_eq_nil fun i hi hx' => by have := hb i hi; omega]
      exact answerAt_eq_none.mpr fun p hp => by have := hdec.piled.below p hp; omega
  refine ⟨⟨htiles.apart, htiles.pos, fun p hp => ?_⟩, hanswer⟩
  -- the last point of a piece is covered by a candidate
  have hpos := htiles.pos p hp
  have hsome := htiles.answerAt_eq_some.mpr ⟨p, hp, ⟨show p.start ≤ p.start + p.len - 1 by omega,
    by omega⟩, rfl⟩
  have hset := (hanswer (p.start + p.len - 1)).symm.trans hsome
  cases hact : activeAt cands (p.start + p.len - 1) with
  | nil => rw [hact] at hset; exact absurd hset (by simp [settle])
  | cons i rest =>
    have hi : i ∈ activeAt cands (p.start + p.len - 1) := hact ▸ List.mem_cons_self ..
    obtain ⟨hi', _, hlt⟩ := Sweep.mem_active.mp hi
    have := hmem i hi'
    rw [hstop i hi'] at hlt
    omega

/-! ## Children -/

section Gather

variable {ε α β : Type} {f : α → Except ε (List β)} {l : List α} {ys : List β}

theorem gather_cons_ok {a : α} (h : gather f (a :: l) = .ok ys) :
    ∃ x xs, f a = .ok x ∧ gather f l = .ok xs ∧ ys = x ++ xs := by
  simp only [gather, bind, Except.bind] at h
  split at h
  · cases h
  · rename_i x hx
    split at h
    · cases h
    · rename_i xs hxs
      exact ⟨x, xs, hx, hxs, (Except.ok.inj h).symm⟩

theorem gather_ok_of_mem {a : α} (h : gather f l = .ok ys) (ha : a ∈ l) : ∃ x, f a = .ok x := by
  induction l generalizing ys with
  | nil => cases ha
  | cons b l ih =>
    obtain ⟨x, xs, hx, hxs, _⟩ := gather_cons_ok h
    rcases List.mem_cons.mp ha with rfl | ha
    · exact ⟨x, hx⟩
    · exact ih hxs ha

theorem mem_gather {y : β} (h : gather f l = .ok ys) :
    y ∈ ys ↔ ∃ a ∈ l, ∃ x, f a = .ok x ∧ y ∈ x := by
  induction l generalizing ys with
  | nil =>
    simp only [gather, Except.ok.injEq] at h
    subst h
    simp
  | cons b l ih =>
    obtain ⟨x, xs, hx, hxs, rfl⟩ := gather_cons_ok h
    simp [ih hxs, hx]

theorem gather_pairwise {R : β → β → Prop} (h : gather f l = .ok ys)
    (hin : ∀ a ∈ l, ∀ x, f a = .ok x → x.Pairwise R)
    (hout : l.Pairwise fun a b => ∀ x y, f a = .ok x → f b = .ok y →
      ∀ u ∈ x, ∀ v ∈ y, R u v) : ys.Pairwise R := by
  induction l generalizing ys with
  | nil =>
    simp only [gather, Except.ok.injEq] at h
    subst h
    exact List.Pairwise.nil
  | cons b l ih =>
    obtain ⟨x, xs, hx, hxs, rfl⟩ := gather_cons_ok h
    obtain ⟨hb, hl⟩ := List.pairwise_cons.mp hout
    refine List.pairwise_append.mpr ⟨hin b (List.mem_cons_self ..) x hx,
      ih hxs (fun a ha => hin a (List.mem_cons_of_mem _ ha)) hl, ?_⟩
    intro u hu v hv
    obtain ⟨a, ha, y, hy, hv⟩ := (mem_gather hxs).mp hv
    exact hb a ha x y hx hy u hu v hv

theorem gather_ok (h : ∀ a ∈ l, ∃ x, f a = .ok x) : ∃ ys, gather f l = .ok ys := by
  induction l with
  | nil => exact ⟨[], rfl⟩
  | cons b l ih =>
    obtain ⟨x, hx⟩ := h b (List.mem_cons_self ..)
    obtain ⟨xs, hxs⟩ := ih fun a ha => h a (List.mem_cons_of_mem _ ha)
    exact ⟨x ++ xs, by simp [gather, bind, Except.bind, hx, hxs]⟩

end Gather

/-- **What resolving a region owes**: its pieces tile the part of the window it has, and answer
as `pt` does at each point that a window does not wrap at; past its end `pt` answers nothing. -/
structure ResolvesTo (cells : Cells)
    (resolve : Region → Nat → Nat → Perms → Except ConfigError (List Piece))
    (pt : Region → Nat → Perms → Option Answer) (r : Region) : Prop where
  tiles : ∀ off len p ps, resolve r off len p = .ok ps → Tiles (min len (r.len - off)) ps
  answer : ∀ off len p ps, resolve r off len p = .ok ps → ∀ x < min len (r.len - off),
    ¬ Wraps cells r off (off + x) → answerAt ps x = pt r (off + x) p
  past : ∀ y p, r.len ≤ y → pt r y p = none

section Children

variable {cells : Cells}
  {resolve : Region → Nat → Nat → Perms → Except ConfigError (List Piece)}
  {pt : Region → Nat → Perms → Option Answer} {children : List (Mapping Region)}
  {limit off len : Nat} {combine : CombinePolicy} {perms : Perms}

/-- One child's candidates: in order, inside the window, and answering as the child does. -/
structure ChildOk (cells : Cells) (pt : Region → Nat → Perms → Option Answer) (limit off len : Nat)
    (perms : Perms) (child : Mapping Region × Nat) (cs : List Cand) : Prop where
  tag : ∀ c ∈ cs, c.seq = child.2 ∧ c.priority = child.1.priority
  apart : cs.Pairwise fun c d => c.start + c.len ≤ d.start
  below : ∀ c ∈ cs, c.start + c.len ≤ len
  answer : ∀ x < len, (child.1.Covers (off + x) →
      ¬ Wraps cells child.1.region (off - child.1.base) (off + x - child.1.base)) →
    ∀ a, childAt pt limit perms (off + x) child = some a ↔
    ∃ c ∈ cs, (c.start ≤ x ∧ x < c.start + c.len) ∧ a = c.toAnswer.seen (x - c.start)

theorem stop_min {m : Mapping Region} (hlim : limit < 2 ^ 64) :
    min m.stop limit = min (m.base + m.region.len) limit := by
  unfold Mapping.stop saturatingAdd
  omega

theorem childCands_ok {child : Mapping Region × Nat} {cs : List Cand} (hlim : limit < 2 ^ 64)
    (hfit : off + len ≤ limit) (hres : ResolvesTo cells resolve pt child.1.region)
    (h : childCands resolve limit off (saturatingAdd 64 off len) perms child = .ok cs) :
    ChildOk cells pt limit off len perms child cs := by
  obtain ⟨m, seq⟩ := child
  have hwant : saturatingAdd 64 off len = off + len := by
    unfold saturatingAdd
    omega
  simp only [childCands, hwant, stop_min hlim] at h
  split at h
  · -- the child does not meet the window
    simp only [Except.ok.injEq] at h
    subst h
    refine ⟨by simp, List.Pairwise.nil, by simp, fun x hx _ a => ?_⟩
    unfold childAt
    rw [stop_min hlim]
    simp only
    split
    · omega
    · simp
  · simp only [bind, Except.bind] at h
    split at h
    · cases h
    rename_i sub hsub
    simp only [Except.ok.injEq] at h
    subst h
    have htiles := hres.tiles _ _ _ _ hsub
    have hanswer := hres.answer _ _ _ _ hsub
    generalize hA : max m.base off = A at *
    generalize hB : min (min (m.base + m.region.len) limit) (off + len) = B at *
    simp only at htiles hanswer
    refine ⟨by simp, ?_, ?_, ?_⟩
    · rw [List.pairwise_map]
      refine htiles.apart.imp fun {p q} hpq => ?_
      simp only
      omega
    · intro c hc
      obtain ⟨p, hp, rfl⟩ := List.mem_map.mp hc
      have := htiles.below p hp
      simp only
      omega
    · intro x hx hflat a
      unfold childAt
      rw [stop_min hlim]
      by_cases hin : m.base ≤ off + x ∧ off + x < min (m.base + m.region.len) limit
      · rw [if_pos hin]
        have hpt := hanswer (off + x - A) (by omega)
        rw [show A - m.base + (off + x - A) = off + x - m.base by omega,
          show A - m.base = off - m.base by omega] at hpt
        replace hpt := hpt (hflat ⟨hin.1, hin.2.trans_le (Nat.min_le_left _ _)⟩)
        rw [← hpt, htiles.answerAt_eq_some]
        constructor
        · rintro ⟨p, hp, hc, rfl⟩
          refine ⟨_, List.mem_map.mpr ⟨p, hp, rfl⟩, ?_, ?_⟩
          · simp only
            omega
          · simp only
            congr 1
            omega
        · rintro ⟨c, hc, hcx, rfl⟩
          obtain ⟨p, hp, rfl⟩ := List.mem_map.mp hc
          simp only at hcx ⊢
          refine ⟨p, hp, by omega, ?_⟩
          congr 1
          omega
      · rw [if_neg hin]
        simp only [reduceCtorEq, false_iff, not_exists, not_and]
        intro c hc hcx
        obtain ⟨p, hp, rfl⟩ := List.mem_map.mp hc
        have := htiles.below p hp
        simp only at hcx
        omega

/-- Of two candidates the first wins: by priority, then by age. -/
def Before (t u : Answer × Int × Nat) : Prop :=
  u.2.1 < t.2.1 ∨ t.2.1 = u.2.1 ∧ u.2.2 < t.2.2

instance : Std.Irrefl Before where
  irrefl t := by
    unfold Before
    omega

instance : Std.Antisymm Before where
  antisymm t u h h' := by
    unfold Before at h h'
    omega

theorem rankedChildren_sorted (children : List (Mapping Region)) :
    (rankedChildren children).Pairwise fun i j =>
      j.1.priority < i.1.priority ∨ i.1.priority = j.1.priority ∧ j.2 < i.2 := by
  have htotal : Std.Total fun i j : Mapping Region × Nat =>
      j.1.priority < i.1.priority ∨ i.1.priority = j.1.priority ∧ j.2 ≤ i.2 :=
    ⟨fun i j => by omega⟩
  have htrans : IsTrans (Mapping Region × Nat) fun i j =>
      j.1.priority < i.1.priority ∨ i.1.priority = j.1.priority ∧ j.2 ≤ i.2 :=
    ⟨fun i j k _ _ => by omega⟩
  have hnd : (rankedChildren children).Pairwise fun i j => i.2 ≠ j.2 := by
    have hperm := List.perm_insertionSort (fun i j : Mapping Region × Nat =>
      j.1.priority < i.1.priority ∨ i.1.priority = j.1.priority ∧ j.2 ≤ i.2) children.zipIdx
    refine (hperm.pairwise_iff fun h => Ne.symm h).mpr ?_
    exact List.pairwise_map.mp (List.nodup_zipIdx_map_snd children)
  have hle := List.pairwise_insertionSort (fun i j : Mapping Region × Nat =>
    j.1.priority < i.1.priority ∨ i.1.priority = j.1.priority ∧ j.2 ≤ i.2) children.zipIdx
  exact hle.imp₂ (fun i j h h' => by omega) hnd

theorem mem_rankedChildren {c : Mapping Region × Nat} :
    c ∈ rankedChildren children ↔ c ∈ children.zipIdx := by
  simp [rankedChildren]

theorem activeAt_children {cands : List Cand} (hlim : limit < 2 ^ 64) (hfit : off + len ≤ limit)
    (hres : ∀ m ∈ children, ResolvesTo cells resolve pt m.region)
    (h : gather (childCands resolve limit off (saturatingAdd 64 off len) perms)
      children.zipIdx = .ok cands) {x : Nat} (hx : x < len)
    (hflat : ∀ m ∈ children, m.Covers (off + x) →
      ¬ Wraps cells m.region (off - m.base) (off + x - m.base)) :
    (activeAt cands x).map (fun i => i.1.toAnswer.seen (x - i.1.start)) =
      (rankedChildren children).filterMap (childAt pt limit perms (off + x)) := by
  have hchild : ∀ c ∈ children.zipIdx, ∀ cs,
      childCands resolve limit off (saturatingAdd 64 off len) perms c = .ok cs →
      ChildOk cells pt limit off len perms c cs := by
    intro c hc cs hcs
    rw [List.mem_zipIdx_iff_getElem?] at hc
    exact childCands_ok hlim hfit (hres c.1 (List.mem_of_getElem? hc)) hcs
  have hflat' : ∀ c ∈ children.zipIdx, c.1.Covers (off + x) →
      ¬ Wraps cells c.1.region (off - c.1.base) (off + x - c.1.base) := fun c hc =>
    hflat c.1 (List.mem_of_getElem? (List.mem_zipIdx_iff_getElem?.mp hc))
  have hstop : ∀ c ∈ cands, c.stop = c.start + c.len := by
    intro c hc
    obtain ⟨a, ha, cs, hcs, hc⟩ := (mem_gather h).mp hc
    have := (hchild a ha cs hcs).below c hc
    unfold Cand.stop saturatingAdd
    omega
  -- two candidates of one child do not cover one point
  have hsep : cands.Pairwise fun c d => c.seq = d.seq → c.start + c.len ≤ d.start := by
    refine gather_pairwise h (fun a ha cs hcs => ?_) ?_
    · exact (hchild a ha cs hcs).apart.imp fun {c d} h (_ : c.seq = d.seq) => h
    refine (List.pairwise_map.mp (List.nodup_zipIdx_map_snd children)).imp_of_mem ?_
    intro a b ha hb hne cs ds hcs hds c hc d hd hseq
    rw [((hchild a ha cs hcs).tag c hc).1, ((hchild b hb ds hds).tag d hd).1] at hseq
    exact absurd hseq hne
  have hmem : ∀ i ∈ activeAt cands x,
      cands[i.2]? = some i.1 ∧ i.1.start ≤ x ∧ x < i.1.start + i.1.len := by
    intro i hi
    obtain ⟨hi', hle, hlt⟩ := Sweep.mem_active.mp hi
    rw [List.mem_zipIdx_iff_getElem?] at hi'
    rw [hstop i.1 (List.mem_of_getElem? hi')] at hlt
    exact ⟨hi', hle, hlt⟩
  have hinj : ∀ i ∈ activeAt cands x, ∀ j ∈ activeAt cands x, i.1.seq = j.1.seq → ¬ i.2 < j.2 := by
    intro i hi j hj hseq hlt
    obtain ⟨hi', hix⟩ := hmem i hi
    obtain ⟨hj', hjx⟩ := hmem j hj
    obtain ⟨hil, hie⟩ := List.getElem?_eq_some_iff.mp hi'
    obtain ⟨hjl, hje⟩ := List.getElem?_eq_some_iff.mp hj'
    have := List.pairwise_iff_getElem.mp hsep i.2 j.2 hil hjl hlt
    rw [hie, hje] at this
    omega
  have hleft : ((activeAt cands x).map fun i =>
      (i.1.toAnswer.seen (x - i.1.start), i.1.priority, i.1.seq)).Pairwise Before := by
    rw [List.pairwise_map]
    have hrank : (activeAt cands x).Pairwise Ahead :=
      (List.pairwise_insertionSort Ahead cands.zipIdx).filter _
    have hnd : (activeAt cands x).Pairwise fun i j => i.2 ≠ j.2 := by
      refine List.Pairwise.filter _ ?_
      refine ((List.perm_insertionSort Ahead cands.zipIdx).pairwise_iff fun h => Ne.symm h).mpr ?_
      exact List.pairwise_map.mp (List.nodup_zipIdx_map_snd cands)
    refine (hrank.and hnd).imp_of_mem ?_
    intro i j hi hj hij
    have h2 := hinj j hj i hi
    have h3 := hij.1
    unfold Ahead at h3
    unfold Before
    simp only
    omega
  have hright : ((rankedChildren children).filterMap fun c =>
      (childAt pt limit perms (off + x) c).map fun a => (a, c.1.priority, c.2)).Pairwise Before := by
    refine (rankedChildren_sorted children).filterMap _ ?_
    intro i j hij t ht u hu
    obtain ⟨a, _, rfl⟩ := Option.map_eq_some_iff.mp ht
    obtain ⟨b, _, rfl⟩ := Option.map_eq_some_iff.mp hu
    exact hij
  have heq := hleft.eq_of_mem_iff hright (by
    rintro ⟨a, prio, seq⟩
    rw [List.mem_map, List.mem_filterMap]
    constructor
    · rintro ⟨i, hi, hie⟩
      obtain ⟨hi', hix⟩ := hmem i hi
      obtain ⟨c, hc, cs, hcs, hic⟩ := (mem_gather h).mp (List.mem_of_getElem? hi')
      have hok := hchild c hc cs hcs
      have htag := hok.tag i.1 hic
      refine ⟨c, mem_rankedChildren.mpr hc, ?_⟩
      rw [(hok.answer x hx (hflat' c hc) _).mpr ⟨i.1, hic, hix, rfl⟩, ← hie, htag.1, htag.2]
      rfl
    · rintro ⟨c, hc, hca⟩
      obtain ⟨a', ha', hae⟩ := Option.map_eq_some_iff.mp hca
      have hc' := mem_rankedChildren.mp hc
      obtain ⟨cs, hcs⟩ := gather_ok_of_mem h hc'
      have hok := hchild c hc' cs hcs
      obtain ⟨d, hd, hdx, rfl⟩ := (hok.answer x hx (hflat' c hc') a').mp ha'
      have hdm := (mem_gather h).mpr ⟨c, hc', cs, hcs, hd⟩
      obtain ⟨k, hk⟩ := List.mem_iff_getElem?.mp hdm
      have htag := hok.tag d hd
      refine ⟨(d, k), Sweep.mem_active.mpr ⟨?_, hdx.1, ?_⟩, ?_⟩
      · rwa [List.mem_zipIdx_iff_getElem?]
      · rw [hstop d hdm]
        exact hdx.2
      · rw [← hae, htag.1, htag.2])
  have hfst := congrArg (List.map Prod.fst) heq
  rw [List.map_map, List.map_filterMap] at hfst
  simpa [Function.comp_def] using hfst

theorem resolveChildren_point {ps : List Piece} (hlim : limit < 2 ^ 64)
    (hfit : off + len ≤ limit) (hres : ∀ m ∈ children, ResolvesTo cells resolve pt m.region)
    (h : resolveChildren resolve children limit off len combine perms = .ok ps) :
    Tiles len ps ∧
      ∀ x < len, (∀ m ∈ children, m.Covers (off + x) →
          ¬ Wraps cells m.region (off - m.base) (off + x - m.base)) →
        answerAt ps x = pointChildren pt children limit (off + x) combine perms := by
  simp only [resolveChildren, bind, Except.bind] at h
  split at h
  · exact absurd h (by simp)
  rename_i cands hc
  simp only [Except.ok.injEq] at h
  subst h
  have hbelow : ∀ c ∈ cands, c.start + c.len ≤ len := by
    intro c hcm
    obtain ⟨a, ha, cs, hcs, hm⟩ := (mem_gather hc).mp hcm
    rw [List.mem_zipIdx_iff_getElem?] at ha
    exact (childCands_ok hlim hfit (hres a.1 (List.mem_of_getElem? ha)) hcs).below c hm
  obtain ⟨htiles, hanswer⟩ :=
    @resolveOverlaps_spec cands combine len (show len < 2 ^ 64 by omega) hbelow
  refine ⟨htiles, fun x hx hflat => ?_⟩
  rw [hanswer x, activeAt_children hlim hfit hres hc hx hflat]
  rfl

end Children

/-! ## Regions -/

theorem isLeaf_iff {r : Region} : r.isLeaf = true ↔ ∃ t, leafTarget r = some t := by
  unfold Region.isLeaf leafTarget
  cases r.kind <;> simp

section Equations

variable {cells : Cells} {levels : Nat} {r : Region} {perms : Perms} {a : Alias Region}
  {t : FlatTarget}

theorem resolveRegion_leaf (ht : leafTarget r = some t) (off len : Nat) :
    resolveRegion cells (levels + 1) r off len perms =
      .ok (if min len (r.len - off) = 0 then []
        else leafPiece (min len (r.len - off)) ⟨t, off, [], 0, r.constraints, perms⟩) := by
  unfold leafTarget at ht
  simp only [resolveRegion]
  by_cases h0 : min len (r.len - off) = 0
  · simp only [if_pos h0]
  · simp only [if_neg h0]
    cases hk : r.kind with
    | ram store => simp only [hk, Option.some.injEq] at ht; rw [← ht]
    | rom store onWrite => simp only [hk, Option.some.injEq] at ht; rw [← ht]
    | io ops => simp only [hk, Option.some.injEq] at ht; rw [← ht]
    | «alias» b => exact absurd ht (by simp [hk])
    | container cs c => exact absurd ht (by simp [hk])

theorem point_leaf (ht : leafTarget r = some t) (y : Nat) :
    point cells (levels + 1) r y perms =
      if r.len ≤ y then none else some (leafAnswer ⟨t, y, [], 0, r.constraints, perms⟩) := by
  unfold leafTarget at ht
  simp only [point]
  by_cases h0 : r.len ≤ y
  · simp only [if_pos h0]
  · simp only [if_neg h0]
    cases hk : r.kind with
    | ram store => simp only [hk, Option.some.injEq] at ht; rw [← ht]
    | rom store onWrite => simp only [hk, Option.some.injEq] at ht; rw [← ht]
    | io ops => simp only [hk, Option.some.injEq] at ht; rw [← ht]
    | «alias» b => exact absurd ht (by simp [hk])
    | container cs c => exact absurd ht (by simp [hk])

theorem resolveRegion_mirror (hk : r.kind = .alias a) (hrep : a.repeats = true)
    (ht : leafTarget a.target = some t) (off len : Nat) :
    resolveRegion cells (levels + 1) r off len perms =
      .ok (if min len (r.len - off) = 0 then []
        else leafPiece (min len (r.len - off))
          ⟨t, off % a.target.len, [], a.target.len, r.constraints, perms⟩) := by
  simp only [resolveRegion, hk, hrep, ht, if_true]
  split <;> rfl

theorem point_mirror (hk : r.kind = .alias a) (hrep : a.repeats = true)
    (ht : leafTarget a.target = some t) (y : Nat) :
    point cells (levels + 1) r y perms =
      if r.len ≤ y then none
      else some (leafAnswer ⟨t, y % a.target.len, [], a.target.len, r.constraints, perms⟩) := by
  simp only [point, hk, hrep, ht, if_true, Option.map_some]

theorem resolveRegion_window {off len : Nat} {ps : List Piece} (hk : r.kind = .alias a)
    (hrep : a.repeats = false)
    (h : resolveRegion cells (levels + 1) r off len perms = .ok ps) :
    (min len (r.len - off) = 0 ∧ ps = []) ∨
      ∃ sub, min len (r.len - off) ≠ 0 ∧
        resolveRegion cells levels a.target (wrappingAdd 64 (cells a.id) off)
          (min len (r.len - off)) (perms.intersect .rwx) = .ok sub ∧
        ps = sub.map fun p => { p with leaves := p.leaves.map (windowLeaf cells r a) } := by
  simp only [resolveRegion, hk, hrep, Bool.false_eq_true, if_false, bind, Except.bind] at h
  split at h
  · rename_i h0
    exact Or.inl ⟨h0, (Except.ok.inj h).symm⟩
  · rename_i h0
    split at h
    · exact absurd h (by simp)
    · rename_i sub hsub
      exact Or.inr ⟨sub, h0, hsub, (Except.ok.inj h).symm⟩

theorem resolveRegion_container {off len : Nat} {children : List (Mapping Region)}
    {combine : CombinePolicy} (hk : r.kind = .container children combine) :
    resolveRegion cells (levels + 1) r off len perms =
      if min len (r.len - off) = 0 then .ok []
      else resolveChildren (resolveRegion cells levels) children r.len off
        (min len (r.len - off)) combine perms := by
  simp only [resolveRegion, hk]

theorem point_past {y : Nat} (h : r.len ≤ y) : point cells levels r y perms = none := by
  cases levels with
  | zero => rfl
  | succ n => simp only [point, if_pos h]

end Equations

theorem resolvesToLeaf_period {cells : Cells} : ∀ {levels : Nat} {r : Region} {off len : Nat}
    {perms : Perms} {ps : List Piece}, Shape r → r.resolvesToLeaf = true →
    resolveRegion cells levels r off len perms = .ok ps →
    ∀ p ∈ ps, ∀ l ∈ p.leaves, l.period = 0 := by
  intro levels
  induction levels with
  | zero => intro r off len perms ps _ _ h; exact absurd h (by simp [resolveRegion])
  | succ n ih =>
    intro r off len perms ps hs hleaf h p hp l hl
    cases hs with
    | leaf _ hl' _ _ =>
      obtain ⟨t, ht⟩ := isLeaf_iff.mp hl'
      rw [resolveRegion_leaf ht] at h
      have := Except.ok.inj h
      subst this
      split at hp
      · cases hp
      · simp only [leafPiece, List.mem_singleton] at hp
        subst hp
        simp only [List.mem_singleton] at hl
        rw [hl]
    | window _ a hk _ hw ht =>
      simp only [Region.resolvesToLeaf, hk, Bool.and_eq_true, Bool.not_eq_true'] at hleaf
      rcases resolveRegion_window hk hleaf.2 h with ⟨_, rfl⟩ | ⟨sub, _, hsub, rfl⟩
      · cases hp
      · obtain ⟨q, hq, rfl⟩ := List.mem_map.mp hp
        obtain ⟨l', hl', rfl⟩ := List.mem_map.mp hl
        have htgt : a.target.resolvesToLeaf = true := by
          have := hw.rebasable
          rw [hleaf.1] at this
          simpa [hleaf.2] using this.symm
        have := ih ht htgt hsub q hq l' hl'
        unfold windowLeaf
        split <;> split <;> simpa using this
    | container _ cs c hk _ _ _ _ _ =>
      exact absurd hleaf (by simp [Region.resolvesToLeaf, hk])

theorem wrappingAdd_wrappingSub (w a b n : Nat) :
    wrappingAdd w (wrappingSub w a b) n = wrappingSub w (wrappingAdd w a n) b := by
  unfold wrappingAdd wrappingSub
  rw [Nat.mod_add_mod, Nat.mod_add_mod, Nat.add_right_comm]

theorem windowLeaf_seen {cells : Cells} {r : Region} {a : Alias Region} {l : LeafSpec}
    (h : a.rebasable = true → l.period = 0) (n : Nat) :
    (windowLeaf cells r a l).seen n = windowLeaf cells r a (l.seen n) := by
  unfold windowLeaf LeafSpec.seen
  by_cases hc : r.constraints ≠ a.target.constraints
  · simp only [if_pos hc]
    cases hb : a.rebasable with
    | false => simp
    | true => simp [h hb, wrappingAdd_wrappingSub]
  · simp only [if_neg hc]
    cases hb : a.rebasable with
    | false => simp
    | true => simp [h hb, wrappingAdd_wrappingSub]

theorem tiles_leafPiece {len hi : Nat} {l : LeafSpec} (h : len ≤ hi) (h0 : len ≠ 0) :
    Tiles hi (leafPiece len l) :=
  ⟨List.pairwise_singleton _ _, by simp [leafPiece]; omega, by simp [leafPiece]; omega⟩

theorem answerAt_leafPiece {len x : Nat} {l : LeafSpec} (h : x < len) :
    answerAt (leafPiece len l) x = some (leafAnswer (l.seen x)) := by
  rw [leafPiece, answerAt_cons_of_covers (by simp only; omega)]
  simp [Answer.seen, leafAnswer]

theorem answerAt_map_leaves {hi x : Nat} {ps : List Piece} {f : LeafSpec → LeafSpec}
    (hf : ∀ p ∈ ps, ∀ l ∈ p.leaves, ∀ n, (f l).seen n = f (l.seen n)) (h : Tiles hi ps) :
    Tiles hi (ps.map fun p => { p with leaves := p.leaves.map f }) ∧
      answerAt (ps.map fun p => { p with leaves := p.leaves.map f }) x =
        (answerAt ps x).map fun a => { a with leaves := a.leaves.map f } := by
  have htiles : Tiles hi (ps.map fun p => { p with leaves := p.leaves.map f }) := by
    refine ⟨List.pairwise_map.mpr h.apart, ?_, ?_⟩
    · intro p hp
      obtain ⟨q, hq, rfl⟩ := List.mem_map.mp hp
      exact h.pos q hq
    · intro p hp
      obtain ⟨q, hq, rfl⟩ := List.mem_map.mp hp
      exact h.below q hq
  refine ⟨htiles, ?_⟩
  cases ha : answerAt ps x with
  | none =>
    rw [answerAt_eq_none] at ha
    rw [Option.map_none, answerAt_eq_none]
    intro p hp
    obtain ⟨q, hq, rfl⟩ := List.mem_map.mp hp
    exact ha q hq
  | some a =>
    obtain ⟨p, hp, hc, rfl⟩ := h.answerAt_eq_some.mp ha
    refine htiles.answerAt_eq_some.mpr ⟨_, List.mem_map.mpr ⟨p, hp, rfl⟩, hc, ?_⟩
    simp only [Answer.seen, List.map_map, Answer.mk.injEq, and_true]
    exact List.map_congr_left fun l hl => (hf p hp l hl _).symm

theorem resolveRegion_point {cells : Cells} : ∀ {levels : Nat} {r : Region}, Shape r →
    ResolvesTo cells (resolveRegion cells levels) (point cells levels) r := by
  intro levels
  induction levels with
  | zero =>
    intro r _
    exact ⟨fun off len p ps h => absurd h (by simp [resolveRegion]),
      fun off len p ps h => absurd h (by simp [resolveRegion]), fun y p h => rfl⟩
  | succ n ih =>
    intro r hs
    suffices hboth : ∀ off len p ps, resolveRegion cells (n + 1) r off len p = .ok ps →
        Tiles (min len (r.len - off)) ps ∧ ∀ x < min len (r.len - off),
          ¬ Wraps cells r off (off + x) →
          answerAt ps x = point cells (n + 1) r (off + x) p from
      ⟨fun off len p ps h => (hboth off len p ps h).1,
        fun off len p ps h => (hboth off len p ps h).2, fun y p h => point_past h⟩
    intro off len perms ps h
    have hlen := hs.len_lt
    -- an empty window has no points
    have hempty : min len (r.len - off) = 0 → ps = [] → Tiles (min len (r.len - off)) ps ∧
        ∀ x < min len (r.len - off), ¬ Wraps cells r off (off + x) →
          answerAt ps x = point cells (n + 1) r (off + x) perms := by
      intro h0 hps
      subst hps
      exact ⟨⟨List.Pairwise.nil, by simp, by simp⟩, fun x hx => by omega⟩
    cases hs with
    | leaf _ hl _ _ =>
      obtain ⟨t, ht⟩ := isLeaf_iff.mp hl
      rw [resolveRegion_leaf ht] at h
      have hps := Except.ok.inj h
      split at hps
      · exact hempty ‹_› hps.symm
      · subst hps
        refine ⟨tiles_leafPiece (Nat.le_refl _) ‹_›, fun x hx _ => ?_⟩
        rw [answerAt_leafPiece hx, point_leaf ht, if_neg (by omega)]
        simp only [LeafSpec.seen, if_true]
        rw [wrappingAdd_of_lt (by omega)]
    | window _ a hk _ hok htgt =>
      cases hrep : a.repeats with
      | true =>
        obtain ⟨t, ht⟩ := isLeaf_iff.mp (hok.leaf hrep)
        rw [resolveRegion_mirror hk hrep ht] at h
        have hps := Except.ok.inj h
        split at hps
        · exact hempty ‹_› hps.symm
        · subst hps
          refine ⟨tiles_leafPiece (Nat.le_refl _) ‹_›, fun x hx _ => ?_⟩
          have hmod : off % a.target.len ≤ off := Nat.mod_le _ _
          rw [answerAt_leafPiece hx, point_mirror hk hrep ht, if_neg (by omega)]
          simp only [LeafSpec.seen, if_neg (hok.nonempty hrep)]
          rw [wrappingAdd_of_lt (by omega), Nat.mod_add_mod]
      | false =>
        rcases resolveRegion_window hk hrep h with ⟨h0, hps⟩ | ⟨sub, h0, hsub, rfl⟩
        · exact hempty h0 hps
        · have hr := @ih a.target htgt
          have htiles := hr.tiles _ _ _ _ hsub
          have hanswer := hr.answer _ _ _ _ hsub
          have hper : ∀ p ∈ sub, ∀ l ∈ p.leaves, ∀ n,
              (windowLeaf cells r a l).seen n = windowLeaf cells r a (l.seen n) := by
            intro p hp l hl k
            refine windowLeaf_seen (fun hreb => ?_) k
            refine resolvesToLeaf_period htgt ?_ hsub p hp l hl
            have := hok.rebasable
            rw [hreb, hrep] at this
            simpa using this.symm
          refine ⟨?_, fun x hx hflat => ?_⟩
          · have := (answerAt_map_leaves (x := 0) hper htiles).1
            exact ⟨this.apart, this.pos, fun p hp => by have := this.below p hp; omega⟩
          · rw [(answerAt_map_leaves hper htiles).2]
            simp only [point, if_neg (show ¬ r.len ≤ off + x by omega), hk, hrep,
              Bool.false_eq_true, if_false]
            -- what lies past the end of the target is not there, with or without a wrap
            have hpast : a.target.len ≤ wrappingAdd 64 (cells a.id) off + x →
                answerAt sub x = none := fun hle => by
              rw [answerAt_eq_none]
              intro p hp
              have := htiles.below p hp
              omega
            by_cases htop : cells a.id + off < 2 ^ 64
            · have hwrap : wrappingAdd 64 (cells a.id) off = cells a.id + off :=
                wrappingAdd_of_lt htop
              rw [hwrap] at hanswer hpast
              by_cases hxt : x < a.target.len - (cells a.id + off)
              · rw [hanswer x (by omega) fun hw => hflat (.window hk hrep (by omega) htop
                  (by rwa [← Nat.add_assoc])), Nat.add_assoc]
              · rw [hpast (by omega), point_past (by omega)]
            · have hend : ¬ wrappingAdd 64 (cells a.id) off + x < a.target.len := fun hlt =>
                hflat (.here hk hrep (by omega) (by omega) (by rwa [Nat.add_sub_cancel_left]))
              have := htgt.len_lt
              rw [hpast (by omega), point_past (by omega)]
    | container _ cs c hk _ _ _ _ hcs =>
      rw [resolveRegion_container hk] at h
      split at h
      · exact hempty ‹_› (Except.ok.inj h).symm
      · have hres : ∀ m ∈ cs, ResolvesTo cells (resolveRegion cells n) (point cells n) m.region :=
          fun m hm => ih (hcs m hm)
        obtain ⟨htiles, hanswer⟩ := resolveChildren_point hlen (by omega) hres h
        refine ⟨htiles, fun x hx hflat => ?_⟩
        rw [hanswer x hx fun m hm hcov hw => hflat (.child hk (by omega) hm hcov hw)]
        simp only [point, if_neg (show ¬ r.len ≤ off + x by omega), hk]

theorem resolveChildren_ok {resolve : Region → Nat → Nat → Perms → Except ConfigError (List Piece)}
    {children : List (Mapping Region)} {limit off len : Nat} {combine : CombinePolicy}
    {perms : Perms} (h : ∀ m ∈ children, ∀ off len p, ∃ ps, resolve m.region off len p = .ok ps) :
    ∃ ps, resolveChildren resolve children limit off len combine perms = .ok ps := by
  have hg : ∃ cands, gather (childCands resolve limit off (saturatingAdd 64 off len) perms)
      children.zipIdx = .ok cands := by
    refine gather_ok fun c hc => ?_
    rw [List.mem_zipIdx_iff_getElem?] at hc
    obtain ⟨ps, hps⟩ := h c.1 (List.mem_of_getElem? hc)
      (max c.1.base off - c.1.base)
      (min (min c.1.stop limit) (saturatingAdd 64 off len) - max c.1.base off)
      (perms.intersect c.1.perms)
    simp only [childCands, hps, bind, Except.bind]
    split
    · exact ⟨_, rfl⟩
    · exact ⟨_, rfl⟩
  obtain ⟨cands, hc⟩ := hg
  exact ⟨resolveOverlaps cands combine, by simp only [resolveChildren, hc, bind, Except.bind]⟩

theorem resolveRegion_ok {cells : Cells} : ∀ {levels : Nat} {r : Region}, Shape r →
    r.depth ≤ levels → levels < 2 ^ 32 - 1 → ∀ off len perms,
    ∃ ps, resolveRegion cells levels r off len perms = .ok ps := by
  intro levels
  induction levels with
  | zero =>
    intro r hs hd _ off len perms
    have := hs.depth_pos
    omega
  | succ n ih =>
    intro r hs hd hn off len perms
    cases hs with
    | leaf _ hl _ _ =>
      obtain ⟨t, ht⟩ := isLeaf_iff.mp hl
      exact ⟨_, resolveRegion_leaf ht off len⟩
    | window _ a hk _ hok htgt =>
      cases hrep : a.repeats with
      | true =>
        obtain ⟨t, ht⟩ := isLeaf_iff.mp (hok.leaf hrep)
        exact ⟨_, resolveRegion_mirror hk hrep ht off len⟩
      | false =>
        have hdep := hok.depth
        unfold saturatingAdd at hdep
        obtain ⟨sub, hsub⟩ := ih htgt (by omega) (by omega)
          (wrappingAdd 64 (cells a.id) off) (min len (r.len - off)) (perms.intersect .rwx)
        simp only [resolveRegion, hk, hrep, Bool.false_eq_true, if_false, hsub, bind,
          Except.bind]
        split
        · exact ⟨_, rfl⟩
        · exact ⟨_, rfl⟩
    | container _ cs c hk _ _ _ hdep hcs =>
      rw [resolveRegion_container hk]
      split
      · exact ⟨_, rfl⟩
      · refine resolveChildren_ok fun m hm off len p => ih (hcs m hm) ?_ (by omega) off len p
        have := hdep m hm
        unfold saturatingAdd at this
        omega

end Rsemu.Space
