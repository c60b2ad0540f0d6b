import Rsemu.Ir.Block
import Mathlib.Data.List.Sort
import Mathlib.Logic.Function.Iterate

/-!
# Liveness

For every temporary of a block, where it is assigned, where it is last read, and whether a
boundary names it; and the live intervals in the order a linear scan takes them.

What the register allocator needs of it is in `liveness_spec`: the definition it records is
the instruction that assigns the temporary, and the last use it records is not before any
instruction that has the temporary as an operand or names it at a boundary.
-/

namespace Rsemu.Ir

/-- Where a temporary is assigned and last used. -/
structure TempLife where
  /-- The instruction that assigns it. -/
  defAt : Option Nat
  /-- The last instruction that reads it; naming it at a boundary counts. -/
  lastUse : Option Nat
  uses : Nat
  atBoundary : Bool

namespace TempLife

def default : TempLife := ⟨none, none, 0, false⟩

def interval (life : TempLife) : Option (Nat × Nat) :=
  life.defAt.map fun d => (d, max (life.lastUse.getD d) d)

def useAt (k : Nat) (life : TempLife) : TempLife :=
  { life with uses := life.uses + 1, lastUse := some k }

def defineAt (k : Nat) (life : TempLife) : TempLife :=
  if life.defAt = none then { life with defAt := some k } else life

def nameAt (k : Nat) (life : TempLife) : TempLife :=
  { life with
    atBoundary := true
    lastUse := some (life.lastUse.elim k fun prev => max prev k) }

end TempLife

def touchAll (f : TempLife → TempLife) (ts : List Temp) (lives : List TempLife) : List TempLife :=
  ts.foldl (fun lives t => lives.modify t f) lives

def liveStep (b : Block) (lives : List TempLife) (inst : Inst) (k : Nat) : List TempLife :=
  touchAll (.nameAt k) (b.named inst)
    (touchAll (.defineAt k) inst.dsts (touchAll (.useAt k) inst.srcs lives))

def liveness (b : Block) : List TempLife :=
  b.insts.zipIdx.foldl (fun lives p => liveStep b lives p.1 p.2)
    (List.replicate b.tempCount .default)

/-- The range of instructions over which a temporary is live. -/
structure Interval where
  temp : Nat
  start : Nat
  stop : Nat

/-- The order of the scan: by start, then by temporary. -/
def Interval.le (x y : Interval) : Prop := x.start < y.start ∨ x.start = y.start ∧ x.temp ≤ y.temp

instance : DecidableRel Interval.le := fun x y =>
  inferInstanceAs (Decidable (x.start < y.start ∨ x.start = y.start ∧ x.temp ≤ y.temp))

def intervals (lives : List TempLife) : List Interval :=
  (lives.zipIdx.filterMap fun p =>
    p.1.interval.map fun iv => ⟨p.2, iv.1, iv.2⟩).insertionSort Interval.le

@[simp] theorem length_touchAll (f : TempLife → TempLife) (ts : List Temp)
    (lives : List TempLife) : (touchAll f ts lives).length = lives.length := by
  induction ts generalizing lives with
  | nil => rfl
  | cons t ts ih =>
    simp only [touchAll, List.foldl_cons] at ih ⊢
    rw [ih, List.length_modify]

theorem getElem?_touchAll (f : TempLife → TempLife) (ts : List Temp) (lives : List TempLife)
    (t : Temp) : (touchAll f ts lives)[t]? = (lives[t]?).map f^[ts.count t] := by
  induction ts generalizing lives with
  | nil => simp [touchAll]
  | cons u us ih =>
    have hstep : touchAll f (u :: us) lives = touchAll f us (lives.modify u f) := rfl
    rw [hstep, ih, List.getElem?_modify]
    by_cases hu : u = t
    · subst hu
      simp [List.count_cons_self, Function.iterate_succ]
    · simp [hu]

theorem iterate_useAt (k n : Nat) (life : TempLife) :
    ((TempLife.useAt k)^[n] life).defAt = life.defAt ∧
      ((TempLife.useAt k)^[n] life).atBoundary = life.atBoundary ∧
      ((TempLife.useAt k)^[n] life).lastUse = if n = 0 then life.lastUse else some k := by
  induction n with
  | zero => simp
  | succ n ih =>
    rw [Function.iterate_succ_apply']
    simp [TempLife.useAt, ih.1, ih.2.1]

theorem defineAt_defAt (k : Nat) (life : TempLife) :
    (TempLife.defineAt k life).defAt = life.defAt.or (some k) := by
  unfold TempLife.defineAt
  split
  · rename_i h
    simp [h]
  · rename_i h
    obtain ⟨d, hd⟩ := Option.ne_none_iff_exists'.mp h
    simp [hd]

theorem defineAt_rest (k : Nat) (life : TempLife) :
    (TempLife.defineAt k life).atBoundary = life.atBoundary ∧
      (TempLife.defineAt k life).lastUse = life.lastUse := by
  unfold TempLife.defineAt
  split <;> exact ⟨rfl, rfl⟩

theorem iterate_defineAt (k n : Nat) (life : TempLife) :
    ((TempLife.defineAt k)^[n] life).defAt =
        (if n = 0 then life.defAt else life.defAt.or (some k)) ∧
      ((TempLife.defineAt k)^[n] life).atBoundary = life.atBoundary ∧
      ((TempLife.defineAt k)^[n] life).lastUse = life.lastUse := by
  induction n with
  | zero => simp
  | succ n ih =>
    obtain ⟨hd, hb, hl⟩ := ih
    obtain ⟨hb', hl'⟩ := defineAt_rest k ((TempLife.defineAt k)^[n] life)
    rw [Function.iterate_succ_apply']
    refine ⟨?_, hb'.trans hb, hl'.trans hl⟩
    rw [defineAt_defAt, hd]
    cases life.defAt <;> by_cases hn : n = 0 <;> simp [hn]

theorem iterate_nameAt (k n : Nat) (life : TempLife) (hk : ∀ e, life.lastUse = some e → e ≤ k) :
    ((TempLife.nameAt k)^[n] life).defAt = life.defAt ∧
      ((TempLife.nameAt k)^[n] life).atBoundary = (life.atBoundary || decide (0 < n)) ∧
      ((TempLife.nameAt k)^[n] life).lastUse = if n = 0 then life.lastUse else some k := by
  induction n with
  | zero => simp
  | succ n ih =>
    rw [Function.iterate_succ_apply']
    obtain ⟨hd, -, hl⟩ := ih
    refine ⟨hd, by simp [TempLife.nameAt], ?_⟩
    simp only [TempLife.nameAt, hl]
    by_cases hn : n = 0
    · subst hn
      cases hlife : life.lastUse with
      | none => simp
      | some e => simp [hk e hlife]
    · simp [hn]

/-- What is known of one temporary's life after the first `k` instructions. -/
structure LifeUpTo (b : Block) (k : Nat) (t : Temp) (life : TempLife) : Prop where
  assigned : ∀ d, life.defAt = some d → b.Assigns d t
  defined : ∀ j < k, b.Assigns j t → ∃ d, life.defAt = some d
  used : ∀ j < k, b.Reads j t ∨ b.Names j t → ∃ e, life.lastUse = some e ∧ j ≤ e
  within : ∀ e, life.lastUse = some e → e < k
  boundary : ∀ j < k, b.Names j t → life.atBoundary = true

theorem lifeUpTo_step {b : Block} {k : Nat} {t : Temp} {inst : Inst} {lives : List TempLife}
    {life : TempLife} (hk : b.insts[k]? = some inst) (hlife : lives[t]? = some life)
    (h : LifeUpTo b k t life) :
    ∃ life', (liveStep b lives inst k)[t]? = some life' ∧ LifeUpTo b (k + 1) t life' := by
  refine ⟨_, by rw [liveStep, getElem?_touchAll, getElem?_touchAll, getElem?_touchAll, hlife]; rfl,
    ?_⟩
  -- The three groups of updates, one after the other.
  obtain ⟨hud, hub, hul⟩ := iterate_useAt k (inst.srcs.count t) life
  obtain ⟨hdd, hdb, hdl⟩ := iterate_defineAt k (inst.dsts.count t)
    ((TempLife.useAt k)^[inst.srcs.count t] life)
  rw [hud] at hdd
  rw [hub] at hdb
  rw [hul] at hdl
  have hbefore : ∀ e, ((TempLife.defineAt k)^[inst.dsts.count t]
      ((TempLife.useAt k)^[inst.srcs.count t] life)).lastUse = some e → e ≤ k := by
    intro e he
    rw [hdl] at he
    split at he
    · have := h.within e he
      omega
    · cases he
      exact Nat.le_refl _
  obtain ⟨hnd, hnb, hnl⟩ := iterate_nameAt k ((b.named inst).count t) _ hbefore
  rw [hdd] at hnd
  rw [hdb] at hnb
  rw [hdl] at hnl
  have hat : ∀ j < k + 1, ¬ j < k → j = k := fun j h1 h2 => by omega
  refine ⟨?_, ?_, ?_, ?_, ?_⟩
  · intro d hd
    rw [hnd] at hd
    split at hd
    · exact h.assigned d hd
    · cases hlife' : life.defAt with
      | none =>
        rw [hlife'] at hd
        cases hd
        exact ⟨inst, hk, List.count_pos_iff.mp (by omega)⟩
      | some d' =>
        rw [hlife'] at hd
        cases hd
        exact h.assigned d hlife'
  · intro j hj ha
    rw [hnd]
    by_cases hjk : j < k
    · obtain ⟨d, hd⟩ := h.defined j hjk ha
      exact ⟨d, by simp [hd]⟩
    · obtain rfl := hat j hj hjk
      obtain ⟨inst', hi, ht⟩ := ha
      rw [hk] at hi
      cases hi
      have hpos := List.count_pos_iff.mpr ht
      rw [if_neg (by omega)]
      exact ⟨life.defAt.getD j, by cases life.defAt <;> simp⟩
  · intro j hj hu
    rw [hnl]
    by_cases hjk : j < k
    · obtain ⟨e, he, hje⟩ := h.used j hjk hu
      split
      · split
        · exact ⟨e, he, hje⟩
        · exact ⟨k, rfl, by omega⟩
      · exact ⟨k, rfl, by omega⟩
    · obtain rfl := hat j hj hjk
      rcases hu with ⟨inst', hi, ht⟩ | ⟨inst', hi, ht⟩
      · rw [hk] at hi
        cases hi
        have hpos := List.count_pos_iff.mpr ht
        rw [if_neg (show ¬ inst.srcs.count t = 0 by omega), ite_self]
        exact ⟨j, rfl, Nat.le_refl _⟩
      · rw [hk] at hi
        cases hi
        have hpos := List.count_pos_iff.mpr ht
        rw [if_neg (show ¬ (b.named inst).count t = 0 by omega)]
        exact ⟨j, rfl, Nat.le_refl _⟩
  · intro e he
    rw [hnl] at he
    split at he
    · split at he
      · have := h.within e he
        omega
      · cases he
        omega
    · cases he
      omega
  · intro j hj hn
    rw [hnb]
    by_cases hjk : j < k
    · simp [h.boundary j hjk hn]
    · obtain rfl := hat j hj hjk
      obtain ⟨inst', hi, ht⟩ := hn
      rw [hk] at hi
      cases hi
      simp [List.count_pos_iff.mpr ht]

theorem lifeUpTo_fold {b : Block} {t : Temp} (rest : List Inst) {k : Nat}
    {lives : List TempLife} {life : TempLife} (hrest : b.insts.drop k = rest)
    (hle : k ≤ b.insts.length) (hlife : lives[t]? = some life) (h : LifeUpTo b k t life) :
    ∃ life', ((rest.zipIdx k).foldl (fun lives p => liveStep b lives p.1 p.2) lives)[t]? =
      some life' ∧ LifeUpTo b b.insts.length t life' := by
  induction rest generalizing k lives life with
  | nil =>
    have hlen := List.drop_eq_nil_iff.mp hrest
    obtain rfl : k = b.insts.length := by omega
    exact ⟨life, hlife, h⟩
  | cons inst rest ih =>
    have hk : b.insts[k]? = some inst := by
      have := congrArg (fun l => l[0]?) hrest
      simpa using this
    have htail : b.insts.drop (k + 1) = rest := by
      rw [← List.drop_drop, hrest, List.drop_one, List.tail_cons]
    obtain ⟨life', hlife', h'⟩ := lifeUpTo_step hk hlife h
    obtain ⟨hlt, -⟩ := List.getElem?_eq_some_iff.mp hk
    exact ih htail (by omega) hlife' h'

theorem length_liveness (b : Block) : (liveness b).length = b.tempCount := by
  have hstep : ∀ (l : List (Inst × Nat)) (lives : List TempLife),
      (l.foldl (fun lives p => liveStep b lives p.1 p.2) lives).length = lives.length := by
    intro l
    induction l with
    | nil => intro _; rfl
    | cons p l ih => intro lives; rw [List.foldl_cons, ih]; simp [liveStep]
  rw [liveness, hstep, List.length_replicate]

theorem liveness_spec (b : Block) {t : Temp} (ht : t < b.tempCount) :
    ∃ life, (liveness b)[t]? = some life ∧ LifeUpTo b b.insts.length t life := by
  refine lifeUpTo_fold b.insts List.drop_zero (Nat.zero_le _)
    (show (List.replicate b.tempCount TempLife.default)[t]? = some .default by
      rw [List.getElem?_replicate, if_pos ht]) ?_
  refine ⟨?_, ?_, ?_, ?_, ?_⟩
  · intro d hd
    exact absurd hd (by simp [TempLife.default])
  · intro j hj
    omega
  · intro j hj
    omega
  · intro e he
    exact absurd he (by simp [TempLife.default])
  · intro j hj
    omega

theorem Interval.le_trans {x y z : Interval} (h1 : x.le y) (h2 : y.le z) : x.le z := by
  unfold Interval.le at *
  omega

theorem Interval.le_total (x y : Interval) : x.le y ∨ y.le x := by
  unfold Interval.le
  omega

instance : IsTrans Interval Interval.le := ⟨fun _ _ _ => Interval.le_trans⟩

instance : Std.Total Interval.le := ⟨Interval.le_total⟩

theorem intervals_sorted (lives : List TempLife) :
    (intervals lives).Pairwise fun x y => x.start ≤ y.start := by
  refine (List.pairwise_insertionSort Interval.le _).imp ?_
  intro x y h
  unfold Interval.le at h
  omega

theorem mem_intervals {lives : List TempLife} {iv : Interval} :
    iv ∈ intervals lives ↔
      ∃ life, lives[iv.temp]? = some life ∧ life.interval = some (iv.start, iv.stop) := by
  rw [intervals, (List.perm_insertionSort _ _).mem_iff, List.mem_filterMap]
  constructor
  · rintro ⟨⟨life, t⟩, hmem, hiv⟩
    have hlife := List.mem_zipIdx_iff_getElem?.mp hmem
    cases hi : life.interval with
    | none => rw [hi] at hiv; exact absurd hiv (by simp)
    | some se =>
      rw [hi] at hiv
      cases hiv
      exact ⟨life, hlife, hi⟩
  · rintro ⟨life, hlife, hi⟩
    refine ⟨(life, iv.temp), List.mem_zipIdx_iff_getElem?.mpr hlife, ?_⟩
    simp [hi]

theorem intervals_nodup (lives : List TempLife) : ((intervals lives).map Interval.temp).Nodup := by
  have hperm := (List.perm_insertionSort Interval.le (lives.zipIdx.filterMap fun p =>
    p.1.interval.map fun iv => (⟨p.2, iv.1, iv.2⟩ : Interval))).map Interval.temp
  rw [intervals, hperm.nodup_iff, List.Nodup, List.pairwise_map, List.pairwise_filterMap]
  refine (List.pairwise_map.mp (show (lives.zipIdx.map Prod.snd).Nodup by
    rw [List.zipIdx_map_snd]; exact List.nodup_range' 1)).imp ?_
  intro p q hne x hx y hy he
  -- Each interval keeps the index its life had.
  have hxp : x.temp = p.2 := by
    obtain ⟨iv, -, rfl⟩ := Option.map_eq_some_iff.mp hx
    rfl
  have hyq : y.temp = q.2 := by
    obtain ⟨iv, -, rfl⟩ := Option.map_eq_some_iff.mp hy
    rfl
  exact hne (by rw [← hxp, ← hyq, he])

end Rsemu.Ir
