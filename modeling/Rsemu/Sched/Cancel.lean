import Rsemu.Sched.Deadline

/-!
# Cancelling against removing

A cancelled event stays where it is and its number is remembered. `without` is what that
stands for: the queue with the event taken out. Here a queue with tombstones runs beside one
without them, and every reader of the queue is asked the same.

`Sheds` relates the two while the wheel turns: one is the other without some events, bucket by
bucket. No event gets in another's way when it is placed, so every sweep keeps it
(`sheds_advanceTo`), and so does giving up a tombstone with its event (`Beside.reclaim`). What
is popped and what is saved is then the same. The deadline is the same but for the far heap,
whose first event is taken as it is: `Misled` says when a tombstone is what `nextDeadline`
finds there.
-/

namespace Rsemu.Sched

open Blocks

namespace EventQueue

def without (q : EventQueue) (id : Nat) : EventQueue :=
  let near := fun i => (q.near i).filter (·.id ≠ id)
  { q with
    near
    levelLen := fun level => tally (row near level) wheelSlots
    far := q.far.filter (·.id ≠ id)
    due := q.due.filter (·.id ≠ id) }

def live (q : EventQueue) (e : Event) : Bool := e.id ∉ q.cancelled

/-- **Queue `p` is queue `q` without the events that are not kept.** -/
structure Sheds (keep : Event → Bool) (q p : EventQueue) : Prop where
  now : p.now = q.now
  granule : p.nowGranule = q.nowGranule
  scale : p.granuleShift = q.granuleShift
  position : q.nowGranule = q.now >>> q.granuleShift
  near : ∀ i < wheelLevels * wheelSlots, p.near i = (q.near i).filter keep
  due : p.due = q.due.filter keep
  far : p.far = q.far.filter keep
  dueOrdered : q.due.Pairwise Event.le
  farOrdered : q.far.Pairwise Event.le

section

variable {keep : Event → Bool} {q p : EventQueue}

theorem Sheds.placement (h : Sheds keep q p) (time : Nat) :
    p.placement time = q.placement time := by
  unfold EventQueue.placement
  rw [h.now, h.granule, h.scale]

theorem filter_heapPush {heap : List Event} (hordered : heap.Pairwise Event.le) (e : Event) :
    (heapPush heap e).filter keep =
      if keep e then heapPush (heap.filter keep) e else heap.filter keep := by
  unfold heapPush
  induction heap with
  | nil => by_cases he : keep e = true <;> simp [he]
  | cons f heap ih =>
    obtain ⟨hfirst, hrest⟩ := List.pairwise_cons.mp hordered
    have ih := ih hrest
    by_cases hef : e.le f
    · rw [List.orderedInsert_cons_of_le _ _ hef]
      by_cases he : keep e = true
      · rw [List.filter_cons_of_pos he, if_pos he]
        -- everything that is left is after the event
        cases hleft : (f :: heap).filter keep with
        | nil => rfl
        | cons g left =>
          have hg : g ∈ f :: heap := (List.mem_filter.mp (hleft ▸ List.mem_cons_self ..)).1
          have heg : e.le g := by
            rcases List.mem_cons.mp hg with rfl | hg
            · exact hef
            · exact IsTrans.trans _ _ _ hef (hfirst g hg)
          rw [List.orderedInsert_cons_of_le _ _ heg]
      · rw [List.filter_cons_of_neg he, if_neg he]
    · rw [List.orderedInsert_of_not_le _ _ hef]
      by_cases hf : keep f = true
      · rw [List.filter_cons_of_pos hf, List.filter_cons_of_pos hf, ih]
        split
        · rw [List.orderedInsert_of_not_le _ _ hef]
        · rfl
      · rw [List.filter_cons_of_neg hf, List.filter_cons_of_neg hf, ih]

/-- **Placing an event in both**: in one it is there, in the other it is if it is kept. -/
structure Puts (keep : Event → Bool) (put : EventQueue → Event → EventQueue) : Prop where
  kept : ∀ {q p e}, Sheds keep q p → keep e = true → Sheds keep (put q e) (put p e)
  shed : ∀ {q p e}, Sheds keep q p → ¬ keep e = true → Sheds keep (put q e) p

theorem puts_pushDue : Puts keep pushDue where
  kept := fun {q p e} h he => by
    refine ⟨h.now, h.granule, h.scale, h.position, h.near, ?_, h.far, h.dueOrdered.orderedInsert _ _,
      h.farOrdered⟩
    simp only [pushDue]
    rw [filter_heapPush h.dueOrdered, if_pos he, h.due]
  shed := fun {q p e} h he => by
    refine ⟨h.now, h.granule, h.scale, h.position, h.near, ?_, h.far, h.dueOrdered.orderedInsert _ _,
      h.farOrdered⟩
    simp only [pushDue]
    rw [filter_heapPush h.dueOrdered, if_neg he, h.due]

theorem sheds_pushNear_kept (h : Sheds keep q p) {e : Event} (he : keep e = true)
    (level slot : Nat) : Sheds keep (q.pushNear level slot e) (p.pushNear level slot e) := by
  refine ⟨h.now, h.granule, h.scale, h.position, fun i hi => ?_, h.due, h.far, h.dueOrdered,
    h.farOrdered⟩
  simp only [pushNear]
  by_cases heq : i = level * wheelSlots + slot
  · subst heq
    rw [Function.update_self, Function.update_self, List.filter_append, h.near _ hi,
      List.filter_cons_of_pos he, List.filter_nil]
  · rw [Function.update_of_ne heq, Function.update_of_ne heq, h.near i hi]

theorem sheds_pushNear_shed (h : Sheds keep q p) {e : Event} (he : ¬ keep e = true)
    (level slot : Nat) : Sheds keep (q.pushNear level slot e) p := by
  refine ⟨h.now, h.granule, h.scale, h.position, fun i hi => ?_, h.due, h.far, h.dueOrdered,
    h.farOrdered⟩
  simp only [pushNear]
  by_cases heq : i = level * wheelSlots + slot
  · subst heq
    rw [Function.update_self, List.filter_append, h.near _ hi, List.filter_cons_of_neg he,
      List.filter_nil, List.append_nil]
  · rw [Function.update_of_ne heq, h.near i hi]

theorem puts_pushEntry : Puts keep pushEntry where
  kept := fun {q p e} h he => by
    unfold pushEntry
    rw [h.placement]
    cases q.placement e.time with
    | due => exact puts_pushDue.kept h he
    | near level slot => exact sheds_pushNear_kept h he level slot
    | far =>
      refine ⟨h.now, h.granule, h.scale, h.position, h.near, h.due, ?_, h.dueOrdered,
        h.farOrdered.orderedInsert _ _⟩
      simp only
      rw [filter_heapPush h.farOrdered, if_pos he, h.far]
  shed := fun {q p e} h he => by
    unfold pushEntry
    cases q.placement e.time with
    | due => exact puts_pushDue.shed h he
    | near level slot => exact sheds_pushNear_shed h he level slot
    | far =>
      refine ⟨h.now, h.granule, h.scale, h.position, h.near, h.due, ?_, h.dueOrdered,
        h.farOrdered.orderedInsert _ _⟩
      simp only
      rw [filter_heapPush h.farOrdered, if_neg he, h.far]

variable {put : EventQueue → Event → EventQueue}

theorem sheds_foldl (hput : Puts keep put) {es : List Event} :
    ∀ {q p : EventQueue}, Sheds keep q p →
    Sheds keep (es.foldl put q) ((es.filter keep).foldl put p) := by
  induction es with
  | nil => exact fun h => h
  | cons e es ih =>
    intro q p h
    by_cases he : keep e = true
    · rw [List.filter_cons_of_pos he]
      exact ih (hput.kept h he)
    · rw [List.filter_cons_of_neg he]
      exact ih (hput.shed h he)

theorem sheds_drainSlot (h : Sheds keep q p) {level slot : Nat} (hlevel : level < wheelLevels)
    (hslot : slot < wheelSlots) :
    (p.drainSlot level slot).1 = (q.drainSlot level slot).1.filter keep ∧
      Sheds keep (q.drainSlot level slot).2 (p.drainSlot level slot).2 := by
  refine ⟨h.near _ (index_lt hlevel hslot), h.now, h.granule, h.scale, h.position, fun i hi => ?_,
    h.due, h.far, h.dueOrdered, h.farOrdered⟩
  simp only [drainSlot]
  by_cases heq : i = level * wheelSlots + slot
  · rw [heq, Function.update_self, Function.update_self, List.filter_nil]
  · rw [Function.update_of_ne heq, Function.update_of_ne heq, h.near i hi]

theorem sheds_sweep (hput : Puts keep put) (h : Sheds keep q p) {level : Nat}
    (hlevel : level < wheelLevels) (old steps : Nat) :
    Sheds keep (sweep put level old steps q) (sweep put level old steps p) := by
  induction steps with
  | zero => exact h
  | succ steps ih =>
    obtain ⟨hout, hdrained⟩ := sheds_drainSlot ih hlevel
      (Nat.mod_lt (old + (steps + 1)) (Nat.two_pow_pos wheelSlotBits))
    simp only [sweep]
    rw [hout]
    exact sheds_foldl hput hdrained

theorem sheds_sweepLevel (hput : Puts keep put) (h : Sheds keep q p) {level : Nat}
    (hlevel : level < wheelLevels) (old new : Nat) :
    Sheds keep (sweepLevel put old new q level) (sweepLevel put old new p level) := by
  simp only [sweepLevel]
  split
  · exact h
  · exact sheds_sweep hput h hlevel _ _

theorem placement_far_mono (hgranule : q.nowGranule = q.now >>> q.granuleShift) {s t : Nat}
    (hs : q.placement s = .far) (hle : s ≤ t) : q.placement t = .far := by
  have hlt : q.now < s := by
    refine Nat.lt_of_not_le fun hge => ?_
    rw [EventQueue.placement, if_pos hge] at hs
    cases hs
  have hreach := (placement_spec hgranule hlt).far hs (wheelLevels - 1) (by decide)
  have hmono := @block_mono wheelSlotBits (s >>> q.granuleShift) (t >>> q.granuleShift)
    (by
      rw [Nat.shiftRight_eq_div_pow, Nat.shiftRight_eq_div_pow]
      exact Nat.div_le_div_right hle) (wheelLevels - 1)
  have hslots : wheelSlots = 2 ^ wheelSlotBits := rfl
  have hspec := placement_spec hgranule (Nat.lt_of_lt_of_le hlt hle)
  cases hplace : q.placement t with
  | far => rfl
  | due =>
    have hpos := Nat.two_pow_pos wheelSlotBits
    rw [hspec.due hplace] at hmono
    omega
  | near level slot =>
    obtain ⟨hlevel, hahead, -⟩ := hspec.near hplace
    have hturn := @turn_mono wheelSlotBits _ _ _ _ (by decide)
      (show level ≤ wheelLevels - 1 by omega) hahead.turn
    omega

theorem pullFar_far {es : List Event} (h : ∀ e ∈ es, q.placement e.time = .far) :
    q.pullFar es = { q with far := es } := by
  cases es with
  | nil => rfl
  | cons e es =>
    unfold pullFar
    rw [if_pos (h e (List.mem_cons_self ..))]

theorem sheds_pullFar {es : List Event} : ∀ {q p : EventQueue}, es.Pairwise Event.le →
    Sheds keep { q with far := [] } { p with far := [] } →
    Sheds keep (q.pullFar es) (p.pullFar (es.filter keep)) := by
  induction es with
  | nil => exact fun _ h => h
  | cons e es ih =>
    intro q p hes h
    obtain ⟨hfirst, hrest⟩ := List.pairwise_cons.mp hes
    have hplacement : ∀ time, p.placement time = q.placement time := h.placement
    by_cases hplace : q.placement e.time = .far
    · -- the heap is in order: nothing of it is pulled in either queue
      have hall : ∀ f ∈ e :: es, q.placement f.time = .far := by
        intro f hf
        refine placement_far_mono h.position hplace ?_
        rcases List.mem_cons.mp hf with rfl | hf
        · exact Nat.le_refl _
        · have := hfirst f hf
          unfold Event.le at this
          omega
      rw [pullFar_far hall, pullFar_far fun f hf => (hplacement f.time).trans
        (hall f (List.mem_filter.mp hf).1)]
      exact ⟨h.now, h.granule, h.scale, h.position, h.near, h.due, rfl, h.dueOrdered, hes⟩
    · have hq : q.pullFar (e :: es) = (q.pushEntry e).pullFar es := by
        rw [pullFar, if_neg hplace]
      rw [hq]
      by_cases he : keep e = true
      · rw [List.filter_cons_of_pos he]
        have hp : p.pullFar (e :: es.filter keep) = (p.pushEntry e).pullFar (es.filter keep) := by
          rw [pullFar, hplacement, if_neg hplace]
        rw [hp]
        refine ih hrest ?_
        rw [pushEntry_not_far q hplace,
          pushEntry_not_far p (by rw [hplacement]; exact hplace)]
        exact puts_pushEntry.kept h he
      · rw [List.filter_cons_of_neg he]
        refine ih hrest ?_
        rw [pushEntry_not_far q hplace]
        exact puts_pushEntry.shed h he

theorem sheds_advanceTo (h : Sheds keep q p) (to_ : Nat) :
    Sheds keep (q.advanceTo to_) (p.advanceTo to_) := by
  unfold advanceTo
  rw [h.now]
  by_cases hle : to_ ≤ q.now
  · rw [if_pos hle, if_pos hle]
    exact h
  rw [if_neg hle, if_neg hle]
  simp only [h.scale, h.granule]
  by_cases hsame : to_ >>> q.granuleShift = q.nowGranule
  · simp only [hsame, if_true]
    exact ⟨rfl, rfl, rfl, hsame.symm, h.near, h.due, h.far, h.dueOrdered, h.farOrdered⟩
  simp only [hsame, if_false]
  have hstart : Sheds keep { q with now := to_, nowGranule := to_ >>> q.granuleShift }
      { p with
        now := to_
        nowGranule := to_ >>> q.granuleShift
        granuleShift := q.granuleShift } :=
    ⟨rfl, rfl, rfl, rfl, h.near, h.due, h.far, h.dueOrdered, h.farOrdered⟩
  have hcascade : ∀ (levels : List Nat), (∀ level ∈ levels, level < wheelLevels) →
      ∀ {q' p' : EventQueue}, Sheds keep q' p' → Sheds keep
        (levels.foldl (fun r level =>
          r.sweepLevel pushEntry q.nowGranule (to_ >>> q.granuleShift) level) q')
        (levels.foldl (fun r level =>
          r.sweepLevel pushEntry q.nowGranule (to_ >>> q.granuleShift) level) p') := by
    intro levels
    induction levels with
    | nil => exact fun _ _ _ h => h
    | cons level levels ih =>
      intro hlevels q' p' h
      refine ih (fun l hl => hlevels l (List.mem_cons_of_mem _ hl)) ?_
      exact sheds_sweepLevel puts_pushEntry h (hlevels level (List.mem_cons_self ..)) _ _
  have hswept := hcascade (List.range' 1 (wheelLevels - 1))
    (fun level hlevel => by
      have := List.mem_range'_1.mp hlevel
      omega)
    (sheds_sweepLevel puts_pushDue hstart (by decide : 0 < wheelLevels) q.nowGranule
      (to_ >>> q.granuleShift))
  rw [hswept.far]
  refine sheds_pullFar hswept.farOrdered ?_
  exact ⟨hswept.now, hswept.granule, hswept.scale, hswept.position, hswept.near, hswept.due, rfl,
    hswept.dueOrdered, List.Pairwise.nil⟩

end

/-- **Queue `q` has tombstones where `p` has nothing**, and both hold the same agenda. -/
structure Beside (q p : EventQueue) (a : Agenda) : Prop where
  sheds : Sheds q.live q p
  uncancelled : p.cancelled = ∅
  holds : Refines q a
  beside : Refines p a

section

variable {q p : EventQueue} {a : Agenda}

theorem settled_without (h : Settled q) (id : Nat) : Settled (q.without id) where
  scale := rfl
  granule := rfl
  now := h.now
  dueOrdered := h.dueOrdered.filter _
  farOrdered := h.farOrdered.filter _
  due := fun e he => h.due e (List.mem_filter.mp he).1
  near := fun level hlevel slot hslot e he => h.near level hlevel slot hslot e
    (List.mem_filter.mp he).1
  far := fun e he => h.far e (List.mem_filter.mp he).1
  lens := fun _ _ => rfl

theorem contents_without (q : EventQueue) (id : Nat) :
    (q.without id).contents = q.contents.filter (·.id ≠ id) := by
  unfold contents nearEvents pool
  rw [List.filter_append, List.filter_append, List.filter_flatMap]
  rfl

theorem beside_cancel (h : Beside q q a) {id : Nat} (hid : id ∈ q.contents.map Event.id) :
    Beside (q.cancel id) (q.without id) (a.call (.cancel id)).2 := by
  obtain ⟨e, he, rfl⟩ := List.mem_map.mp hid
  have hbelow : e.id < a.nextSeq := h.holds.nextSeq ▸ h.holds.below e he
  have hlive : (q.cancel e.id).live = fun f => decide (f.id ≠ e.id) := by
    funext f
    simp [live, cancel, h.uncancelled]
  have hall : ∀ {es : List Event}, (es.filter fun f => f.id ∉ q.cancelled) = es := by
    intro es
    exact List.filter_eq_self.mpr fun f _ => by simp [h.uncancelled]
  refine ⟨?_, h.uncancelled, refines_cancel h.holds hbelow, ?_⟩
  · rw [hlive]
    exact ⟨rfl, rfl, rfl, h.sheds.position, fun _ _ => rfl, rfl, rfl, h.sheds.dueOrdered,
      h.sheds.farOrdered⟩
  · have hcontents := contents_without q e.id
    have hlive := h.holds.live
    rw [hall] at hlive
    refine ⟨settled_without h.holds.settled e.id, h.holds.now, h.holds.nextSeq,
      h.holds.ordered.filter _, ?_, ?_, fun f hf => ?_, h.holds.known⟩
    · have hsame : (q.without e.id).cancelled = q.cancelled := rfl
      rw [hsame, hall, hcontents]
      exact hlive.filter _
    · rw [hcontents]
      exact h.holds.unique.sublist (List.filter_sublist.map Event.id)
    · rw [hcontents] at hf
      exact h.holds.below f (List.mem_filter.mp hf).1

theorem Beside.reclaim {e : Event} {rest : List Event}
    (h : Beside { q with due := e :: rest } p a) (hdead : e.id ∈ q.cancelled) :
    Beside { q with due := rest, cancelled := q.cancelled.erase e.id } p a := by
  have hothers := h.holds.others
  have hlive : ∀ {es : List Event}, (∀ f ∈ es, f ∈ rest ++ (q.nearEvents ++ q.far)) →
      es.filter ({ q with due := rest, cancelled := q.cancelled.erase e.id } : EventQueue).live =
        es.filter ({ q with due := e :: rest } : EventQueue).live := by
    intro es hes
    refine List.filter_congr fun f hf => ?_
    simp [live, Finset.mem_erase, hothers f (hes f hf)]
  have hs := h.sheds
  refine ⟨?_, h.uncancelled, h.holds.reclaim hdead, h.beside⟩
  refine ⟨hs.now, hs.granule, hs.scale, hs.position, fun i hi => ?_, ?_, ?_,
    (List.pairwise_cons.mp hs.dueOrdered).2, hs.farOrdered⟩
  · refine (hs.near i hi).trans (hlive fun f hf => ?_).symm
    exact List.mem_append_right _ (List.mem_append_left _ (mem_pool.mpr ⟨i, hi, hf⟩))
  · refine hs.due.trans ?_
    rw [hlive fun f hf => List.mem_append_left _ hf]
    exact List.filter_cons_of_neg (by simpa [live] using hdead)
  · refine hs.far.trans (hlive fun f hf => ?_).symm
    exact List.mem_append_right _ (List.mem_append_right _ hf)

theorem live_congr {q' : EventQueue} (h : q'.cancelled = q.cancelled) : q'.live = q.live := by
  funext e
  unfold live
  rw [h]

theorem beside_schedule (h : Beside q p a) (time target token : Nat)
    (hallows : a.nextSeq + 1 < 2 ^ 64) :
    Beside (q.schedule time target token).2 (p.schedule time target token).2
      (a.call (.schedule time target token)).2 := by
  have hseq : p.nextSeq = q.nextSeq := h.beside.nextSeq.trans h.holds.nextSeq.symm
  have hq := sameBooks_pushEntry { q with nextSeq := (q.nextSeq + 1) % 2 ^ 64 }
    ⟨time, q.nextSeq, target, token⟩
  have hp := sameBooks_pushEntry { p with nextSeq := (p.nextSeq + 1) % 2 ^ 64 }
    ⟨time, p.nextSeq, target, token⟩
  refine ⟨?_, hp.cancelled.trans h.uncancelled, refines_schedule h.holds time target token hallows,
    refines_schedule h.beside time target token hallows⟩
  have hs := h.sheds
  have hbooked : Sheds q.live { q with nextSeq := (q.nextSeq + 1) % 2 ^ 64 }
      { p with nextSeq := (p.nextSeq + 1) % 2 ^ 64 } :=
    ⟨hs.now, hs.granule, hs.scale, hs.position, hs.near, hs.due, hs.far, hs.dueOrdered,
      hs.farOrdered⟩
  have hlive : (q.schedule time target token).2.live = q.live := live_congr hq.cancelled
  rw [hlive]
  simp only [schedule, hseq] at hbooked ⊢
  -- a number that is handed out has no tombstone
  refine puts_pushEntry.kept hbooked ?_
  have hfresh : q.nextSeq ∉ q.cancelled := fun hmem => Nat.lt_irrefl _ (h.holds.known _ hmem)
  simpa [live] using hfresh

theorem beside_advanceTo (h : Beside q p a) (to_ : Nat) :
    Beside (q.advanceTo to_) (p.advanceTo to_) (a.call (.advanceTo to_)).2 := by
  refine ⟨?_, (sameBooks_advanceTo p to_).cancelled.trans h.uncancelled,
    refines_advanceTo h.holds to_, refines_advanceTo h.beside to_⟩
  rw [live_congr (q := q) (sameBooks_advanceTo q to_).cancelled]
  exact sheds_advanceTo h.sheds to_

theorem sheds_popLoop {now : Nat} {es : List Event} : ∀ {q : EventQueue},
    Beside { q with due := es } p a →
    Sheds (q.popLoop now es).2.live (q.popLoop now es).2
      { p with due := (Agenda.pop now p.due).2 } := by
  induction es with
  | nil =>
    intro q h
    have hp : p.due = [] := h.sheds.due
    have hs := h.sheds
    rw [hp]
    exact ⟨hs.now, hs.granule, hs.scale, hs.position, hs.near, rfl, hs.far, hs.dueOrdered,
      hs.farOrdered⟩
  | cons e es ih =>
    intro q h
    have hs := h.sheds
    have hdue := (List.pairwise_cons.mp hs.dueOrdered).1
    unfold popLoop
    by_cases htime : e.time ≤ now
    · rw [if_pos htime]
      by_cases hcancelled : e.id ∈ q.cancelled
      · rw [if_pos hcancelled]
        exact @ih { q with cancelled := q.cancelled.erase e.id } (h.reclaim hcancelled)
      · rw [if_neg hcancelled]
        have hp : p.due = e :: es.filter q.live :=
          hs.due.trans (List.filter_cons_of_pos (by simpa [live] using hcancelled))
        have hpop : Agenda.pop now p.due = (some e, es.filter q.live) := by
          rw [hp]
          exact if_pos htime
        rw [hpop]
        exact ⟨hs.now, hs.granule, hs.scale, hs.position, hs.near, rfl, hs.far,
          (List.pairwise_cons.mp hs.dueOrdered).2, hs.farOrdered⟩
    · rw [if_neg htime]
      -- the heap is in order: nothing of it is due in either queue
      have hlater : ∀ f ∈ p.due, now < f.time := by
        intro f hf
        have hf : f ∈ (e :: es).filter _ := hs.due ▸ hf
        rcases List.mem_cons.mp (List.mem_filter.mp hf).1 with rfl | hf
        · omega
        · have := hdue f hf
          unfold Event.le at this
          omega
      rw [pop_none hlater]
      exact ⟨hs.now, hs.granule, hs.scale, hs.position, hs.near, hs.due, hs.far, hs.dueOrdered,
        hs.farOrdered⟩

theorem beside_popDue (h : Beside q p a) (now : Nat) :
    (q.popDue now).1 = (p.popDue now).1 ∧
      Beside (q.popDue now).2 (p.popDue now).2 (a.call (.popDue now)).2 := by
  obtain ⟨hfired, hholds⟩ := refines_popDue h.holds now
  obtain ⟨hfired', hbeside⟩ := refines_popDue h.beside now
  have hadvance := beside_advanceTo h now
  have hp : p.popDue now = _ :=
    popLoop_uncancelled hadvance.uncancelled now (p.advanceTo now).due
  refine ⟨hfired.trans hfired'.symm, ?_, ?_, hholds, hbeside⟩
  · rw [hp]
    exact sheds_popLoop hadvance
  · rw [hp]
    exact hadvance.uncancelled

theorem beside_purge {es : List Event} : ∀ {q : EventQueue}, Beside { q with due := es } p a →
    Beside (q.purgeCancelledDue es) p a ∧ (q.purgeCancelledDue es).far = q.far ∧
      ∀ e ∈ (q.purgeCancelledDue es).due.head?, (q.purgeCancelledDue es).live e = true := by
  induction es with
  | nil => exact fun h => ⟨h, rfl, fun e he => absurd he (by simp [purgeCancelledDue])⟩
  | cons e es ih =>
    intro q h
    unfold purgeCancelledDue
    by_cases hcancelled : e.id ∈ q.cancelled
    · rw [if_pos hcancelled]
      exact @ih { q with cancelled := q.cancelled.erase e.id } (h.reclaim hcancelled)
    · rw [if_neg hcancelled]
      refine ⟨h, rfl, fun f hf => ?_⟩
      obtain rfl := Option.some.inj hf
      simpa [live] using hcancelled

theorem scanLevel_findSome (h : Settled q) {level : Nat} (hlevel : level < wheelLevels) :
    q.scanLevel level = (List.range' 1 (wheelSlots - 1)).findSome? fun step =>
      q.earliest (q.near (level * wheelSlots +
        (block wheelSlotBits level q.nowGranule + step) % wheelSlots)) := by
  unfold scanLevel
  by_cases hlen : q.levelLen level = 0
  · rw [if_pos hlen]
    rw [h.lens level hlevel] at hlen
    have hpool : pool (row q.near level) wheelSlots = [] := List.length_eq_zero_iff.mp hlen
    refine (List.findSome?_eq_none_iff.mpr fun step _ => ?_).symm
    have hslot : (block wheelSlotBits level q.nowGranule + step) % wheelSlots < wheelSlots :=
      Nat.mod_lt _ (by decide)
    have hbucket : row q.near level
        ((block wheelSlotBits level q.nowGranule + step) % wheelSlots) = [] := by
      refine List.eq_nil_iff_forall_not_mem.mpr fun e he => ?_
      have hmem : e ∈ pool (row q.near level) wheelSlots := mem_pool.mpr ⟨_, hslot, he⟩
      rw [hpool] at hmem
      exact absurd hmem List.not_mem_nil
    rw [row] at hbucket
    rw [hbucket]
    rfl
  · rw [if_neg hlen]

theorem Beside.scanLevel (h : Beside q p a) {level : Nat} (hlevel : level < wheelLevels) :
    q.scanLevel level = p.scanLevel level := by
  rw [scanLevel_findSome h.holds.settled hlevel, scanLevel_findSome h.beside.settled hlevel,
    h.sheds.granule]
  congr 1
  funext step
  have hslot : (block wheelSlotBits level q.nowGranule + step) % wheelSlots < wheelSlots :=
    Nat.mod_lt _ (by decide)
  rw [h.sheds.near _ (index_lt hlevel hslot), earliest_uncancelled h.uncancelled]
  rfl

/-- Nothing is live before the far heap, and the heap's first event is a tombstone at an
instant at which nothing of it fires first. -/
def Misled (q : EventQueue) : Prop :=
  (∀ e ∈ q.due ++ q.nearEvents, e.id ∈ q.cancelled) ∧
    q.far.head?.map Event.time ≠ (q.far.filter q.live).head?.map Event.time

instance (q : EventQueue) : Decidable q.Misled :=
  inferInstanceAs (Decidable ((∀ e ∈ q.due ++ q.nearEvents, e.id ∈ q.cancelled) ∧
    q.far.head?.map Event.time ≠ (q.far.filter q.live).head?.map Event.time))

theorem Beside.nearEvents (h : Beside q p a) : p.nearEvents = q.nearEvents.filter q.live := by
  unfold EventQueue.nearEvents
  rw [pool_congr h.sheds.near]
  unfold pool
  rw [List.filter_flatMap]

theorem filter_live_nil {es : List Event} :
    es.filter q.live = [] ↔ ∀ e ∈ es, e.id ∈ q.cancelled := by
  rw [List.filter_eq_nil_iff]
  refine forall₂_congr fun e _ => ?_
  simp [live]

theorem Beside.scan_none (h : Beside q p a) :
    (List.range wheelLevels).findSome? p.scanLevel = none ↔
      ∀ e ∈ q.nearEvents, e.id ∈ q.cancelled := by
  rw [← filter_live_nil, ← h.nearEvents, List.findSome?_eq_none_iff]
  constructor
  · intro hnone
    refine List.eq_nil_iff_forall_not_mem.mpr fun e he => ?_
    obtain ⟨level, hlevel, he⟩ := mem_nearEvents.mp he
    have hlevelNone := hnone level (List.mem_range.mpr hlevel)
    rw [scanLevel_eq h.beside.settled h.uncancelled hlevel, earliestOf_eq_none] at hlevelNone
    rw [hlevelNone] at he
    exact absurd he List.not_mem_nil
  · intro hnil level hlevel
    have hlevel := List.mem_range.mp hlevel
    rw [scanLevel_eq h.beside.settled h.uncancelled hlevel, earliestOf_eq_none]
    refine List.eq_nil_iff_forall_not_mem.mpr fun e he => ?_
    have hmem : e ∈ p.nearEvents := mem_nearEvents.mpr ⟨level, hlevel, he⟩
    rw [hnil] at hmem
    exact absurd hmem List.not_mem_nil

theorem beside_nextDeadline (h : Beside q p a) :
    (q.nextDeadline.1 = p.nextDeadline.1 ↔ ¬ q.Misled) ∧
      Beside q.nextDeadline.2 p.nextDeadline.2 a := by
  obtain ⟨hpurged, hfar, hhead⟩ := beside_purge (q := q) h
  have hp : p.nextDeadline.2 = p := by
    rw [nextDeadline_eq, purge_uncancelled h.uncancelled]
  refine ⟨?_, by rw [nextDeadline_eq, hp]; exact hpurged⟩
  have hdue : (q.purgeCancelledDue q.due).due.head?.map Event.time =
      p.due.head?.map Event.time := by
    rw [hpurged.sheds.due]
    cases hd : (q.purgeCancelledDue q.due).due with
    | nil => rfl
    | cons e rest =>
      rw [List.filter_cons_of_pos (hhead e (by rw [hd]; rfl))]
      rfl
  have hscan : (List.range wheelLevels).findSome? (q.purgeCancelledDue q.due).scanLevel =
      (List.range wheelLevels).findSome? p.scanLevel := by
    rw [← List.head?_filterMap, ← List.head?_filterMap]
    exact congrArg List.head? (List.filterMap_congr fun level hlevel =>
      hpurged.scanLevel (List.mem_range.mp hlevel))
  rw [nextDeadline_uncancelled h.uncancelled, nextDeadline_eq]
  simp only [hdue, hscan, hfar]
  have hnone : (∀ e ∈ q.due ++ q.nearEvents, e.id ∈ q.cancelled) ↔
      p.due.head?.map Event.time = none ∧
        (List.range wheelLevels).findSome? p.scanLevel = none := by
    rw [List.forall_mem_append, h.scan_none, ← @filter_live_nil q q.due, ← h.sheds.due]
    simp [List.head?_eq_none_iff]
  unfold Misled
  rw [hnone, ← h.sheds.far]
  cases p.due.head?.map Event.time with
  | some time => simp
  | none =>
    cases (List.range wheelLevels).findSome? p.scanLevel with
    | some time => simp
    | none => simp

end

end EventQueue

/-- The calls on a queue. -/
inductive Request where
  | schedule (time target token : Nat)
  | advanceTo (to_ : Nat)
  | popDue (now : Nat)
  | nextDeadline
  | events

/-- What the calls answer. -/
inductive Reply where
  | posted (id : Nat)
  | done
  | fired (e : Option Event)
  | deadline (time : Option Nat)
  | listed (es : List Event)
  deriving DecidableEq

def Request.isPost : Request → Bool
  | .schedule _ _ _ => true
  | _ => false

def posts (requests : List Request) : Nat := requests.countP Request.isPost

namespace EventQueue

/-- A request answered. -/
def serve (q : EventQueue) : Request → Reply × EventQueue
  | .schedule time target token =>
    (.posted (q.schedule time target token).1, (q.schedule time target token).2)
  | .advanceTo to_ => (.done, q.advanceTo to_)
  | .popDue now => (.fired (q.popDue now).1, (q.popDue now).2)
  | .nextDeadline => (.deadline q.nextDeadline.1, q.nextDeadline.2)
  | .events => (.listed q.events, q)

def serveAll (q : EventQueue) : List Request → List Reply × EventQueue
  | [] => ([], q)
  | r :: requests =>
    ((q.serve r).1 :: (serveAll (q.serve r).2 requests).1, (serveAll (q.serve r).2 requests).2)

/-- Whenever the deadline is asked for, the far heap does not mislead. -/
def Informed (q : EventQueue) : List Request → Prop
  | [] => True
  | r :: requests => (r = .nextDeadline → ¬ q.Misled) ∧ Informed (q.serve r).2 requests

section

variable {q p : EventQueue} {a : Agenda}

theorem beside_serve (h : Beside q p a) {r : Request} (hposts : a.nextSeq + posts [r] < 2 ^ 64) :
    ((q.serve r).1 = (p.serve r).1 ↔ (r = .nextDeadline → ¬ q.Misled)) ∧
      ∃ a', Beside (q.serve r).2 (p.serve r).2 a' ∧ a'.nextSeq = a.nextSeq + posts [r] := by
  cases r with
  | schedule time target token =>
    have hseq : (q.serve (.schedule time target token)).1 =
        (p.serve (.schedule time target token)).1 :=
      congrArg Reply.posted (h.holds.nextSeq.trans h.beside.nextSeq.symm)
    exact ⟨iff_of_true hseq (by simp), _, beside_schedule h time target token hposts,
      Nat.mod_eq_of_lt hposts⟩
  | advanceTo to_ => exact ⟨iff_of_true rfl (by simp), _, beside_advanceTo h to_, rfl⟩
  | popDue now =>
    obtain ⟨hfired, hbeside⟩ := beside_popDue h now
    exact ⟨iff_of_true (congrArg Reply.fired hfired) (by simp), _, hbeside, rfl⟩
  | nextDeadline =>
    obtain ⟨hiff, hbeside⟩ := beside_nextDeadline h
    refine ⟨?_, a, hbeside, rfl⟩
    simp only [serve, Reply.deadline.injEq, forall_const]
    exact hiff
  | events =>
    have hevents : q.events = p.events := h.holds.events_eq.trans h.beside.events_eq.symm
    exact ⟨iff_of_true (congrArg Reply.listed hevents) (by simp), a, h, rfl⟩

theorem posts_cons (r : Request) (requests : List Request) :
    posts (r :: requests) = posts [r] + posts requests := by
  rw [← List.singleton_append, posts, List.countP_append]
  rfl

theorem beside_serveAll {requests : List Request} : ∀ {q p : EventQueue} {a : Agenda},
    Beside q p a → a.nextSeq + posts requests < 2 ^ 64 →
    ((q.serveAll requests).1 = (p.serveAll requests).1 ↔ q.Informed requests) ∧
      ∃ a', Beside (q.serveAll requests).2 (p.serveAll requests).2 a' ∧
        a'.nextSeq = a.nextSeq + posts requests := by
  induction requests with
  | nil => exact fun h _ => ⟨iff_of_true rfl trivial, _, h, rfl⟩
  | cons r requests ih =>
    intro q p a h hposts
    rw [posts_cons] at hposts ⊢
    obtain ⟨hreply, b, hb, hseq⟩ := beside_serve (r := r) h (by omega)
    obtain ⟨hrest, c, hc, hseq'⟩ := ih hb (by omega)
    refine ⟨?_, c, hc, by omega⟩
    simp only [serveAll, Informed, List.cons.injEq]
    rw [hreply, hrest]

end

/-- **Cancelling is removing, but for the far heap.** In a queue driven from new, cancelling an
event that is queued makes every later call answer what it would with the event taken out,
exactly when no deadline is asked for while nothing live is due or in the wheel and the far
heap begins with the cancelled event. -/
theorem cancelled_is_removed_iff (granuleShift : Nat) (before after : List Request) {id : Nat}
    (hqueued : id ∈ ((new granuleShift).serveAll before).2.contents.map Event.id)
    (hposts : posts before + posts after < 2 ^ 64) :
    ((((new granuleShift).serveAll before).2.cancel id).serveAll after).1 =
        ((((new granuleShift).serveAll before).2.without id).serveAll after).1 ↔
      (((new granuleShift).serveAll before).2.cancel id).Informed after := by
  have hnew : Beside (new granuleShift) (new granuleShift) Agenda.empty := by
    have hrefines := refines_new granuleShift
    exact ⟨⟨rfl, rfl, rfl, (Nat.zero_shiftRight _).symm, fun _ _ => rfl, rfl, rfl,
      List.Pairwise.nil, List.Pairwise.nil⟩, rfl, hrefines, hrefines⟩
  have hposts : Agenda.empty.nextSeq + posts before < 2 ^ 64 := by
    have : Agenda.empty.nextSeq = 0 := rfl
    omega
  obtain ⟨-, a, ha, hseq⟩ := beside_serveAll hnew hposts
  have hseq : a.nextSeq = posts before := hseq.trans (Nat.zero_add _)
  have hcancel : Beside _ _ _ := beside_cancel ha hqueued
  exact (beside_serveAll hcancel (by
    have : (a.call (.cancel id)).2.nextSeq = a.nextSeq := rfl
    omega)).1

/-- Two events, one of them beyond the wheel and cancelled: while the other waits in the wheel
the deadline is its instant. -/
theorem cancelled_is_removed_near :
    ((((new 32).serveAll [.schedule (2 ^ 70) 0 0, .schedule (2 ^ 40) 0 1]).2.cancel 0).serveAll
        [.nextDeadline, .popDue (2 ^ 41), .events]).1 =
      ((((new 32).serveAll [.schedule (2 ^ 70) 0 0, .schedule (2 ^ 40) 0 1]).2.without 0).serveAll
        [.nextDeadline, .popDue (2 ^ 41), .events]).1 :=
  (cancelled_is_removed_iff 32 _ _ (by decide +kernel) (by decide)).mpr
    ⟨fun _ => by decide +kernel, by simp, by simp, trivial⟩

/-- **A cancelled event in the far heap keeps its deadline.** -/
theorem far_tombstone_deadline :
    ¬ ∀ (granuleShift : Nat) (before after : List Request) (id : Nat),
      id ∈ ((new granuleShift).serveAll before).2.contents.map Event.id →
      posts before + posts after < 2 ^ 64 →
      ((((new granuleShift).serveAll before).2.cancel id).serveAll after).1 =
        ((((new granuleShift).serveAll before).2.without id).serveAll after).1 := by
  intro h
  have := h 32 [.schedule (2 ^ 70) 0 0] [.nextDeadline] 0 (by decide +kernel) (by decide)
  exact absurd this (by decide +kernel)

end EventQueue

end Rsemu.Sched
