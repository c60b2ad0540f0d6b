import Rsemu.Sched.Wheel

/-!
# The queue fires like a sorted list

`Agenda` says what an event queue is for: the live events in the order they fire, a position
and the next sequence number.

`Refines` relates a queue to an agenda: the events that are not cancelled are the agenda's,
whatever bucket or heap they are in. Every call keeps it and answers the same
(`refines_call`), as long as a cancelled number is one that was handed out and the sequence
counter does not wrap; a queue restored from what another saves refines the same agenda
(`refines_restored`).
-/

namespace Rsemu.Sched

open Blocks

/-- A sorted list of events, and the time. -/
structure Agenda where
  now : Nat
  nextSeq : Nat
  events : List Event

/-- The calls on a queue. -/
inductive QueueCall where
  | schedule (time target token : Nat)
  | cancel (id : Nat)
  | advanceTo (to_ : Nat)
  | popDue (now : Nat)
  | restore (now nextSeq : Nat) (events : List Event)

/-- What the calls answer. -/
inductive Answer where
  | posted (id : Nat)
  | done
  | fired (e : Option Event)
  | refused (e : SnapshotError)
  deriving DecidableEq

namespace Agenda

def empty : Agenda := ⟨0, 0, []⟩

def pop (now : Nat) : List Event → Option Event × List Event
  | [] => (none, [])
  | e :: rest => if e.time ≤ now then (some e, rest) else (none, e :: rest)

/-- A call answered from the list. -/
def call (a : Agenda) : QueueCall → Answer × Agenda
  | .schedule time target token =>
    (.posted a.nextSeq, { a with
      nextSeq := (a.nextSeq + 1) % 2 ^ 64
      events := a.events.orderedInsert Event.le ⟨time, a.nextSeq, target, token⟩ })
  | .cancel id => (.done, { a with events := a.events.filter fun e => e.id ≠ id })
  | .advanceTo to_ => (.done, { a with now := max a.now to_ })
  | .popDue now =>
    (.fired (pop now a.events).1, { a with now := max a.now now, events := (pop now a.events).2 })
  | .restore now nextSeq events =>
    match EventQueue.checkIds nextSeq events ∅ with
    | .error e => (.refused e, a)
    | .ok () => (.done, ⟨now, nextSeq, events.insertionSort Event.le⟩)

/-- A number that is cancelled has been handed out, and no number is handed out twice. -/
def Allows (a : Agenda) : QueueCall → Prop
  | .schedule _ _ _ => a.nextSeq + 1 < 2 ^ 64
  | .cancel id => id < a.nextSeq
  | _ => True

instance (a : Agenda) : ∀ c, Decidable (a.Allows c)
  | .schedule _ _ _ => inferInstanceAs (Decidable (a.nextSeq + 1 < 2 ^ 64))
  | .cancel id => inferInstanceAs (Decidable (id < a.nextSeq))
  | .advanceTo _ => isTrue trivial
  | .popDue _ => isTrue trivial
  | .restore _ _ _ => isTrue trivial

/-- Every call of a run is allowed where it is made. -/
def AllowsRun (a : Agenda) : List QueueCall → Prop
  | [] => True
  | c :: calls => a.Allows c ∧ AllowsRun (a.call c).2 calls

instance decideAllowsRun (a : Agenda) : ∀ calls, Decidable (a.AllowsRun calls)
  | [] => isTrue trivial
  | c :: calls => @instDecidableAnd _ _ _ (decideAllowsRun (a.call c).2 calls)

def run (a : Agenda) : List QueueCall → List Answer × Agenda
  | [] => ([], a)
  | c :: calls => ((a.call c).1 :: (run (a.call c).2 calls).1, (run (a.call c).2 calls).2)

end Agenda

namespace EventQueue

/-- A call answered by the queue. -/
def call (q : EventQueue) : QueueCall → Answer × EventQueue
  | .schedule time target token =>
    (.posted (q.schedule time target token).1, (q.schedule time target token).2)
  | .cancel id => (.done, q.cancel id)
  | .advanceTo to_ => (.done, q.advanceTo to_)
  | .popDue now => (.fired (q.popDue now).1, (q.popDue now).2)
  | .restore now nextSeq events =>
    match q.restore now nextSeq events with
    | .error e => (.refused e, q)
    | .ok q => (.done, q)

def run (q : EventQueue) : List QueueCall → List Answer × EventQueue
  | [] => ([], q)
  | c :: calls => ((q.call c).1 :: (run (q.call c).2 calls).1, (run (q.call c).2 calls).2)

/-- Two queues that differ at most in where their events are. -/
structure SameBooks (q q' : EventQueue) : Prop where
  now : q'.now = q.now
  cancelled : q'.cancelled = q.cancelled
  nextSeq : q'.nextSeq = q.nextSeq

theorem SameBooks.refl (q : EventQueue) : SameBooks q q := ⟨rfl, rfl, rfl⟩

theorem SameBooks.trans {p q r : EventQueue} (h : SameBooks p q) (h' : SameBooks q r) :
    SameBooks p r :=
  ⟨h'.now.trans h.now, h'.cancelled.trans h.cancelled, h'.nextSeq.trans h.nextSeq⟩

theorem sameBooks_pushEntry (q : EventQueue) (e : Event) : SameBooks q (q.pushEntry e) := by
  unfold pushEntry
  split <;> exact ⟨rfl, rfl, rfl⟩

theorem sameBooks_foldl {put : EventQueue → Event → EventQueue}
    (hput : ∀ q e, SameBooks q (put q e)) : ∀ (es : List Event) (q : EventQueue),
    SameBooks q (es.foldl put q) := by
  intro es
  induction es with
  | nil => exact SameBooks.refl
  | cons e es ih => exact fun q => (hput q e).trans (ih (put q e))

theorem sameBooks_sweep {put : EventQueue → Event → EventQueue}
    (hput : ∀ q e, SameBooks q (put q e)) (level old : Nat) : ∀ (steps : Nat) (q : EventQueue),
    SameBooks q (sweep put level old steps q) := by
  intro steps
  induction steps with
  | zero => exact SameBooks.refl
  | succ steps ih =>
    intro q
    have hdrain : SameBooks (sweep put level old steps q)
        ((sweep put level old steps q).drainSlot level ((old + (steps + 1)) % wheelSlots)).2 :=
      ⟨rfl, rfl, rfl⟩
    exact ((ih q).trans hdrain).trans (sameBooks_foldl hput _ _)

theorem sameBooks_sweepLevel {put : EventQueue → Event → EventQueue}
    (hput : ∀ q e, SameBooks q (put q e)) (old new : Nat) (q : EventQueue) (level : Nat) :
    SameBooks q (sweepLevel put old new q level) := by
  simp only [sweepLevel]
  split
  · exact SameBooks.refl q
  · exact sameBooks_sweep hput _ _ _ _

theorem sameBooks_pullFar (es : List Event) : ∀ (q : EventQueue), SameBooks q (q.pullFar es) := by
  induction es with
  | nil => exact fun q => ⟨rfl, rfl, rfl⟩
  | cons e es ih =>
    intro q
    unfold pullFar
    split
    · exact ⟨rfl, rfl, rfl⟩
    · exact (sameBooks_pushEntry q e).trans (ih _)

theorem sameBooks_advanceTo (q : EventQueue) (to_ : Nat) :
    SameBooks { q with now := max q.now to_ } (q.advanceTo to_) := by
  unfold advanceTo
  by_cases hle : to_ ≤ q.now
  · rw [if_pos hle]
    exact ⟨(Nat.max_eq_left hle).symm, rfl, rfl⟩
  · rw [if_neg hle]
    have hmax : max q.now to_ = to_ := Nat.max_eq_right (by omega)
    have hstart : SameBooks { q with now := max q.now to_ }
        { q with now := to_, nowGranule := to_ >>> q.granuleShift } := ⟨hmax.symm, rfl, rfl⟩
    by_cases hsame : to_ >>> q.granuleShift = q.nowGranule
    · simp only [hsame, if_true]
      exact ⟨hmax.symm, rfl, rfl⟩
    · simp only [hsame, if_false]
      refine SameBooks.trans ?_ (sameBooks_pullFar _ _)
      have hzero := hstart.trans (@sameBooks_sweepLevel pushDue
        (fun _ _ => ⟨rfl, rfl, rfl⟩) q.nowGranule (to_ >>> q.granuleShift) _ 0)
      have hcascade : ∀ (levels : List Nat) (p : EventQueue), SameBooks p
          (levels.foldl (fun q' level =>
            q'.sweepLevel pushEntry q.nowGranule (to_ >>> q.granuleShift) level) p) := by
        intro levels
        induction levels with
        | nil => exact SameBooks.refl
        | cons level levels ih =>
          exact fun p => (sameBooks_sweepLevel sameBooks_pushEntry _ _ p level).trans (ih _)
      exact hzero.trans (hcascade _ _)

/-- **The queue holds the agenda**, and what it keeps of cancelled events is about events
that were posted. -/
structure Refines (q : EventQueue) (a : Agenda) : Prop where
  settled : Settled q
  now : q.now = a.now
  nextSeq : q.nextSeq = a.nextSeq
  ordered : a.events.Pairwise Event.le
  /-- What is not cancelled is on the agenda. -/
  live : a.events.Perm (q.contents.filter fun e => e.id ∉ q.cancelled)
  /-- No two events have one number. -/
  unique : (q.contents.map Event.id).Nodup
  below : ∀ e ∈ q.contents, e.id < q.nextSeq
  known : ∀ id ∈ q.cancelled, id < q.nextSeq

theorem refines_new (granuleShift : Nat) : Refines (new granuleShift) Agenda.empty := by
  have hcontents : (new granuleShift).contents = [] := contents_cleared rfl rfl rfl
  refine ⟨settled_new granuleShift, rfl, rfl, List.Pairwise.nil, ?_, ?_, ?_, ?_⟩
  · rw [hcontents]
    exact List.Perm.refl _
  · rw [hcontents]
    exact List.nodup_nil
  · intro e he
    rw [hcontents] at he
    cases he
  · exact fun id hid => absurd hid (by simp [new])

theorem Settled.rebooked {q : EventQueue} (h : Settled q) (cancelled : Finset Nat) (nextSeq : Nat) :
    Settled { q with cancelled := cancelled, nextSeq := nextSeq } :=
  ⟨rfl, rfl, h.now, h.dueOrdered, h.farOrdered, h.due, h.near, h.far, h.lens⟩

theorem eq_of_ordered {l l' : List Event} (hperm : l.Perm l') (h : l.Pairwise Event.le)
    (h' : l'.Pairwise Event.le) (hunique : (l'.map Event.id).Nodup) : l = l' := by
  refine hperm.eq_of_pairwise (fun a b ha hb hab hba => ?_) h h'
  have hid : a.id = b.id := by
    unfold Event.le at hab hba
    omega
  exact List.inj_on_of_nodup_map hunique (hperm.subset ha) hb hid

section

variable {q : EventQueue} {a : Agenda}

theorem Refines.events_eq (h : Refines q a) : q.events = a.events := by
  have hsort := List.perm_insertionSort Event.le (q.contents.filter fun e => e.id ∉ q.cancelled)
  refine (eq_of_ordered (h.live.trans hsort.symm) h.ordered
    (List.pairwise_insertionSort Event.le _) ?_).symm
  refine (hsort.map Event.id).nodup_iff.mpr ?_
  exact h.unique.sublist (List.filter_sublist.map Event.id)

theorem refines_schedule (h : Refines q a) (time target token : Nat)
    (hallows : a.nextSeq + 1 < 2 ^ 64) :
    Refines (q.schedule time target token).2 (a.call (.schedule time target token)).2 := by
  have hseq : (q.nextSeq + 1) % 2 ^ 64 = q.nextSeq + 1 := by
    rw [h.nextSeq]
    exact Nat.mod_eq_of_lt hallows
  have hbooks := sameBooks_pushEntry { q with nextSeq := (q.nextSeq + 1) % 2 ^ 64 }
    ⟨time, q.nextSeq, target, token⟩
  obtain ⟨hsettled, hperm⟩ := settled_pushEntry
    (h.settled.rebooked q.cancelled ((q.nextSeq + 1) % 2 ^ 64)) ⟨time, q.nextSeq, target, token⟩
  have hnew : q.nextSeq ∉ q.cancelled := fun hid => absurd (h.known _ hid) (Nat.lt_irrefl _)
  refine ⟨hsettled, hbooks.now.trans h.now, ?_, ?_, ?_, ?_, ?_, ?_⟩
  · show (pushEntry _ _).nextSeq = (a.nextSeq + 1) % 2 ^ 64
    rw [hbooks.nextSeq, h.nextSeq]
  · exact h.ordered.orderedInsert _ _
  · show (a.events.orderedInsert Event.le ⟨time, a.nextSeq, target, token⟩).Perm _
    rw [← h.nextSeq, schedule, hbooks.cancelled]
    refine (List.perm_orderedInsert _ _ _).trans ?_
    refine List.Perm.trans ?_ (hperm.filter _).symm
    rw [List.filter_cons_of_pos (by simpa using hnew)]
    exact h.live.cons _
  · refine (hperm.map Event.id).nodup_iff.mpr ?_
    refine List.nodup_cons.mpr ⟨fun hmem => ?_, h.unique⟩
    obtain ⟨f, hf, hid⟩ := List.mem_map.mp hmem
    exact absurd (h.below f hf) (by simp only at hid; omega)
  · intro f hf
    show f.id < (pushEntry _ _).nextSeq
    rw [hbooks.nextSeq, hseq]
    rcases List.mem_cons.mp (hperm.subset hf) with rfl | hf
    · exact Nat.lt_succ_self _
    · exact Nat.lt_succ_of_lt (h.below f hf)
  · intro id hid
    show id < (pushEntry _ _).nextSeq
    rw [schedule, hbooks.cancelled] at hid
    rw [hbooks.nextSeq, hseq]
    exact Nat.lt_succ_of_lt (h.known id hid)

theorem refines_cancel (h : Refines q a) {id : Nat} (hallows : id < a.nextSeq) :
    Refines (q.cancel id) (a.call (.cancel id)).2 := by
  refine ⟨h.settled.rebooked _ _, h.now, h.nextSeq, h.ordered.filter _, ?_, h.unique, h.below, ?_⟩
  · show (a.events.filter fun e => e.id ≠ id).Perm
      (q.contents.filter fun e => e.id ∉ insert id q.cancelled)
    refine (h.live.filter _).trans ?_
    rw [List.filter_filter]
    refine List.Perm.of_eq (List.filter_congr fun e _ => ?_)
    simp [Finset.mem_insert, not_or]
  · intro i hi
    rcases Finset.mem_insert.mp hi with rfl | hi
    · show i < q.nextSeq
      rw [h.nextSeq]
      exact hallows
    · exact h.known i hi

theorem refines_advanceTo (h : Refines q a) (to_ : Nat) :
    Refines (q.advanceTo to_) (a.call (.advanceTo to_)).2 := by
  obtain ⟨hsettled, hperm⟩ := settled_advanceTo h.settled to_
  have hbooks := sameBooks_advanceTo q to_
  refine ⟨hsettled, ?_, hbooks.nextSeq.trans h.nextSeq, h.ordered, ?_, ?_, ?_, ?_⟩
  · rw [hbooks.now]
    show max q.now to_ = max a.now to_
    rw [h.now]
  · rw [hbooks.cancelled]
    exact h.live.trans (hperm.filter _).symm
  · exact (hperm.map Event.id).nodup_iff.mpr h.unique
  · intro e he
    rw [hbooks.nextSeq]
    exact h.below e (hperm.subset he)
  · intro id hid
    rw [hbooks.cancelled] at hid
    rw [hbooks.nextSeq]
    exact h.known id hid

theorem pop_none {now : Nat} {es : List Event} (h : ∀ e ∈ es, now < e.time) :
    Agenda.pop now es = (none, es) := by
  cases es with
  | nil => rfl
  | cons e es =>
    have := h e (List.mem_cons_self ..)
    exact if_neg (by omega)

theorem Refines.none_due (h : Refines q a) (now : Nat) (hlater : ∀ e ∈ q.contents, now < e.time) :
    Agenda.pop now a.events = (none, a.events) :=
  pop_none fun e he => hlater e (List.mem_of_mem_filter (h.live.subset he))

theorem Refines.first (h : Refines q a) {e : Event} {rest : List Event}
    (hcontents : q.contents = e :: rest) (hfirst : ∀ f ∈ rest, e.le f)
    (hlive : e.id ∉ q.cancelled) :
    ∃ later, a.events = e :: later ∧ later.Perm (rest.filter fun f => f.id ∉ q.cancelled) := by
  have hlive' := h.live
  rw [hcontents, List.filter_cons_of_pos (by simpa using hlive)] at hlive'
  have horder := h.ordered
  cases hevents : a.events with
  | nil =>
    rw [hevents] at hlive'
    exact absurd hlive'.length_eq (by simp)
  | cons f later =>
    rw [hevents] at hlive' horder
    -- the agenda's first is before this one, and this one before everything
    have hf : f ∈ e :: rest.filter fun f => decide (f.id ∉ q.cancelled) :=
      hlive'.subset (List.mem_cons_self ..)
    have hsame : f = e := by
      rcases List.mem_cons.mp hf with hfe | hfr
      · exact hfe
      · have hef := hfirst f (List.mem_of_mem_filter hfr)
        have hfe : f.le e := by
          rcases List.mem_cons.mp (hlive'.symm.subset (List.mem_cons_self ..)) with he | he
          · exact absurd hfr (by
              rw [← he]
              intro hmem
              have hu := h.unique
              rw [hcontents] at hu
              exact (List.nodup_cons.mp hu).1
                (List.mem_map_of_mem (List.mem_of_mem_filter hmem)))
          · exact (List.pairwise_cons.mp horder).1 e he
        have hu := h.unique
        rw [hcontents] at hu
        refine List.inj_on_of_nodup_map hu (List.mem_cons_of_mem _ (List.mem_of_mem_filter hfr))
          (List.mem_cons_self ..) ?_
        unfold Event.le at hef hfe
        omega
    subst hsame
    exact ⟨later, rfl, hlive'.cons_inv⟩

theorem Settled.dropDue {e : Event} {rest : List Event} {cancelled : Finset Nat}
    (h : Settled { q with due := e :: rest }) :
    Settled { q with due := rest, cancelled := cancelled } := by
  refine ⟨rfl, rfl, h.now, ?_, h.farOrdered, ?_, h.near, h.far, h.lens⟩
  · exact (List.pairwise_cons.mp h.dueOrdered).2
  · exact fun f hf => h.due f (List.mem_cons_of_mem _ hf)

theorem Refines.others {e : Event} {rest : List Event} (h : Refines { q with due := e :: rest } a) :
    ∀ f ∈ rest ++ (q.nearEvents ++ q.far), f.id ≠ e.id := by
  intro f hf hid
  have hu : (e.id :: (rest ++ (q.nearEvents ++ q.far)).map Event.id).Nodup := h.unique
  exact (List.nodup_cons.mp hu).1 (hid ▸ List.mem_map_of_mem hf)

theorem Refines.reclaim {e : Event} {rest : List Event} (h : Refines { q with due := e :: rest } a)
    (hdead : e.id ∈ q.cancelled) :
    Refines { q with due := rest, cancelled := q.cancelled.erase e.id } a := by
  refine ⟨h.settled.dropDue, h.now, h.nextSeq, h.ordered, ?_, (List.nodup_cons.mp h.unique).2,
    fun f hf => h.below f (List.mem_cons_of_mem _ hf),
    fun id hid => h.known id (Finset.mem_of_mem_erase hid)⟩
  have hlive := h.live
  have hcontents : ({ q with due := e :: rest } : EventQueue).contents =
    e :: (rest ++ (q.nearEvents ++ q.far)) := rfl
  rw [hcontents, List.filter_cons_of_neg (by simpa using hdead)] at hlive
  refine hlive.trans (List.Perm.of_eq (List.filter_congr fun f hf => ?_))
  simp [Finset.mem_erase, h.others f hf]

theorem refines_popLoop {now : Nat} {es : List Event} : ∀ {q : EventQueue} {a : Agenda},
    now ≤ q.now → Refines { q with due := es } a →
    (q.popLoop now es).1 = (Agenda.pop now a.events).1 ∧
      Refines (q.popLoop now es).2 { a with events := (Agenda.pop now a.events).2 } := by
  induction es with
  | nil =>
    intro q a hnow h
    have hnone := h.none_due now fun e he => by
      rcases List.mem_append.mp he with he | he
      · exact absurd he (by simp)
      · exact Nat.lt_of_le_of_lt hnow (h.settled.later he)
    rw [hnone]
    exact ⟨rfl, h⟩
  | cons e es ih =>
    intro q a hnow h
    have hother : ∀ f ∈ q.nearEvents ++ q.far, q.now < f.time := fun f hf => h.settled.later hf
    have hdue := (List.pairwise_cons.mp h.settled.dueOrdered).1
    unfold popLoop
    by_cases htime : e.time ≤ now
    · rw [if_pos htime]
      by_cases hcancelled : e.id ∈ q.cancelled
      · rw [if_pos hcancelled]
        exact ih hnow (h.reclaim hcancelled)
      · rw [if_neg hcancelled]
        have hfirst : ∀ f ∈ es ++ (q.nearEvents ++ q.far), e.le f := by
          intro f hf
          rcases List.mem_append.mp hf with hf | hf
          · exact hdue f hf
          · have := hother f hf
            exact .inl (by omega)
        obtain ⟨later, hevents, hlater⟩ := h.first rfl hfirst hcancelled
        have hpop : Agenda.pop now a.events = (some e, later) := by
          rw [hevents]
          exact if_pos htime
        rw [hpop]
        have hordered := h.ordered
        rw [hevents] at hordered
        exact ⟨rfl, h.settled.dropDue, h.now, h.nextSeq, (List.pairwise_cons.mp hordered).2,
          hlater, (List.nodup_cons.mp h.unique).2,
          fun f hf => h.below f (List.mem_cons_of_mem _ hf), h.known⟩
    · rw [if_neg htime]
      have hnone := h.none_due now fun f hf => by
        rcases List.mem_append.mp hf with hf | hf
        · rcases List.mem_cons.mp hf with rfl | hf
          · omega
          · have := hdue f hf
            unfold Event.le at this
            omega
        · exact Nat.lt_of_le_of_lt hnow (hother f hf)
      rw [hnone]
      exact ⟨rfl, h⟩

theorem refines_popDue (h : Refines q a) (now : Nat) :
    (q.popDue now).1 = (Agenda.pop now a.events).1 ∧
      Refines (q.popDue now).2 (a.call (.popDue now)).2 := by
  have hadvance := refines_advanceTo h now
  have hnow : now ≤ (q.advanceTo now).now := by
    rw [(sameBooks_advanceTo q now).now]
    exact Nat.le_max_right ..
  exact refines_popLoop hnow hadvance

theorem checkIds_ok {nextSeq : Nat} {es : List Event} : ∀ {seen : Finset Nat},
    checkIds nextSeq es seen = .ok () ↔
      (∀ e ∈ es, e.id < nextSeq ∧ e.id ∉ seen) ∧ (es.map Event.id).Nodup := by
  induction es with
  | nil => exact fun {_} => ⟨fun _ => ⟨fun e he => absurd he (by simp), List.nodup_nil⟩, fun _ => rfl⟩
  | cons e es ih =>
    intro seen
    unfold checkIds
    by_cases hbelow : nextSeq ≤ e.id
    · rw [if_pos hbelow]
      refine ⟨fun h => absurd h (by simp), fun h => ?_⟩
      exact absurd (h.1 e (List.mem_cons_self ..)).1 (by omega)
    · rw [if_neg hbelow]
      by_cases hseen : e.id ∈ seen
      · rw [if_pos hseen]
        refine ⟨fun h => absurd h (by simp), fun h => ?_⟩
        exact absurd hseen (h.1 e (List.mem_cons_self ..)).2
      · rw [if_neg hseen, ih, List.map_cons, List.nodup_cons]
        constructor
        · rintro ⟨hes, hnodup⟩
          refine ⟨fun f hf => ?_, fun hmem => ?_, hnodup⟩
          · rcases List.mem_cons.mp hf with rfl | hf
            · exact ⟨by omega, hseen⟩
            · exact ⟨(hes f hf).1, fun hin => (hes f hf).2 (Finset.mem_insert_of_mem hin)⟩
          · obtain ⟨f, hf, hid⟩ := List.mem_map.mp hmem
            exact (hes f hf).2 (hid ▸ Finset.mem_insert_self _ _)
        · rintro ⟨hes, hnew, hnodup⟩
          refine ⟨fun f hf => ⟨(hes f (List.mem_cons_of_mem _ hf)).1, fun hin => ?_⟩, hnodup⟩
          rcases Finset.mem_insert.mp hin with hid | hin
          · exact hnew (hid ▸ List.mem_map_of_mem hf)
          · exact (hes f (List.mem_cons_of_mem _ hf)).2 hin

theorem refines_restore (q : EventQueue) {now nextSeq : Nat} {es : List Event}
    (hids : checkIds nextSeq es ∅ = .ok ()) :
    Refines (es.foldl pushEntry (q.cleared now nextSeq))
      ⟨now, nextSeq, es.insertionSort Event.le⟩ := by
  obtain ⟨hbelow, hnodup⟩ := checkIds_ok.mp hids
  have hempty : Settled (q.cleared now nextSeq) := settled_cleared rfl rfl rfl rfl rfl
  obtain ⟨hsettled, hperm⟩ := settled_pushAll hempty es
  rw [contents_cleared (q := q.cleared now nextSeq) rfl rfl rfl, List.append_nil] at hperm
  have hbooks := sameBooks_foldl sameBooks_pushEntry es (q.cleared now nextSeq)
  refine ⟨hsettled, hbooks.now, hbooks.nextSeq, List.pairwise_insertionSort _ _, ?_, ?_, ?_, ?_⟩
  · rw [hbooks.cancelled]
    refine (List.perm_insertionSort _ _).trans ?_
    rw [List.filter_eq_self.mpr fun e _ => by simp [cleared]]
    exact hperm.symm
  · exact (hperm.map Event.id).nodup_iff.mpr hnodup
  · intro e he
    rw [hbooks.nextSeq]
    exact (hbelow e (hperm.subset he)).1
  · intro id hid
    rw [hbooks.cancelled] at hid
    exact absurd hid (by simp [cleared])

theorem refines_restored (h : Refines q a) (p : EventQueue) :
    ∃ q', p.restore q.now q.nextSeq q.events = .ok q' ∧ Refines q' a := by
  have hids : checkIds q.nextSeq a.events ∅ = .ok () := by
    refine checkIds_ok.mpr ⟨fun e he => ⟨?_, by simp⟩, ?_⟩
    · exact h.below e (List.mem_of_mem_filter (h.live.subset he))
    · refine (h.live.map Event.id).nodup_iff.mpr ?_
      exact h.unique.sublist (List.filter_sublist.map Event.id)
  have hrefines := @refines_restore p q.now _ _ hids
  rw [h.ordered.insertionSort_eq, h.now, h.nextSeq] at hrefines
  rw [h.events_eq]
  refine ⟨_, ?_, hrefines⟩
  rw [restore, hids, h.now, h.nextSeq]

theorem refines_call (h : Refines q a) {c : QueueCall} (hallows : a.Allows c) :
    (q.call c).1 = (a.call c).1 ∧ Refines (q.call c).2 (a.call c).2 := by
  cases c with
  | schedule time target token =>
    refine ⟨?_, refines_schedule h time target token hallows⟩
    show Answer.posted q.nextSeq = Answer.posted a.nextSeq
    rw [h.nextSeq]
  | cancel id => exact ⟨rfl, refines_cancel h hallows⟩
  | advanceTo to_ => exact ⟨rfl, refines_advanceTo h to_⟩
  | popDue now =>
    obtain ⟨hfired, hrefines⟩ := refines_popDue h now
    exact ⟨congrArg Answer.fired hfired, hrefines⟩
  | restore now nextSeq events =>
    simp only [call, Agenda.call, restore]
    cases hids : checkIds nextSeq events ∅ with
    | error e => exact ⟨rfl, h⟩
    | ok u => exact ⟨rfl, refines_restore q hids⟩

theorem refines_run {calls : List QueueCall} : ∀ {q : EventQueue} {a : Agenda}, Refines q a →
    a.AllowsRun calls →
    (q.run calls).1 = (a.run calls).1 ∧ Refines (q.run calls).2 (a.run calls).2 := by
  induction calls with
  | nil => exact fun h _ => ⟨rfl, h⟩
  | cons c calls ih =>
    intro q a h hallows
    obtain ⟨hanswer, hstep⟩ := refines_call h hallows.1
    obtain ⟨hanswers, hrun⟩ := ih hstep hallows.2
    refine ⟨?_, hrun⟩
    show (q.call c).1 :: ((q.call c).2.run calls).1 = _
    rw [hanswer, hanswers]
    rfl

end

/-- **The event queue is a sorted list.** However it is driven, it answers what the list of
live events in firing order answers; its counts are right; and what it saves restores, into
any queue, one that answers the same from there on. -/
theorem queue_refines (granuleShift : Nat) (calls : List QueueCall)
    (hallows : Agenda.empty.AllowsRun calls) :
    let q := ((new granuleShift).run calls).2
    let a := (Agenda.empty.run calls).2
    ((new granuleShift).run calls).1 = (Agenda.empty.run calls).1 ∧
      q.events = a.events ∧
      (∀ level < wheelLevels, q.levelLen level = tally (row q.near level) wheelSlots) ∧
      ∀ p : EventQueue, ∃ q', p.restore q.now q.nextSeq q.events = .ok q' ∧
        ∀ later, a.AllowsRun later → (q'.run later).1 = (q.run later).1 := by
  intro q a
  obtain ⟨hanswers, h⟩ := refines_run (refines_new granuleShift) hallows
  refine ⟨hanswers, h.events_eq, h.settled.lens, fun p => ?_⟩
  obtain ⟨q', hrestore, h'⟩ := refines_restored h p
  refine ⟨q', hrestore, fun later hlater => ?_⟩
  exact (refines_run h' hlater).1.trans (refines_run h hlater).1.symm

def sampleRun : List QueueCall :=
  [.schedule 5 1 0, .schedule (2 ^ 44) 2 0, .advanceTo 3, .schedule (2 ^ 43) 3 0, .cancel 0,
    .popDue (2 ^ 50), .popDue (2 ^ 50), .popDue (2 ^ 50)]

theorem queue_refines_sample :
    ((new 32).run sampleRun).1 = [.posted 0, .posted 1, .done, .posted 2, .done,
      .fired (some ⟨2 ^ 43, 2, 3, 0⟩), .fired (some ⟨2 ^ 44, 1, 2, 0⟩), .fired none] :=
  (queue_refines 32 sampleRun (by decide +kernel)).1.trans (by decide +kernel)

/-- A number that was handed out, taken back by a restore and only then cancelled, cancels
the event it is handed out to next: that event is never fired. And once the counter has
wrapped, what a queue saves is refused. -/
theorem stale_number :
    ((new 32).run [.schedule 10 0 0, .restore 0 0 [], .cancel 0, .schedule 20 0 1,
        .popDue 30]).1 = [.posted 0, .done, .done, .posted 0, .fired none] ∧
      (Agenda.empty.run [.schedule 10 0 0, .restore 0 0 [], .cancel 0, .schedule 20 0 1,
        .popDue 30]).1 = [.posted 0, .done, .done, .posted 0, .fired (some ⟨20, 0, 0, 1⟩)] ∧
      ∃ q, q = ((new 32).run [.restore 0 (2 ^ 64 - 1) [], .schedule 10 0 0]).2 ∧
        (q.restore q.now q.nextSeq q.events).toOption.isNone = true :=
  ⟨by decide +kernel, by decide +kernel, _, rfl, by decide +kernel⟩

end EventQueue

end Rsemu.Sched
