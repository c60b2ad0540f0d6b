import Rsemu.Sched.Fire

/-!
# The next deadline

`nextDeadline` looks at the due heap, then at the wheel level by level, and takes the
first event it meets, on the understanding that the levels are in order of time. They
are when every event was placed relative to the same position. An event that was placed
before the queue moved on can stand at a coarser level than it would be placed at now,
and a later one then goes to a finer level and is met first.

Within one level the scan is right (`scanLevel_eq`). `nextDeadline_exact_iff` says that
in every queue the answer is the earliest pending time exactly when no event of a coarser
level is earlier than all of the finest level in use, and that a restored queue has none.
-/

namespace Rsemu.Sched

open Blocks

/-- A queue and the events that were posted and not yet popped. -/
structure Ledger where
  queue : EventQueue
  pending : List Event

namespace Ledger

/-- A call, and the events posted and not yet fired. -/
def call (s : Ledger) (c : QueueCall) : Ledger :=
  let out := s.queue.call c
  { queue := out.2
    pending := match c, out.1 with
      | .schedule time target token, .posted id => s.pending ++ [⟨time, id, target, token⟩]
      | .popDue _, .fired (some e) => s.pending.erase e
      | .restore _ _ events, .done => events
      | _, _ => s.pending }

def run (s : Ledger) (calls : List QueueCall) : Ledger := calls.foldl call s

end Ledger

def QueueCall.isCancel : QueueCall → Bool
  | .cancel _ => true
  | _ => false

def earliestOf (es : List Event) : Option Nat := (es.map Event.time).min?

namespace EventQueue

def levelEvents (q : EventQueue) (level : Nat) : List Event := pool (row q.near level) wheelSlots

/-- **An event of a coarser level is earlier than all of the finest level in use**, and
nothing is due. -/
def Overtaken (q : EventQueue) : Prop :=
  q.due = [] ∧ ∃ fine < wheelLevels, ∃ coarse < wheelLevels, fine < coarse ∧
    (∀ level < fine, q.levelEvents level = []) ∧ q.levelEvents fine ≠ [] ∧
    ∃ e ∈ q.levelEvents coarse, ∀ f ∈ q.levelEvents fine, e.time < f.time

instance (q : EventQueue) : Decidable q.Overtaken :=
  inferInstanceAs (Decidable (q.due = [] ∧ ∃ fine < wheelLevels, ∃ coarse < wheelLevels,
    fine < coarse ∧ (∀ level < fine, q.levelEvents level = []) ∧ q.levelEvents fine ≠ [] ∧
    ∃ e ∈ q.levelEvents coarse, ∀ f ∈ q.levelEvents fine, e.time < f.time))

/-- **What a run without cancellations keeps true.** -/
structure Kept (s : Ledger) : Prop where
  settled : Settled s.queue
  uncancelled : s.queue.cancelled = ∅
  pending : s.pending.Perm s.queue.contents

theorem kept_new (granuleShift : Nat) : Kept ⟨new granuleShift, []⟩ := by
  refine ⟨settled_new granuleShift, rfl, ?_⟩
  rw [contents_cleared (q := new granuleShift) rfl rfl rfl]

theorem popLoop_uncancelled {q : EventQueue} (h : q.cancelled = ∅) (now : Nat) (es : List Event) :
    q.popLoop now es = ((Agenda.pop now es).1, { q with due := (Agenda.pop now es).2 }) := by
  cases es with
  | nil => rfl
  | cons e es =>
    unfold popLoop
    by_cases htime : e.time ≤ now
    · have hpop : Agenda.pop now (e :: es) = (some e, es) := if_pos htime
      rw [hpop, if_pos htime, if_neg (by rw [h]; simp)]
    · have hpop : Agenda.pop now (e :: es) = (none, e :: es) := if_neg htime
      rw [hpop, if_neg htime]

theorem kept_popDue {q : EventQueue} {pending : List Event} (h : Kept ⟨q, pending⟩) (now : Nat) :
    Kept (Ledger.call ⟨q, pending⟩ (.popDue now)) := by
  obtain ⟨hsettled, hperm⟩ := settled_advanceTo h.settled now
  have hempty : (q.advanceTo now).cancelled = ∅ :=
    (sameBooks_advanceTo q now).cancelled.trans h.uncancelled
  have hpending : pending.Perm (q.advanceTo now).contents := h.pending.trans hperm.symm
  have hout : q.popDue now = _ := popLoop_uncancelled hempty now (q.advanceTo now).due
  simp only [Ledger.call, EventQueue.call, hout]
  generalize q.advanceTo now = p at *
  cases hdue : p.due with
  | nil =>
    have hsame : ({ p with due := [] } : EventQueue) = p := by rw [← hdue]
    simp only [Agenda.pop, hsame]
    exact ⟨hsettled, hempty, hpending⟩
  | cons e rest =>
    have hsame : ({ p with due := e :: rest } : EventQueue) = p := by rw [← hdue]
    by_cases htime : e.time ≤ now
    · simp only [Agenda.pop, htime, if_true]
      rw [← hsame] at hsettled
      refine ⟨hsettled.dropDue, hempty, ?_⟩
      have hcontents : p.contents = e :: (rest ++ (p.nearEvents ++ p.far)) := by
        rw [contents, hdue]
        rfl
      have := hpending.erase e
      rw [hcontents, List.erase_cons_head] at this
      exact this
    · simp only [Agenda.pop, htime, if_false, hsame]
      exact ⟨hsettled, hempty, hpending⟩

theorem kept_call {s : Ledger} (h : Kept s) {c : QueueCall} (hc : c.isCancel = false) :
    Kept (s.call c) := by
  obtain ⟨q, pending⟩ := s
  cases c with
  | schedule time target token =>
    obtain ⟨hsettled, hperm⟩ := settled_pushEntry
      (h.settled.rebooked q.cancelled ((q.nextSeq + 1) % 2 ^ 64))
      ⟨time, q.nextSeq, target, token⟩
    have hbooks := sameBooks_pushEntry { q with nextSeq := (q.nextSeq + 1) % 2 ^ 64 }
      ⟨time, q.nextSeq, target, token⟩
    refine ⟨hsettled, hbooks.cancelled.trans h.uncancelled, ?_⟩
    refine List.Perm.trans ?_ hperm.symm
    exact (List.perm_append_singleton _ _).trans (h.pending.cons _)
  | cancel id => exact absurd hc (by simp [QueueCall.isCancel])
  | advanceTo to_ =>
    obtain ⟨hsettled, hperm⟩ := settled_advanceTo h.settled to_
    exact ⟨hsettled, (sameBooks_advanceTo q to_).cancelled.trans h.uncancelled,
      h.pending.trans hperm.symm⟩
  | popDue now => exact kept_popDue h now
  | restore now nextSeq events =>
    cases hids : checkIds nextSeq events ∅ with
    | error e =>
      simp only [Ledger.call, EventQueue.call, restore, hids]
      exact h
    | ok u =>
      simp only [Ledger.call, EventQueue.call, restore, hids]
      obtain ⟨hsettled, hperm⟩ := settled_pushAll
        (q := q.cleared now nextSeq) (settled_cleared rfl rfl rfl rfl rfl) events
      rw [contents_cleared (q := q.cleared now nextSeq) rfl rfl rfl,
        List.append_nil] at hperm
      have hbooks := sameBooks_foldl sameBooks_pushEntry events (q.cleared now nextSeq)
      exact ⟨hsettled, hbooks.cancelled, hperm.symm⟩

theorem kept_run {calls : List QueueCall} (hcalls : ∀ c ∈ calls, c.isCancel = false) :
    ∀ {s : Ledger}, Kept s → Kept (s.run calls) := by
  induction calls with
  | nil => exact fun h => h
  | cons c calls ih =>
    intro s h
    exact ih (fun d hd => hcalls d (List.mem_cons_of_mem _ hd))
      (kept_call h (hcalls c (List.mem_cons_self ..)))

theorem earliestOf_eq_some {es : List Event} {time : Nat} :
    earliestOf es = some time ↔ (∃ e ∈ es, e.time = time) ∧ ∀ e ∈ es, time ≤ e.time := by
  unfold earliestOf
  rw [List.min?_eq_some_iff, List.mem_map]
  exact ⟨fun h => ⟨h.1, fun e he => h.2 _ (List.mem_map_of_mem he)⟩,
    fun h => ⟨h.1, fun t ht => by
      obtain ⟨e, he, rfl⟩ := List.mem_map.mp ht
      exact h.2 e he⟩⟩

theorem earliestOf_eq_none {es : List Event} : earliestOf es = none ↔ es = [] := by
  unfold earliestOf
  rw [List.min?_eq_none_iff, List.map_eq_nil_iff]

theorem earliestOf_perm {es fs : List Event} (h : es.Perm fs) : earliestOf es = earliestOf fs := by
  cases hes : earliestOf es with
  | none =>
    rw [earliestOf_eq_none.mp hes] at h
    exact (earliestOf_eq_none.mpr h.symm.eq_nil).symm
  | some time =>
    obtain ⟨⟨e, he, htime⟩, hmin⟩ := earliestOf_eq_some.mp hes
    exact (earliestOf_eq_some.mpr ⟨⟨e, h.subset he, htime⟩,
      fun f hf => hmin f (h.symm.subset hf)⟩).symm

section

variable {q : EventQueue}

theorem earliest_uncancelled (hempty : q.cancelled = ∅) (bucket : List Event) :
    q.earliest bucket = earliestOf bucket := by
  unfold earliest earliestOf
  rw [List.filter_eq_self.mpr fun e _ => by rw [hempty]; simp]

theorem mem_levelEvents {level : Nat} {e : Event} :
    e ∈ q.levelEvents level ↔ ∃ slot < wheelSlots, e ∈ row q.near level slot := mem_pool

theorem time_lt_of_block_lt {shift level : Nat} {e f : Event}
    (h : block wheelSlotBits level (e.time >>> shift) <
      block wheelSlotBits level (f.time >>> shift)) : e.time < f.time := by
  have hlt := lt_of_block_lt h
  refine Nat.lt_of_not_le fun hle => ?_
  rw [Nat.shiftRight_eq_div_pow, Nat.shiftRight_eq_div_pow] at hlt
  exact absurd (Nat.div_le_div_right hle) (Nat.not_le.mpr hlt)

theorem Settled.at_level (h : Settled q) {level : Nat} (hlevel : level < wheelLevels) {e : Event}
    (he : e ∈ q.levelEvents level) :
    Ahead wheelSlotBits q.nowGranule level (e.time >>> q.granuleShift) ∧
      e ∈ row q.near level (block wheelSlotBits level (e.time >>> q.granuleShift) % wheelSlots) := by
  obtain ⟨slot, hslot, he⟩ := mem_levelEvents.mp he
  obtain ⟨hahead, hs, _⟩ := h.near level hlevel slot hslot e he
  exact ⟨hahead, hs ▸ he⟩

theorem scan_from (h : Settled q) (hempty : q.cancelled = ∅) {level : Nat}
    (hlevel : level < wheelLevels) {count : Nat} : ∀ {from_ : Nat}, from_ + count = wheelSlots →
    (∀ e ∈ q.levelEvents level, block wheelSlotBits level q.nowGranule + from_ ≤
      block wheelSlotBits level (e.time >>> q.granuleShift)) →
    ((List.range' from_ count).findSome? fun step =>
      q.earliest (q.near (level * wheelSlots +
        (block wheelSlotBits level q.nowGranule + step) % wheelSlots))) =
      earliestOf (q.levelEvents level) := by
  induction count with
  | zero =>
    intro from_ hfrom hall
    refine (earliestOf_eq_none.mpr (List.eq_nil_iff_forall_not_mem.mpr fun e he => ?_)).symm
    have hturn : _ < _ + wheelSlots := (h.at_level hlevel he).1.turn
    have := hall e he
    omega
  | succ count ih =>
    intro from_ hfrom hall
    rw [List.range'_succ, List.findSome?_cons, earliest_uncancelled hempty]
    generalize hbucket : q.near (level * wheelSlots +
      (block wheelSlotBits level q.nowGranule + from_) % wheelSlots) = bucket
    have hslot : (block wheelSlotBits level q.nowGranule + from_) % wheelSlots < wheelSlots :=
      Nat.mod_lt _ (by decide)
    cases hearliest : earliestOf bucket with
    | none =>
      -- nothing here: everything is further on
      refine ih (by omega) fun e he => ?_
      have hle := hall e he
      rcases Nat.lt_or_eq_of_le hle with hlt | heq
      · omega
      · have hmem := (h.at_level hlevel he).2
        rw [← heq] at hmem
        have hnil := earliestOf_eq_none.mp hearliest
        rw [← hbucket] at hnil
        exact absurd hmem (by rw [row, hnil]; simp)
    | some time =>
      obtain ⟨⟨e, he, htime⟩, hmin⟩ := earliestOf_eq_some.mp hearliest
      rw [← hbucket] at he
      have hlevele : e ∈ q.levelEvents level := mem_levelEvents.mpr ⟨_, hslot, he⟩
      refine (earliestOf_eq_some.mpr ⟨⟨e, hlevele, htime⟩, fun f hf => ?_⟩).symm
      obtain ⟨hahead, hs, _⟩ := h.near level hlevel _ hslot e he
      have hturn : _ < _ + wheelSlots := hahead.turn
      have hblock : block wheelSlotBits level (e.time >>> q.granuleShift) =
          block wheelSlotBits level q.nowGranule + from_ := by
        have := hall e hlevele
        simp only [show wheelSlots = 256 from rfl] at hs hturn hfrom
        omega
      -- in this bucket, or of a later block
      rcases Nat.lt_or_eq_of_le (hall f hf) with hlt | heq
      · rw [← hblock] at hlt
        have := time_lt_of_block_lt hlt
        omega
      · have hmem := (h.at_level hlevel hf).2
        rw [← heq] at hmem
        exact hmin f (hbucket ▸ hmem)

theorem scanLevel_eq (h : Settled q) (hempty : q.cancelled = ∅) {level : Nat}
    (hlevel : level < wheelLevels) : q.scanLevel level = earliestOf (q.levelEvents level) := by
  unfold scanLevel
  by_cases hlen : q.levelLen level = 0
  · rw [if_pos hlen]
    rw [h.lens level hlevel] at hlen
    exact (earliestOf_eq_none.mpr (List.length_eq_zero_iff.mp hlen)).symm
  · rw [if_neg hlen]
    refine scan_from h hempty hlevel rfl fun e he => ?_
    exact (h.at_level hlevel he).1.ahead

theorem purge_uncancelled (hempty : q.cancelled = ∅) (es : List Event) :
    q.purgeCancelledDue es = { q with due := es } := by
  cases es with
  | nil => rfl
  | cons e es =>
    unfold purgeCancelledDue
    rw [if_neg (by rw [hempty]; simp)]

theorem nextDeadline_eq (q : EventQueue) :
    q.nextDeadline = (((q.purgeCancelledDue q.due).due.head?.map Event.time).or
      (((List.range wheelLevels).findSome? (q.purgeCancelledDue q.due).scanLevel).or
        ((q.purgeCancelledDue q.due).far.head?.map Event.time)), q.purgeCancelledDue q.due) := by
  simp only [nextDeadline]
  cases hdue : (q.purgeCancelledDue q.due).due.head? with
  | some e => rfl
  | none =>
    cases hnear : (List.range wheelLevels).findSome? (q.purgeCancelledDue q.due).scanLevel with
    | some time => rfl
    | none => rfl

theorem nextDeadline_uncancelled (hempty : q.cancelled = ∅) :
    q.nextDeadline.1 = (q.due.head?.map Event.time).or
      (((List.range wheelLevels).findSome? q.scanLevel).or (q.far.head?.map Event.time)) := by
  rw [nextDeadline_eq, purge_uncancelled hempty]

theorem mem_nearEvents {e : Event} :
    e ∈ q.nearEvents ↔ ∃ level < wheelLevels, e ∈ q.levelEvents level := by
  rw [nearEvents, mem_pool]
  constructor
  · rintro ⟨i, hi, he⟩
    obtain ⟨level, slot, hlevel, hslot, rfl⟩ := index_split hi
    exact ⟨level, hlevel, mem_levelEvents.mpr ⟨slot, hslot, he⟩⟩
  · rintro ⟨level, hlevel, he⟩
    obtain ⟨slot, hslot, he⟩ := mem_levelEvents.mp he
    exact ⟨_, index_lt hlevel hslot, he⟩

theorem Settled.due_first (h : Settled q) {e f : Event} (he : e ∈ q.due)
    (hf : f ∈ q.nearEvents ++ q.far) : e.time < f.time := by
  have hdue := h.due e he
  have hlater : q.nowGranule < f.time >>> q.granuleShift := by
    rcases List.mem_append.mp hf with hf | hf
    · obtain ⟨level, hlevel, hf⟩ := mem_nearEvents.mp hf
      exact (h.at_level hlevel hf).1.lt
    · have := h.far f hf
      simp only [show wheelSlots = 256 from rfl] at this
      exact lt_of_block_lt (Nat.lt_of_lt_of_le (by omega) this)
  exact @time_lt_of_block_lt q.granuleShift 0 e f (Nat.lt_of_le_of_lt hdue hlater)

theorem Settled.far_last (h : Settled q) {e f : Event} (he : e ∈ q.nearEvents) (hf : f ∈ q.far) :
    e.time < f.time := by
  obtain ⟨level, hlevel, he⟩ := mem_nearEvents.mp he
  have hturn := @turn_mono wheelSlotBits _ _ _ _ (by decide) (show level ≤ wheelLevels - 1 by omega)
    (h.at_level hlevel he).1.turn
  have hfar := h.far f hf
  exact time_lt_of_block_lt (Nat.lt_of_lt_of_le hturn hfar)

theorem nextDeadline_due (h : Settled q) (hempty : q.cancelled = ∅) (hdue : q.due ≠ []) :
    q.nextDeadline.1 = earliestOf q.contents := by
  rw [nextDeadline_uncancelled hempty]
  cases hhead : q.due with
  | nil => exact absurd hhead hdue
  | cons e rest =>
    have he : e ∈ q.due := by rw [hhead]; exact List.mem_cons_self ..
    have hordered := h.dueOrdered
    rw [hhead] at hordered
    refine (earliestOf_eq_some.mpr ⟨⟨e, List.mem_append_left _ he, rfl⟩, fun f hf => ?_⟩).symm
    rcases List.mem_append.mp hf with hf | hf
    · rw [hhead] at hf
      rcases List.mem_cons.mp hf with rfl | hf
      · exact Nat.le_refl _
      · have := (List.pairwise_cons.mp hordered).1 f hf
        unfold Event.le at this
        omega
    · exact Nat.le_of_lt (h.due_first he hf)

theorem nextDeadline_far (h : Settled q) (hempty : q.cancelled = ∅) (hdue : q.due = [])
    (hnear : ∀ level < wheelLevels, q.levelEvents level = []) :
    q.nextDeadline.1 = earliestOf q.contents := by
  have hscan : (List.range wheelLevels).findSome? q.scanLevel = none := by
    refine List.findSome?_eq_none_iff.mpr fun level hlevel => ?_
    have hlevel := List.mem_range.mp hlevel
    rw [scanLevel_eq h hempty hlevel]
    exact earliestOf_eq_none.mpr (hnear level hlevel)
  have hnone : q.nearEvents = [] := by
    refine List.eq_nil_iff_forall_not_mem.mpr fun e he => ?_
    obtain ⟨level, hlevel, he⟩ := mem_nearEvents.mp he
    rw [hnear level hlevel] at he
    cases he
  rw [nextDeadline_uncancelled hempty, contents, hdue, hnone, List.nil_append, List.nil_append]
  rw [hscan]
  cases hfar : q.far with
  | nil => rfl
  | cons e rest =>
    have hordered := h.farOrdered
    rw [hfar] at hordered
    refine (earliestOf_eq_some.mpr ⟨⟨e, List.mem_cons_self .., rfl⟩, fun f hf => ?_⟩).symm
    rcases List.mem_cons.mp hf with rfl | hf
    · exact Nat.le_refl _
    · have := (List.pairwise_cons.mp hordered).1 f hf
      unfold Event.le at this
      omega

theorem nextDeadline_near (h : Settled q) (hempty : q.cancelled = ∅) (hdue : q.due = [])
    {fine : Nat} (hfine : fine < wheelLevels) (hbelow : ∀ level < fine, q.levelEvents level = [])
    (hused : q.levelEvents fine ≠ []) : q.nextDeadline.1 = earliestOf (q.levelEvents fine) := by
  obtain ⟨time, htime⟩ : ∃ time, earliestOf (q.levelEvents fine) = some time :=
    Option.ne_none_iff_exists'.mp fun hnone => hused (earliestOf_eq_none.mp hnone)
  have hscan : (List.range wheelLevels).findSome? q.scanLevel = some time := by
    refine List.findSome?_eq_some_iff.mpr ⟨List.range fine, fine,
      List.range' (fine + 1) (wheelLevels - fine - 1), ?_, ?_, ?_⟩
    · have happend := @List.range'_append_1 0 fine (wheelLevels - fine - 1 + 1)
      rw [Nat.zero_add] at happend
      rw [List.range_eq_range', List.range_eq_range', ← List.range'_succ, happend]
      congr 1
      omega
    · rw [scanLevel_eq h hempty hfine]
      exact htime
    · intro level hlevel
      have hlt := List.mem_range.mp hlevel
      rw [scanLevel_eq h hempty (by omega)]
      exact earliestOf_eq_none.mpr (hbelow level hlt)
  rw [nextDeadline_uncancelled hempty, htime, hdue, hscan]
  rfl

theorem exists_finest (hused : ∃ level < wheelLevels, q.levelEvents level ≠ []) :
    ∃ fine < wheelLevels, (∀ level < fine, q.levelEvents level = []) ∧ q.levelEvents fine ≠ [] := by
  obtain ⟨hlevel, hne⟩ := Nat.find_spec hused
  refine ⟨Nat.find hused, hlevel, fun level hlt => ?_, hne⟩
  by_contra hnil
  exact Nat.find_min hused hlt ⟨by omega, hnil⟩

theorem exact_iff (h : Settled q) (hempty : q.cancelled = ∅) :
    q.nextDeadline.1 = earliestOf q.contents ↔ ¬ q.Overtaken := by
  constructor
  · rintro hexact ⟨hdue, fine, hfine, coarse, hcoarse, _, hbelow, hused, e, he, hearlier⟩
    rw [nextDeadline_near h hempty hdue hfine hbelow hused] at hexact
    obtain ⟨time, htime⟩ : ∃ time, earliestOf (q.levelEvents fine) = some time :=
      Option.ne_none_iff_exists'.mp fun hnone => hused (earliestOf_eq_none.mp hnone)
    obtain ⟨⟨f, hf, hft⟩, _⟩ := earliestOf_eq_some.mp htime
    have hmem : e ∈ q.contents := List.mem_append_right _
      (List.mem_append_left _ (mem_nearEvents.mpr ⟨coarse, hcoarse, he⟩))
    have hle := (earliestOf_eq_some.mp (hexact.symm.trans htime)).2 e hmem
    have := hearlier f hf
    omega
  · intro hclear
    by_cases hdue : q.due = []
    · by_cases hused : ∃ level < wheelLevels, q.levelEvents level ≠ []
      · obtain ⟨fine, hfine, hbelow, hne⟩ := exists_finest hused
        rw [nextDeadline_near h hempty hdue hfine hbelow hne]
        obtain ⟨time, htime⟩ : ∃ time, earliestOf (q.levelEvents fine) = some time :=
          Option.ne_none_iff_exists'.mp fun hnone => hne (earliestOf_eq_none.mp hnone)
        rw [htime]
        obtain ⟨⟨f, hf, hft⟩, hmin⟩ := earliestOf_eq_some.mp htime
        have hnear : f ∈ q.nearEvents := mem_nearEvents.mpr ⟨fine, hfine, hf⟩
        refine (earliestOf_eq_some.mpr ⟨⟨f, List.mem_append_right _
          (List.mem_append_left _ hnear), hft⟩, fun e he => ?_⟩).symm
        rw [hdue, List.nil_append] at he
        rcases List.mem_append.mp he with he | he
        · obtain ⟨level, hlevel, he⟩ := mem_nearEvents.mp he
          rcases Nat.lt_trichotomy level fine with hlt | rfl | hgt
          · rw [hbelow level hlt] at he
            cases he
          · exact hmin e he
          · by_contra hearlier
            refine hclear ⟨hdue, fine, hfine, level, hlevel, hgt, hbelow, hne, e, he, ?_⟩
            intro f' hf'
            have := hmin f' hf'
            omega
        · have := h.far_last hnear he
          omega
      · refine nextDeadline_far h hempty hdue fun level hlevel => ?_
        by_contra hne
        exact hused ⟨level, hlevel, hne⟩
    · exact nextDeadline_due h hempty hdue

/-- Every event is at the finest level it can be at. -/
def Fresh (q : EventQueue) : Prop :=
  ∀ level < wheelLevels, ∀ slot < wheelSlots, ∀ e ∈ row q.near level slot, ∀ l < level,
    block wheelSlotBits l q.nowGranule + wheelSlots ≤
      block wheelSlotBits l (e.time >>> q.granuleShift)

theorem fresh_pushEntry (h : Settled q) (hfresh : Fresh q) (e : Event) : Fresh (q.pushEntry e) := by
  unfold pushEntry
  split
  · exact hfresh
  · rename_i level slot hplace
    have hlt : q.now < e.time := by
      refine Nat.lt_of_not_le fun hge => ?_
      rw [placement, if_pos hge] at hplace
      cases hplace
    obtain ⟨hlevel, _, hslot, hbelow⟩ := (placement_spec h.now.symm hlt).near hplace
    have hslot' : slot < wheelSlots := hslot ▸ Nat.mod_lt _ (by decide)
    intro l hl s hs f hf
    by_cases hlevels : l = level
    · subst hlevels
      rw [pushNear, row_update_self] at hf
      by_cases hslots : s = slot
      · subst hslots
        rw [Function.update_self] at hf
        rcases List.mem_append.mp hf with hf | hf
        · exact hfresh l hl s hs f hf
        · rw [List.mem_singleton.mp hf]
          exact hbelow
      · rw [Function.update_of_ne hslots] at hf
        exact hfresh l hl s hs f hf
    · rw [pushNear, row_update_of_ne q.near hslot' hs hlevels] at hf
      exact hfresh l hl s hs f hf
  · exact hfresh

theorem fresh_pushAll {es : List Event} : ∀ {q : EventQueue}, Settled q → Fresh q →
    Fresh (es.foldl pushEntry q) := by
  induction es with
  | nil => exact fun _ hfresh => hfresh
  | cons e es ih =>
    exact fun h hfresh => ih (settled_pushEntry h e).1 (fresh_pushEntry h hfresh e)

theorem Fresh.not_overtaken (h : Settled q) (hfresh : Fresh q) : ¬ q.Overtaken := by
  rintro ⟨_, fine, hfine, coarse, hcoarse, hlt, _, hused, e, he, hearlier⟩
  obtain ⟨f, hf⟩ := List.exists_mem_of_ne_nil _ hused
  obtain ⟨slot, hslot, he⟩ := mem_levelEvents.mp he
  have hturn : _ < _ + wheelSlots := (h.at_level hfine hf).1.turn
  have hfar := hfresh coarse hcoarse slot hslot e he fine hlt
  have := time_lt_of_block_lt (Nat.lt_of_lt_of_le hturn hfar)
  have := hearlier f hf
  omega

theorem exact_restored {p q' : EventQueue} {now nextSeq : Nat} {es : List Event}
    (hrestore : p.restore now nextSeq es = .ok q') : q'.nextDeadline.1 = earliestOf es := by
  unfold restore at hrestore
  split at hrestore
  · cases hrestore
  · cases hrestore
    have hcleared : Settled (p.cleared now nextSeq) := settled_cleared rfl rfl rfl rfl rfl
    obtain ⟨hsettled, hperm⟩ := settled_pushAll hcleared es
    rw [contents_cleared (q := p.cleared now nextSeq) rfl rfl rfl, List.append_nil] at hperm
    have hbooks := sameBooks_foldl sameBooks_pushEntry es (p.cleared now nextSeq)
    have hfresh : Fresh (es.foldl pushEntry (p.cleared now nextSeq)) :=
      fresh_pushAll hcleared fun level _ slot _ e he => absurd he (by simp [cleared, row])
    rw [(exact_iff hsettled hbooks.cancelled).mpr (hfresh.not_overtaken hsettled)]
    exact earliestOf_perm hperm

end

/-- **When the next deadline is exact.** In every run without cancellations, the answer is
the earliest time over the events posted and not yet popped, and a queue restored from what
this one saves gives the same, exactly when no event is overtaken. -/
theorem nextDeadline_exact_iff (granuleShift : Nat) (calls : List QueueCall)
    (hcalls : ∀ c ∈ calls, c.isCancel = false) :
    let s := (Ledger.mk (new granuleShift) []).run calls
    (s.queue.nextDeadline.1 = earliestOf s.pending ∧
        ∀ p q' : EventQueue,
          p.restore s.queue.now s.queue.nextSeq s.queue.events = .ok q' →
          q'.nextDeadline.1 = s.queue.nextDeadline.1) ↔
      ¬ s.queue.Overtaken := by
  intro s
  have h : Kept s := kept_run hcalls (kept_new granuleShift)
  have hpending := earliestOf_perm h.pending
  have hsaved : s.queue.events.Perm s.queue.contents := by
    refine (List.perm_insertionSort _ _).trans (List.Perm.of_eq ?_)
    exact List.filter_eq_self.mpr fun e _ => by rw [h.uncancelled]; simp
  have hiff := exact_iff h.settled h.uncancelled
  constructor
  · rintro ⟨hexact, _⟩
    exact hiff.mp (hexact.trans hpending)
  · intro hclear
    have hexact := hiff.mpr hclear
    refine ⟨hexact.trans hpending.symm, fun p q' hrestore => ?_⟩
    rw [exact_restored hrestore, hexact]
    exact earliestOf_perm hsaved

/-- Posted in time order: the scan meets the earlier one first. -/
theorem nextDeadline_exact_sample :
    ((Ledger.mk (new 32) []).run [.schedule (272 * 2 ^ 32) 0 0]).queue.nextDeadline.1 =
      some (272 * 2 ^ 32) :=
  ((nextDeadline_exact_iff 32 [.schedule (272 * 2 ^ 32) 0 0] (by decide)).mpr
    (by decide +kernel)).1.trans (by decide +kernel)

/-- An event is posted 272 granules ahead, the queue advances by 200, and another is posted
at granule 300. The first one still stands at level 1 and the second is at level 0. -/
theorem deadline_overtaken :
    ((Ledger.mk (new 32) []).run [.schedule (272 * 2 ^ 32) 0 0, .advanceTo (200 * 2 ^ 32),
        .schedule (300 * 2 ^ 32) 0 1]).queue.nextDeadline.1 = some (300 * 2 ^ 32) ∧
      earliestOf ((Ledger.mk (new 32) []).run [.schedule (272 * 2 ^ 32) 0 0,
        .advanceTo (200 * 2 ^ 32), .schedule (300 * 2 ^ 32) 0 1]).pending =
          some (272 * 2 ^ 32) :=
  ⟨by decide +kernel, by decide +kernel⟩

end EventQueue

end Rsemu.Sched
