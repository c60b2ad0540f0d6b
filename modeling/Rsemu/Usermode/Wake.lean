import Rsemu.Usermode.Threads

/-!
# Skipping to a deadline

When nobody is runnable, virtual time skips to the earliest deadline and the thread that
sleeps until it runs; only when there is no deadline either is there nothing to run. That
is `Prompt`. A skip goes to the last tick at or before the deadline, so it wakes nobody
when the deadline is not the instant of a tick, and it wakes everybody whose deadline has
already passed, whoever comes first from the cursor. `OnTime` is what is left, and
`prompt_iff` says it is exact.
-/

namespace Rsemu.Usermode

open Clock Arbiter

namespace ThreadSet

variable {Core Exit : Type}

/-- The first tick, from the `n`th on, whose instant is at or after a moment. -/
structure FirstTick (rate : Rational) (n moment m : Nat) : Prop where
  from_le : n ≤ m
  within : Within rate m
  reached : moment ≤ tickInstant rate m
  first : ∀ u, n ≤ u → u < m → tickInstant rate u < moment

/-- What `run_next` promises about threads that are asleep. -/
structure Prompt (Exit : Type) (rate : Rational) (s : ThreadSet Core) : Prop where
  /-- Nothing ran exactly when nothing ever will. -/
  deadlock : ∀ run : Picked Core → Run Core Exit, (s.runNext run).2 = none
    ↔ (∀ id, ¬ s.Runnable id) ∧ ∀ id d, ¬ s.SleepsUntil id d
  /-- With only sleepers left, time moves to the earliest deadline and its thread runs. -/
  wakes : ∀ (run : Picked Core → Run Core Exit) (d : GlobalTime), (∀ id, ¬ s.Runnable id) →
    s.earliest = some d → FirstTick rate s.clock.ticks d.val s.pick.1.clock.ticks
      ∧ ∃ stop, (s.runNext run).2 = some stop ∧ s.SleepsUntil stop.thread d

/-- The earliest deadline is the instant of a tick, or has passed and is that of the sleeper
who, of all whose deadline has passed, comes first from the cursor. -/
def OnTime (rate : Rational) (s : ThreadSet Core) : Prop :=
  (∀ id, ¬ s.Runnable id) → ∀ d, s.earliest = some d →
    (s.clock.now < d.val → ∃ m, Within rate m ∧ tickInstant rate m = d.val)
    ∧ (d.val ≤ s.clock.now → ∃ id, s.SleepsUntil id d ∧
        ∀ id' d', s.SleepsUntil id' d' → d'.val ≤ s.clock.now →
          (position s.cursor id).val ≤ (position s.cursor id').val)

variable {s : ThreadSet Core} {rate : Rational} {n : Nat}

theorem runNext_none (run : Picked Core → Run Core Exit) :
    (s.runNext run).2 = none ↔ s.pick.2 = none := by
  have h := runNext_thread (s := s) run
  constructor
  · intro hn
    rw [hn] at h
    exact Option.map_eq_none_iff.mp h.symm
  · intro hn
    rw [hn] at h
    exact Option.map_eq_none_iff.mp h

theorem runNext_some (run : Picked Core → Run Core Exit) {picked : Picked Core}
    (hp : s.pick.2 = some picked) :
    ∃ stop, (s.runNext run).2 = some stop ∧ stop.thread = picked.thread := by
  have h := runNext_thread (s := s) run
  rw [hp] at h
  exact Option.map_eq_some_iff.mp h

theorem sleepsUntil_inj {id : ThreadId} {d d' : GlobalTime} (h : s.SleepsUntil id d)
    (h' : s.SleepsUntil id d') : d = d' := by
  unfold SleepsUntil at h h'
  rw [h] at h'
  simpa using h'

theorem Clocked.skipTo_instant (h : s.Clocked rate n) {d : GlobalTime} {m : Nat}
    (hlt : s.clock.now < d.val) (hm : Within rate m) (he : tickInstant rate m = d.val) :
    (s.skipTo d).Clocked rate m ∧ FirstTick rate n d.val m := by
  rw [h.now_eq] at hlt
  have hnm : n ≤ m := (tickInstant_le_iff h.rate_pos).mp (by omega)
  obtain ⟨k, hk, _, _, hexact⟩ := h.skipTo d
  obtain rfl := hexact m hnm hm he
  refine ⟨hk, hnm, hm, Nat.le_of_eq he.symm, fun u _ hu => ?_⟩
  rw [← he]
  exact tickInstant_lt h.rate_pos hu

theorem Clocked.skipTo_past (h : s.Clocked rate n) {d : GlobalTime} (hle : d.val ≤ s.clock.now) :
    (s.skipTo d).Clocked rate n ∧ FirstTick rate n d.val n := by
  rw [h.now_eq] at hle
  obtain ⟨k, hk, hstay, _⟩ := h.skipTo d
  obtain rfl := hstay hle
  exact ⟨hk, Nat.le_refl _, h.within, hle, fun u hu hlt => absurd hlt (Nat.not_lt.mpr hu)⟩

theorem OnTime.wakes (h : s.Clocked rate n) (hon : s.OnTime rate) {d : GlobalTime}
    (hr : ∀ id, ¬ s.Runnable id) (hd : s.earliest = some d) :
    ∃ m, (s.skipTo d).Clocked rate m ∧ FirstTick rate n d.val m ∧
      (∃ id, (s.skipTo d).Runnable id) ∧
      ∀ picked, (s.skipTo d).Serving picked → s.SleepsUntil picked.thread d := by
  obtain ⟨hexact, hpast⟩ := hon hr d hd
  obtain ⟨⟨id, hid⟩, hfirst⟩ := earliest_eq_some hd
  rcases Nat.lt_or_ge s.clock.now d.val with hlt | hle
  · -- time gets to the deadline, and nobody else's is at or before it
    obtain ⟨m, hm, he⟩ := hexact hlt
    obtain ⟨hk, hft⟩ := h.skipTo_instant hlt hm he
    have hnow : (s.skipTo d).clock.now = d.val := hk.now_eq.trans he
    refine ⟨m, hk, hft, ⟨id, skipTo_runnable.mpr (Or.inr ⟨d, hid, ?_⟩)⟩, fun picked hp => ?_⟩
    · rw [hnow]
    · rcases skipTo_runnable.mp hp.runnable with hrun | ⟨d', hd', hle'⟩
      · exact absurd hrun (hr _)
      · rw [hnow] at hle'
        have heq : d = d' := Fin.ext (Nat.le_antisymm (hfirst _ d' hd') hle')
        rw [heq]
        exact hd'
  · -- time stays, everybody whose deadline has passed wakes, and the first is served
    obtain ⟨hk, hft⟩ := h.skipTo_past hle
    have hnow : (s.skipTo d).clock.now = s.clock.now := hk.now_eq.trans h.now_eq.symm
    obtain ⟨id₀, hid₀, hahead⟩ := hpast hle
    have hwake : ∀ id' d', s.SleepsUntil id' d' → d'.val ≤ s.clock.now →
        (s.skipTo d).Runnable id' := fun id' d' hs hle' =>
      skipTo_runnable.mpr (Or.inr ⟨d', hs, by rw [hnow]; exact hle'⟩)
    refine ⟨n, hk, hft, ⟨id, hwake id d hid hle⟩, fun picked hp => ?_⟩
    rcases skipTo_runnable.mp hp.runnable with hrun | ⟨d', hd', hle'⟩
    · exact absurd hrun (hr _)
    · rw [hnow] at hle'
      have h1 := hahead _ d' hd' hle'
      have h2 := hp.first id₀ (hwake id₀ d hid₀ hle)
      have heq : picked.thread = id₀ := position_inj (Fin.ext (Nat.le_antisymm h2 h1))
      rw [heq]
      exact hid₀

theorem OnTime.prompt (h : s.Clocked rate n) (hon : s.OnTime rate) : s.Prompt Exit rate := by
  obtain ⟨s', r, hpick⟩ : ∃ s' r, s.pick = (s', r) := ⟨_, _, rfl⟩
  have hcases := s.pick_cases
  rw [hpick] at hcases
  constructor
  · intro run
    rw [runNext_none, hpick]
    cases hcases with
    | served hp => exact ⟨fun hn => absurd hn (by simp), fun hn => absurd hp.runnable (hn.1 _)⟩
    | deadlock hr hs => exact ⟨fun _ => ⟨hr, hs⟩, fun _ => rfl⟩
    | woken hr hd hp =>
      obtain ⟨⟨id, hid⟩, _⟩ := earliest_eq_some hd
      exact ⟨fun hn => absurd hn (by simp), fun hn => absurd hid (hn.2 _ _)⟩
    | overslept hr hd hno =>
      obtain ⟨_, _, _, ⟨id, hid⟩, _⟩ := hon.wakes h hr hd
      exact absurd hid (hno id)
  · intro run d hr hd
    obtain ⟨m, hk, hft, ⟨id, hid⟩, hserve⟩ := hon.wakes h hr hd
    have hsome := fun {picked : Picked Core} (hp : r = some picked) =>
      runNext_some (s := s) run (by rw [hpick]; exact hp)
    rw [h.ticks_eq, hpick]
    cases hcases with
    | served hp => exact absurd hp.runnable (hr _)
    | deadlock _ hs =>
      obtain ⟨⟨id, hid⟩, _⟩ := earliest_eq_some hd
      exact absurd hid (hs id d)
    | woken _ hd' hp =>
      obtain rfl := Option.some.inj (hd.symm.trans hd')
      obtain ⟨stop, hstop, hthread⟩ := hsome rfl
      refine ⟨?_, stop, hstop, by rw [hthread]; exact hserve _ hp⟩
      rw [show ({ s.skipTo d with cursor := _ } : ThreadSet Core).clock.ticks = m from hk.ticks_eq]
      exact hft
    | overslept _ hd' hno =>
      obtain rfl := Option.some.inj (hd.symm.trans hd')
      exact absurd hid (hno id)

theorem Prompt.onTime (h : s.Clocked rate n) (hp : s.Prompt Exit rate) : s.OnTime rate := by
  intro hr d hd
  have run : Picked Core → Run Core Exit := fun _ => ⟨0, none, []⟩
  obtain ⟨_, stop, hstop, hsleeps⟩ := hp.wakes run d hr hd
  -- whoever ran is one of those the skip woke, and the first of them
  obtain ⟨s', r, hpick⟩ : ∃ s' r, s.pick = (s', r) := ⟨_, _, rfl⟩
  have hcases := s.pick_cases
  have hthread := runNext_thread (s := s) run
  rw [hpick] at hcases hthread
  rw [hstop] at hthread
  cases hcases with
  | served hs => exact absurd hs.runnable (hr _)
  | deadlock _ _ => cases hthread
  | overslept _ _ _ => cases hthread
  | @woken _ picked _ hd' hs =>
    obtain rfl := Option.some.inj (hd.symm.trans hd')
    have hsame : stop.thread = picked.thread := Option.some.inj hthread
    rw [hsame] at hsleeps
    constructor
    · -- the sleeper woke, so time got to the deadline and not past it
      intro hlt
      rcases skipTo_runnable.mp hs.runnable with hrun | ⟨d', hd'', hle⟩
      · exact absurd hrun (hr _)
      · obtain rfl := sleepsUntil_inj hsleeps hd''
        obtain ⟨m, hk, _, hbound, _⟩ := h.skipTo d
        rw [h.now_eq] at hlt
        rw [hk.now_eq] at hle
        exact ⟨m, hk.within, Nat.le_antisymm (hbound hlt) hle⟩
    · intro hle
      obtain ⟨hk, _⟩ := h.skipTo_past hle
      have hnow : (s.skipTo d).clock.now = s.clock.now := hk.now_eq.trans h.now_eq.symm
      exact ⟨_, hsleeps, fun id' d' hs' hle' => hs.first id'
        (skipTo_runnable.mpr (Or.inr ⟨d', hs', by rw [hnow]; exact hle'⟩))⟩

end ThreadSet

open ThreadSet

/--
**A deadlock is reported only when there is one, exactly when the deadlines are on time.**
For any clock rate, in every state a consumer can get to, whatever the threads do with
their quanta.
-/
theorem prompt_iff {Core Exit : Type} {rate : Rational} {s : ThreadSet Core}
    (h : Reaches Exit rate s) : s.Prompt Exit rate ↔ s.OnTime rate := by
  obtain ⟨n, hn⟩ := h.clocked
  exact ⟨fun hp => hp.onTime hn, fun hon => hon.prompt hn⟩

def gigahertz : Rational := Rational.integer 1000000000

theorem reaches_new (Core : Type) :
    Reaches Unit gigahertz (ThreadSet.new (standing gigahertz 0) : ThreadSet Core) :=
  .new (by rw [withRate_eq]; rfl)

def seventh : GlobalTime := ⟨tickInstant gigahertz 7, by decide⟩

def resting : ThreadSet Unit :=
  ((ThreadSet.new (standing gigahertz 0)).call (.insert ())).call (.block 1 (some seventh))

theorem prompt_resting : resting.Prompt Unit gigahertz := by
  refine (prompt_iff (((reaches_new Unit).call _).call _)).mpr fun _ d hd => ?_
  have hearliest : resting.earliest = some seventh := by decide
  obtain rfl := Option.some.inj (hd.symm.trans hearliest)
  have hlate : ¬ seventh.val ≤ resting.clock.now := by decide
  have hexact : tickInstant gigahertz 7 = seventh.val := by decide
  exact ⟨fun _ => ⟨7, by decide, hexact⟩, fun hle => absurd hle hlate⟩

def napping : ThreadSet Unit :=
  ((ThreadSet.new (standing gigahertz 0)).call (.insert ())).call (.block 1 (some 1))

/-- A thread sleeps until a moment the clock does reach, and the set reports that nothing
will ever run. -/
theorem napping_overslept : Reaches Unit gigahertz napping ∧ napping.SleepsUntil 1 1
    ∧ Within gigahertz 1 ∧ 1 < tickInstant gigahertz 1
    ∧ (napping.runNext fun _ => (⟨0, none, []⟩ : Run Unit Unit)).2 = none
    ∧ ¬ napping.Prompt Unit gigahertz := by
  have hsleeps : napping.SleepsUntil 1 1 := by
    unfold SleepsUntil
    decide
  have hnone : (napping.runNext fun _ => (⟨0, none, []⟩ : Run Unit Unit)).2 = none := by
    decide
  refine ⟨((reaches_new Unit).call _).call _, hsleeps, by decide, by decide, hnone, fun hp => ?_⟩
  exact ((hp.deadlock _).mp hnone).2 1 1 hsleeps

end Rsemu.Usermode
