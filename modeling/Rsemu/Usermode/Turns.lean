import Mathlib.Data.List.Chain
import Rsemu.Usermode.Threads

/-!
# Whose turn it is

A thread is due when it is runnable, or asleep with a deadline the clock has reached. A
run of the consumer's loop is a list of turns, and `Fair` is what the scheduler owes
them: no call passes over a thread that is due, so between two turns of one thread every
other that is due all along has one, and nobody waits longer than the circle is round.

A call looks at sleepers only when nobody is runnable, so it passes over a sleeper whose
deadline has passed when a runnable thread stands behind it in the circle and none before
it. `NoneAhead` is the absence of that, and `fair_iff` says it is exact: with it, the run
is the round robin of `Base.RoundRobin`.
-/

namespace Rsemu.Usermode

open Clock Arbiter

/-- A call or a turn. -/
inductive Event (Core Exit : Type) where
  | call (c : Call Core)
  | turn (run : Picked Core → Run Core Exit)

/-- One call of `run_next`: the state it was made in, and who ran. -/
structure Turned (Core : Type) where
  state : ThreadSet Core
  ran : Option ThreadId

namespace ThreadSet

variable {Core Exit : Type}

def turns (s : ThreadSet Core) : List (Event Core Exit) → List (Turned Core)
  | [] => []
  | .call c :: es => (s.call c).turns es
  | .turn run :: es =>
    ⟨s, (s.runNext run).2.map (·.thread)⟩ :: (s.runNext run).1.turns es

/-- The thread is runnable, or its deadline has come. -/
def Due (s : ThreadSet Core) (id : ThreadId) : Prop :=
  s.Runnable id ∨ ∃ d, s.SleepsUntil id d ∧ d.val ≤ s.clock.now

/-- If anybody is runnable, somebody runnable stands before each sleeper whose deadline
has passed. -/
def NoneAhead (s : ThreadSet Core) : Prop :=
  ∀ id d r, s.SleepsUntil id d → d.val ≤ s.clock.now → s.Runnable r →
    ∃ r', s.Runnable r' ∧ (position s.cursor r').val < (position s.cursor id).val

theorem noneAhead_of_first {s : ThreadSet Core} {r : ThreadId × Entry Core}
    (hr : r ∈ s.threads.entries) (hrun : r.2.state.isRunnable = true)
    (h : ∀ e ∈ s.threads.entries, e.2.state.isRunnable = false →
      (position s.cursor r.1).val < (position s.cursor e.1).val) : s.NoneAhead := by
  intro id d _ hs _ _
  obtain ⟨e, he, hstate⟩ := stateOf_eq.mp hs
  refine ⟨r.1, stateOf_eq.mpr ⟨r.2, hr, ?_⟩, h (id, e) he (by rw [hstate]; rfl)⟩
  cases hrs : r.2.state with
  | runnable => rfl
  | blocked _ => rw [hrs] at hrun; cases hrun

end ThreadSet

/-- A call that passes nobody over: of the threads that are due, the one that ran is the
first from the cursor. -/
def Turned.PassesNone {Core : Type} (t : Turned Core) : Prop :=
  ∀ id, t.state.Due id → ∃ who, t.ran = some who ∧ t.state.Due who ∧
    (position t.state.cursor who).val ≤ (position t.state.cursor id).val

/-- What the scheduler owes its threads. -/
structure Fair {Core : Type} (turns : List (Turned Core)) : Prop where
  /-- No call passes over a thread that is due. -/
  eligible : ∀ t ∈ turns, t.PassesNone
  /-- Between two turns of one thread, every other that is due all along has one. -/
  between : ∀ before first mid last after a b, turns = before ++ first :: (mid ++ last :: after) →
    first.ran = some a → last.ran = some a → b ≠ a → (∀ t ∈ mid ++ [last], t.state.Due b) →
    ∃ t ∈ mid, t.ran = some b
  /-- A thread that is due is not kept waiting: those before it in the circle go first. -/
  wait : ∀ before first mid after b, turns = before ++ first :: mid ++ after →
    (∀ t ∈ first :: mid, t.state.Due b ∧ t.ran ≠ some b) →
    (first :: mid).length ≤ (position first.state.cursor b).val

namespace ThreadSet

variable {Core Exit : Type} {s : ThreadSet Core} {rate : Rational} {n : Nat}

theorem Clocked.skipTo_due (h : s.Clocked rate n) {d : GlobalTime} (hd : s.earliest = some d)
    {id : ThreadId} (hr : ∀ id, ¬ s.Runnable id) (hdue : s.Due id) :
    ∀ id', (s.skipTo d).Runnable id' ↔ s.Due id' := by
  have hpast : d.val ≤ s.clock.now := by
    rcases hdue with hrun | ⟨d', hs, hle⟩
    · exact absurd hrun (hr id)
    · exact Nat.le_trans ((earliest_eq_some hd).2 id d' hs) hle
  obtain ⟨k, hk, hstay, _⟩ := h.skipTo d
  obtain rfl := hstay (h.now_eq ▸ hpast)
  have hnow : (s.skipTo d).clock.now = s.clock.now := hk.now_eq.trans h.now_eq.symm
  intro id'
  rw [skipTo_runnable, hnow]
  exact Iff.rfl

theorem Clocked.passesNone_iff (h : s.Clocked rate n) :
    (Turned.mk s (s.pick.2.map (·.thread))).PassesNone ↔ s.NoneAhead := by
  have hcases := s.pick_cases
  obtain ⟨s', r, hpick⟩ : ∃ s' r, s.pick = (s', r) := ⟨_, _, rfl⟩
  rw [hpick] at hcases ⊢
  cases hcases with
  | @served picked hp =>
    constructor
    · intro hall id d r hs hle _
      obtain ⟨who, hwho, _, hpos⟩ := hall id (Or.inr ⟨d, hs, hle⟩)
      obtain rfl := Option.some.inj hwho
      refine ⟨picked.thread, hp.runnable, Nat.lt_of_le_of_ne hpos fun he => ?_⟩
      -- one thread is not both runnable and asleep
      have hsame := position_inj (Fin.ext he)
      have hrun := hp.runnable
      unfold Runnable at hrun
      rw [hsame, hs] at hrun
      cases hrun
    · intro hahead id hdue
      refine ⟨picked.thread, rfl, Or.inl hp.runnable, ?_⟩
      rcases hdue with hrun | ⟨d, hs, hle⟩
      · exact hp.first id hrun
      · obtain ⟨r', hr', hlt⟩ := hahead id d picked.thread hs hle hp.runnable
        exact Nat.le_of_lt (Nat.lt_of_le_of_lt (hp.first r' hr') hlt)
  | deadlock hr hs =>
    refine ⟨fun _ id d r _ _ hrun => absurd hrun (hr r), fun _ id hdue => ?_⟩
    rcases hdue with hrun | ⟨d, hsleep, _⟩
    · exact absurd hrun (hr id)
    · exact absurd hsleep (hs id d)
  | @woken d picked hr hd hp =>
    refine ⟨fun _ id d r _ _ hrun => absurd hrun (hr r), fun _ id hdue => ?_⟩
    have hiff := h.skipTo_due hd hr hdue
    exact ⟨picked.thread, rfl, (hiff _).mp hp.runnable, hp.first id ((hiff id).mpr hdue)⟩
  | overslept hr hd hno =>
    refine ⟨fun _ id d r _ _ hrun => absurd hrun (hr r), fun _ id hdue => ?_⟩
    exact absurd ((h.skipTo_due hd hr hdue id).mpr hdue) (hno id)

theorem call_cursor (c : Call Core) : (s.call c).cursor = s.cursor := by
  cases c <;> rfl

theorem calls_cursor (cs : List (Call Core)) : (cs.foldl call s).cursor = s.cursor := by
  induction cs generalizing s with
  | nil => rfl
  | cons c cs ih => rw [List.foldl_cons, ih, call_cursor]

theorem runNext_cursor (run : Picked Core → Run Core Exit) {who : ThreadId}
    (h : (s.runNext run).2.map (·.thread) = some who) : (s.runNext run).1.cursor = who + 1 := by
  have hcases := s.pick_cases
  rw [runNext_thread] at h
  obtain ⟨s', r, hpick⟩ : ∃ s' r, s.pick = (s', r) := ⟨_, _, rfl⟩
  unfold runNext
  rw [hpick] at hcases h ⊢
  cases hcases with
  | served hp =>
    obtain rfl := Option.some.inj h
    exact calls_cursor _
  | deadlock _ _ => cases h
  | woken _ _ hp =>
    obtain rfl := Option.some.inj h
    exact calls_cursor _
  | overslept _ _ _ => cases h

/-- The second turn searches from after the thread that the first ran. -/
def Follows (t u : Turned Core) : Prop := ∀ who, t.ran = some who → u.state.cursor = who + 1

theorem turns_head (es : List (Event Core Exit)) :
    ∀ t ∈ (s.turns es).head?, t.state.cursor = s.cursor := by
  induction es generalizing s with
  | nil => exact fun t ht => absurd ht (by simp [turns])
  | cons e es ih =>
    cases e with
    | call c =>
      intro t ht
      rw [ih t ht, call_cursor]
    | turn run =>
      intro t ht
      obtain rfl := Option.some.inj ht
      rfl

theorem turns_chain (es : List (Event Core Exit)) : (s.turns es).IsChain Follows := by
  induction es generalizing s with
  | nil => exact .nil
  | cons e es ih =>
    cases e with
    | call c => exact ih
    | turn run =>
      refine List.isChain_cons.mpr ⟨fun t ht who hwho => ?_, ih⟩
      rw [turns_head es t ht, runNext_cursor run hwho]

theorem turns_clocked (es : List (Event Core Exit)) (h : s.Clocked rate n) :
    ∀ t ∈ s.turns es, (∃ m, t.state.Clocked rate m) ∧ t.ran = t.state.pick.2.map (·.thread) := by
  induction es generalizing s n with
  | nil => exact fun t ht => absurd ht (by simp [turns])
  | cons e es ih =>
    cases e with
    | call c => exact ih (h.of_clock (call_clock c))
    | turn run =>
      intro t ht
      rcases List.mem_cons.mp ht with rfl | ht
      · exact ⟨⟨n, h⟩, runNext_thread run⟩
      · obtain ⟨m, hm⟩ := runNext_clocked run h
        exact ih hm t ht

def asTurn (t : Turned Core) : Turn (2 ^ 32) := ⟨t.state.Due, t.ran.getD 0⟩

theorem asTurn_served {t : Turned Core} {b : ThreadId} (h : t.PassesNone) (hb : t.state.Due b) :
    t.ran = some (asTurn t).served ∧ (asTurn t).InOrder t.state.cursor := by
  obtain ⟨who, hwho, _⟩ := h b hb
  have hserved : (asTurn t).served = who := by
    unfold asTurn
    rw [hwho]
    rfl
  refine ⟨by rw [hserved, hwho], fun id hid => ?_⟩
  obtain ⟨who', hwho', _, hpos⟩ := h id hid
  obtain rfl := Option.some.inj (hwho.symm.trans hwho')
  rw [hserved]
  exact hpos

theorem serves_turns {b base : ThreadId} {ts : List (Turned Core)}
    (hbase : ∀ t ∈ ts.head?, t.state.cursor = base) (hchain : ts.IsChain Follows)
    (hts : ∀ t ∈ ts, t.PassesNone ∧ t.state.Due b) : Serves base (ts.map asTurn) := by
  induction ts generalizing base with
  | nil => trivial
  | cons t ts ih =>
    obtain ⟨hpass, hdue⟩ := hts t (List.mem_cons_self ..)
    obtain ⟨hran, horder⟩ := asTurn_served hpass hdue
    obtain ⟨hnext, hrest⟩ := List.isChain_cons.mp hchain
    rw [hbase t rfl] at horder
    exact ⟨horder, ih (fun u hu => hnext u hu _ hran) hrest
      fun u hu => hts u (List.mem_cons_of_mem _ hu)⟩

theorem fair_turns {ts : List (Turned Core)} (hchain : ts.IsChain Follows)
    (hpass : ∀ t ∈ ts, t.PassesNone) : Fair ts where
  eligible := hpass
  between := by
    intro before first mid last after a b hts hfirst hlast hne hdue
    have hwhole : before ++ first :: (mid ++ last :: after)
        = before ++ (first :: (mid ++ [last])) ++ after := by simp
    rw [hts, hwhole] at hchain hpass
    have hseg := hchain.left_of_append.right_of_append
    obtain ⟨hnext, hrest⟩ := List.isChain_cons.mp hseg
    have hall : ∀ t ∈ mid ++ [last], t.PassesNone ∧ t.state.Due b := fun t ht =>
      ⟨hpass t (List.mem_append_left _ (List.mem_append_right _ (List.mem_cons_of_mem _ ht))),
        hdue t ht⟩
    have hserves : Serves (a + 1) ((mid ++ [last]).map asTurn) :=
      serves_turns (fun t ht => hnext t ht a hfirst) hrest hall
    rw [List.map_append] at hserves
    have hserved := fun {t : Turned Core} (ht : t ∈ mid ++ [last]) =>
      (asTurn_served (hall t ht).1 (hall t ht).2).1
    have hlastServed : (asTurn last).served = a := by
      have := hserved (List.mem_append_right _ (List.mem_singleton_self last))
      rw [hlast] at this
      exact (Option.some.inj this).symm
    obtain ⟨t', ht', hb⟩ := hserves.between hlastServed hne fun t' ht' => by
      rw [← List.map_singleton, ← List.map_append] at ht'
      obtain ⟨t, ht, rfl⟩ := List.mem_map.mp ht'
      exact hdue t ht
    obtain ⟨t, ht, rfl⟩ := List.mem_map.mp ht'
    exact ⟨t, ht, by rw [hserved (List.mem_append_left _ ht), hb]⟩
  wait := by
    intro before first mid after b hts hall
    rw [hts] at hchain hpass
    have hpass' : ∀ t ∈ first :: mid, t.PassesNone ∧ t.state.Due b := fun t ht =>
      ⟨hpass t (List.mem_append_left _ (List.mem_append_right _ ht)), (hall t ht).1⟩
    have hserves : Serves first.state.cursor ((first :: mid).map asTurn) := serves_turns
      (fun t ht => by rw [Option.some.inj ht]) hchain.left_of_append.right_of_append hpass'
    rw [← List.length_map asTurn]
    refine hserves.wait_le fun t' ht' => ?_
    obtain ⟨t, ht, rfl⟩ := List.mem_map.mp ht'
    refine ⟨(hall t ht).1, fun he => (hall t ht).2 ?_⟩
    rw [(asTurn_served (hpass' t ht).1 (hpass' t ht).2).1, he]

end ThreadSet

open ThreadSet

/--
**Nobody who is due is passed over, exactly when no sleeper who is due stands ahead.** In
any run of the consumer's loop from any state it can get to, whatever the threads do with
their quanta and whatever is asked of the set in between.
-/
theorem fair_iff {Core Exit : Type} {rate : Rational} {s : ThreadSet Core}
    (h : Reaches Exit rate s) (es : List (Event Core Exit)) :
    Fair (s.turns es) ↔ ∀ t ∈ s.turns es, t.state.NoneAhead := by
  obtain ⟨n, hn⟩ := h.clocked
  have hcalls := turns_clocked es hn
  have hcall : ∀ t ∈ s.turns es, (t.PassesNone ↔ t.state.NoneAhead) := by
    intro t ht
    obtain ⟨⟨m, hm⟩, hran⟩ := hcalls t ht
    rw [← hm.passesNone_iff, ← hran]
  constructor
  · intro hfair t ht
    exact (hcall t ht).mp (hfair.eligible t ht)
  · intro hnone
    exact fair_turns (turns_chain es) fun t ht => (hcall t ht).mpr (hnone t ht)

def spinning : Picked Unit → Run Unit Unit := fun _ => ⟨10000, none, []⟩

def workers : ThreadSet Unit :=
  ((ThreadSet.new (standing (Rational.integer 1000000000) 0)).call (.insert ())).call (.insert ())

theorem workers_reached : Reaches Unit (Rational.integer 1000000000) workers :=
  ((Reaches.new (by rw [withRate_eq]; rfl)).call _).call _

def soon : GlobalTime := ⟨tickInstant (Rational.integer 1000000000) 1000, by decide⟩

/-- Two that spin, and one that sleeps. -/
def crew : ThreadSet Unit := (workers.call (.insert ())).call (.block 3 (some soon))

/-- The second quantum begins with the sleeper due, behind one that spins; it is woken, and has
the third. -/
theorem fair_workers :
    (crew.runNext spinning).1.Due 3 ∧
      Fair (crew.turns [.turn spinning, .turn spinning, .call (.wake 3), .turn spinning]) := by
  refine ⟨.inr ⟨soon, ?_, ?_⟩, (fair_iff ((workers_reached.call _).call _) _).mpr ?_⟩
  · unfold SleepsUntil
    decide
  · decide
  · have hfirst : ∀ t ∈ crew.turns [.turn spinning, .turn spinning, .call (.wake 3), .turn spinning],
        ∃ r ∈ t.state.threads.entries, r.2.state.isRunnable = true ∧
          ∀ e ∈ t.state.threads.entries, e.2.state.isRunnable = false →
            (position t.state.cursor r.1).val < (position t.state.cursor e.1).val := by decide
    intro t ht
    obtain ⟨r, hr, hrun, hbefore⟩ := hfirst t ht
    exact noneAhead_of_first hr hrun hbefore

def sharing : ThreadSet Unit := workers.call (.block 1 (some soon))

/-- Ten microseconds later the sleeper is due, it stands first from the cursor, and the other
runs again, and again. -/
theorem sharing_passes :
    Reaches Unit (Rational.integer 1000000000) sharing
      ∧ (sharing.turns [.turn spinning, .turn spinning, .turn spinning]).map Turned.ran
        = [some 2, some 2, some 2]
      ∧ ¬ Fair (sharing.turns [.turn spinning, .turn spinning, .turn spinning]) := by
  have hran : (sharing.turns [.turn spinning, .turn spinning, .turn spinning]).map Turned.ran
      = [some 2, some 2, some 2] := by decide
  refine ⟨workers_reached.call _, hran, fun hfair => ?_⟩
  obtain ⟨s₁, hs₁⟩ : ∃ s₁, s₁ = (sharing.runNext spinning).1 := ⟨_, rfl⟩
  obtain ⟨s₂, hs₂⟩ : ∃ s₂, s₂ = (s₁.runNext spinning).1 := ⟨_, rfl⟩
  have hturns : sharing.turns [.turn spinning, .turn spinning, .turn spinning]
      = [⟨sharing, (sharing.runNext spinning).2.map (·.thread)⟩]
        ++ ⟨s₁, (s₁.runNext spinning).2.map (·.thread)⟩
        :: ([] ++ ⟨s₂, (s₂.runNext spinning).2.map (·.thread)⟩ :: []) := by
    rw [hs₂, hs₁]
    rfl
  -- between its second turn and its third the sleeper is due all along
  have hsecond : (s₁.runNext spinning).2.map (·.thread) = some 2 := by
    rw [hs₁]
    decide
  have hthird : (s₂.runNext spinning).2.map (·.thread) = some 2 := by
    rw [hs₂, hs₁]
    decide
  have hdue : s₂.Due 1 := by
    refine Or.inr ⟨soon, ?_, ?_⟩
    · unfold SleepsUntil
      rw [hs₂, hs₁]
      decide
    · rw [hs₂, hs₁]
      decide
  obtain ⟨t, ht, _⟩ := hfair.between _ _ _ _ _ 2 1 hturns hsecond hthird (by decide)
    fun t ht => by
      rw [List.mem_singleton.mp ht]
      exact hdue
  cases ht

end Rsemu.Usermode
