import Rsemu.Sched.Queue

/-!
# The wheel holds what it was given

An event stands at a level when its block there is ahead of the queue's by less than a turn,
in the slot of that block. While the queue advances that is true of each level for a position
of its own: the levels already swept are at the new position, the others still at the old one.
`Standing` carries it from one sweep to the next, and at the end every level is at the new
position again (`standing_advanceTo`).
-/

namespace Rsemu.Sched

open Blocks

instance : IsTrans Event Event.le where
  trans a b c hab hbc := by
    unfold Event.le at *
    omega

instance : Std.Total Event.le where
  total a b := by
    unfold Event.le
    omega

namespace EventQueue

def row (near : Nat → List Event) (level : Nat) : Nat → List Event :=
  fun slot => near (level * wheelSlots + slot)

theorem row_update_self (near : Nat → List Event) (level slot : Nat) (bucket : List Event) :
    row (Function.update near (level * wheelSlots + slot) bucket) level =
      Function.update (row near level) slot bucket := by
  funext s
  unfold row
  by_cases hs : s = slot
  · rw [hs, Function.update_self, Function.update_self]
  · rw [Function.update_of_ne (by omega), Function.update_of_ne hs]

theorem row_update_of_ne (near : Nat → List Event) {level level' slot s : Nat}
    (hslot : slot < wheelSlots) (hs : s < wheelSlots) (h : level' ≠ level) (bucket : List Event) :
    row (Function.update near (level * wheelSlots + slot) bucket) level' s = row near level' s := by
  refine Function.update_of_ne ?_ _ _
  simp only [show wheelSlots = 256 from rfl] at *
  omega

theorem index_lt {level slot : Nat} (hlevel : level < wheelLevels) (hslot : slot < wheelSlots) :
    level * wheelSlots + slot < wheelLevels * wheelSlots := by
  simp only [show wheelSlots = 256 from rfl, show wheelLevels = 4 from rfl] at *
  omega

theorem index_split {i : Nat} (h : i < wheelLevels * wheelSlots) :
    ∃ level slot, level < wheelLevels ∧ slot < wheelSlots ∧ i = level * wheelSlots + slot := by
  refine ⟨i / wheelSlots, i % wheelSlots, ?_, ?_, ?_⟩
  all_goals
    simp only [show wheelSlots = 256 from rfl, show wheelLevels = 4 from rfl] at *
    omega

/-- **Where everything in a queue at granule `n` stands.** `pos level` is the position a
level was last swept for, and `passed level` how many blocks after it have been emptied
since; `reach` is the position the far heap was last looked at from. -/
structure Standing (shift n : Nat) (pos passed : Nat → Nat) (reach : Nat) (q : EventQueue) :
    Prop where
  scale : q.granuleShift = shift
  granule : q.nowGranule = n
  now : q.now >>> shift = n
  dueOrdered : q.due.Pairwise Event.le
  farOrdered : q.far.Pairwise Event.le
  due : ∀ e ∈ q.due, e.time >>> shift ≤ n
  near : ∀ level < wheelLevels, ∀ slot < wheelSlots, ∀ e ∈ row q.near level slot,
    Ahead wheelSlotBits (pos level) level (e.time >>> shift) ∧
      block wheelSlotBits level (e.time >>> shift) % wheelSlots = slot ∧
      block wheelSlotBits level (pos level) + passed level <
        block wheelSlotBits level (e.time >>> shift)
  far : ∀ e ∈ q.far, block wheelSlotBits (wheelLevels - 1) reach + wheelSlots ≤
    block wheelSlotBits (wheelLevels - 1) (e.time >>> shift)
  lens : ∀ level < wheelLevels, q.levelLen level = tally (row q.near level) wheelSlots

/-- Every event is where the wheel at rest keeps it. -/
def Settled (q : EventQueue) : Prop :=
  Standing q.granuleShift q.nowGranule (fun _ => q.nowGranule) (fun _ => 0) q.nowGranule q

theorem settled_cleared {q : EventQueue} (hnow : q.nowGranule = q.now >>> q.granuleShift)
    (hnear : q.near = fun _ => []) (hlens : q.levelLen = fun _ => 0) (hfar : q.far = [])
    (hdue : q.due = []) : Settled q := by
  refine ⟨rfl, rfl, hnow.symm, ?_, ?_, ?_, ?_, ?_, ?_⟩
  · rw [hdue]
    exact List.Pairwise.nil
  · rw [hfar]
    exact List.Pairwise.nil
  · exact fun e he => absurd he (by simp [hdue])
  · exact fun level _ slot _ e he => absurd he (by simp [hnear, row])
  · exact fun e he => absurd he (by simp [hfar])
  · intro level _
    have hrow : row q.near level = fun _ => [] := by rw [hnear]; rfl
    rw [hlens, tally, hrow, pool_nil]
    rfl

theorem contents_cleared {q : EventQueue} (hnear : q.near = fun _ => []) (hfar : q.far = [])
    (hdue : q.due = []) : q.contents = [] := by
  rw [contents, nearEvents, hnear, hfar, hdue, pool_nil]
  rfl

theorem settled_new (granuleShift : Nat) : Settled (new granuleShift) :=
  settled_cleared (Nat.zero_shiftRight _).symm rfl rfl rfl rfl

section

variable {shift n reach : Nat} {pos passed : Nat → Nat} {q : EventQueue} {e : Event}

/-- What a placement says of a granule, relative to a position that is not past it. -/
structure PlacedAt (n g levels : Nat) (p : Placement) : Prop where
  due : p = .due → g = n
  near : ∀ {level slot : Nat}, p = .near level slot → level < levels ∧
    Ahead wheelSlotBits n level g ∧ slot = block wheelSlotBits level g % wheelSlots ∧
    ∀ l < level, block wheelSlotBits l n + wheelSlots ≤ block wheelSlotBits l g
  far : p = .far → ∀ l < levels, block wheelSlotBits l n + wheelSlots ≤ block wheelSlotBits l g

theorem placementAt_spec {n g : Nat} (hle : n ≤ g) {count : Nat} : ∀ {from_ : Nat},
    (∀ l < from_, block wheelSlotBits l n + wheelSlots ≤ block wheelSlotBits l g) →
    PlacedAt n g (from_ + count) (placementAt n g (List.range' from_ count)) := by
  induction count with
  | zero => exact fun hfrom => ⟨fun h => absurd h (by simp [placementAt]),
      fun h => absurd h (by simp [placementAt]), fun _ => hfrom⟩
  | succ count ih =>
    intro from_ hfrom
    rw [List.range'_succ, placementAt]
    by_cases hzero : block wheelSlotBits from_ g - block wheelSlotBits from_ n = 0
    · rw [if_pos hzero]
      refine ⟨fun _ => ?_, nofun, nofun⟩
      -- a level below this one would have been less than a turn away
      cases from_ with
      | zero =>
        rw [block_zero, block_zero] at hzero
        omega
      | succ l =>
        have hturn := block_succ_lt (hfrom l (Nat.lt_succ_self l))
        omega
    · rw [if_neg hzero]
      by_cases hturn : block wheelSlotBits from_ g - block wheelSlotBits from_ n < wheelSlots
      · rw [if_pos hturn]
        refine ⟨nofun, fun h => ?_, nofun⟩
        cases h
        refine ⟨by omega, ⟨by omega, ?_⟩, rfl, hfrom⟩
        show _ < block wheelSlotBits from_ n + wheelSlots
        omega
      · rw [if_neg hturn, ← Nat.succ_add_eq_add_succ]
        refine ih fun l hl => ?_
        rcases Nat.lt_succ_iff_lt_or_eq.mp hl with hlt | rfl
        · exact hfrom l hlt
        · omega

theorem placement_spec (hgranule : q.nowGranule = q.now >>> q.granuleShift) {time : Nat}
    (hlt : q.now < time) :
    PlacedAt q.nowGranule (time >>> q.granuleShift) wheelLevels (q.placement time) := by
  have hle : q.nowGranule ≤ time >>> q.granuleShift := by
    rw [hgranule, Nat.shiftRight_eq_div_pow, Nat.shiftRight_eq_div_pow]
    exact Nat.div_le_div_right (by omega)
  rw [placement, if_neg (by omega), List.range_eq_range']
  have := @placementAt_spec _ _ hle wheelLevels 0 fun l hl => absurd hl (Nat.not_lt_zero l)
  rwa [Nat.zero_add] at this

theorem standing_pushDue (h : Standing shift n pos passed reach q) (he : e.time >>> shift ≤ n) :
    Standing shift n pos passed reach (q.pushDue e) := by
  refine ⟨h.scale, h.granule, h.now, h.dueOrdered.orderedInsert _ _, h.farOrdered, ?_, h.near,
    h.far, h.lens⟩
  intro f hf
  rcases (List.mem_orderedInsert _).mp hf with rfl | hf
  · exact he
  · exact h.due f hf

theorem contents_pushDue (q : EventQueue) (e : Event) :
    (q.pushDue e).contents.Perm (e :: q.contents) :=
  (List.perm_orderedInsert Event.le e q.due).append_right _

theorem standing_pushFar (h : Standing shift n pos passed reach q)
    (he : block wheelSlotBits (wheelLevels - 1) reach + wheelSlots ≤
      block wheelSlotBits (wheelLevels - 1) (e.time >>> shift)) :
    Standing shift n pos passed reach { q with far := heapPush q.far e } := by
  refine ⟨h.scale, h.granule, h.now, h.dueOrdered, h.farOrdered.orderedInsert _ _, h.due, h.near,
    ?_, h.lens⟩
  intro f hf
  rcases (List.mem_orderedInsert _).mp hf with rfl | hf
  · exact he
  · exact h.far f hf

theorem contents_pushFar (q : EventQueue) (e : Event) :
    ({ q with far := heapPush q.far e } : EventQueue).contents.Perm (e :: q.contents) := by
  refine (((List.perm_orderedInsert Event.le e q.far).append_left q.nearEvents).append_left
    q.due).trans ?_
  refine (List.perm_middle.append_left q.due).trans ?_
  exact List.perm_middle

theorem standing_pushNear {level slot : Nat} (h : Standing shift n pos passed reach q)
    (hlevel : level < wheelLevels) (hslot : slot < wheelSlots)
    (he : Ahead wheelSlotBits (pos level) level (e.time >>> shift) ∧
      block wheelSlotBits level (e.time >>> shift) % wheelSlots = slot ∧
      block wheelSlotBits level (pos level) + passed level <
        block wheelSlotBits level (e.time >>> shift)) :
    Standing shift n pos passed reach (q.pushNear level slot e) := by
  refine ⟨h.scale, h.granule, h.now, h.dueOrdered, h.farOrdered, h.due, ?_, h.far, ?_⟩
  · intro l hl s hs f hf
    by_cases hlevels : l = level
    · subst hlevels
      rw [pushNear, row_update_self] at hf
      by_cases hslots : s = slot
      · subst hslots
        rw [Function.update_self] at hf
        rcases List.mem_append.mp hf with hf | hf
        · exact h.near l hl s hs f hf
        · rw [List.mem_singleton.mp hf]
          exact he
      · rw [Function.update_of_ne hslots] at hf
        exact h.near l hl s hs f hf
    · rw [pushNear, row_update_of_ne q.near hslot hs hlevels] at hf
      exact h.near l hl s hs f hf
  · intro l hl
    by_cases hlevels : l = level
    · subst hlevels
      have htally := tally_update (row q.near l) hslot (row q.near l slot ++ [e])
      rw [List.length_append, List.length_singleton] at htally
      show Function.update q.levelLen l _ l = _
      rw [Function.update_self, h.lens l hl, pushNear, row_update_self]
      show _ = tally (Function.update (row q.near l) slot (row q.near l slot ++ [e])) wheelSlots
      omega
    · show Function.update q.levelLen level _ l = _
      rw [Function.update_of_ne hlevels, h.lens l hl]
      exact congrArg List.length (pool_congr fun s hs =>
        (row_update_of_ne q.near hslot hs hlevels _).symm)

theorem contents_pushNear {level slot : Nat} (q : EventQueue) (e : Event)
    (hlevel : level < wheelLevels) (hslot : slot < wheelSlots) :
    (q.pushNear level slot e).contents.Perm (e :: q.contents) := by
  have hpool := pool_update_perm q.near (index_lt hlevel hslot)
    (q.near (level * wheelSlots + slot) ++ [e])
  rw [List.append_assoc, List.singleton_append] at hpool
  have hnear : (q.pushNear level slot e).nearEvents.Perm (e :: q.nearEvents) := by
    exact (List.perm_append_left_iff _).mp hpool
  refine ((hnear.append_right q.far).append_left q.due).trans ?_
  exact List.perm_middle

theorem standing_pushEntry (h : Standing shift n pos passed reach q)
    (hnear : ∀ {level slot : Nat}, q.placement e.time = .near level slot →
      pos level = n ∧ passed level = 0)
    (hfar : q.placement e.time = .far → block wheelSlotBits (wheelLevels - 1) reach ≤
      block wheelSlotBits (wheelLevels - 1) n) :
    Standing shift n pos passed reach (q.pushEntry e) ∧
      (q.pushEntry e).contents.Perm (e :: q.contents) := by
  have hscale := h.scale
  have hgranule := h.granule
  have hnow := h.now
  unfold pushEntry
  rcases Nat.lt_or_ge q.now e.time with hlt | hge
  · have hspec := placement_spec (q := q) (by rw [hgranule, ← hnow, hscale]) hlt
    rw [hgranule, hscale] at hspec
    split
    · rename_i hplace
      exact ⟨standing_pushDue h (Nat.le_of_eq (hspec.due hplace)), contents_pushDue q e⟩
    · rename_i level slot hplace
      obtain ⟨hlevel, hahead, hslot, _⟩ := hspec.near hplace
      obtain ⟨hpos, hpassed⟩ := hnear hplace
      have hslot' : slot < wheelSlots := hslot ▸ Nat.mod_lt _ (by decide)
      refine ⟨standing_pushNear h hlevel hslot' ?_, contents_pushNear q e hlevel hslot'⟩
      rw [hpos, hpassed]
      exact ⟨hahead, hslot.symm, hahead.ahead⟩
    · rename_i hplace
      refine ⟨standing_pushFar h ?_, contents_pushFar q e⟩
      have := hspec.far hplace (wheelLevels - 1) (by decide)
      have := hfar hplace
      omega
  · have hdue : q.placement e.time = .due := if_pos hge
    rw [hdue]
    refine ⟨standing_pushDue h ?_, contents_pushDue q e⟩
    rw [← hnow, Nat.shiftRight_eq_div_pow, Nat.shiftRight_eq_div_pow]
    exact Nat.div_le_div_right hge

theorem Standing.settled (h : Standing shift n (fun _ => n) (fun _ => 0) n q) : Settled q := by
  unfold Settled
  rw [h.scale, h.granule]
  exact h

theorem settled_pushEntry (h : Settled q) (e : Event) :
    Settled (q.pushEntry e) ∧ (q.pushEntry e).contents.Perm (e :: q.contents) := by
  obtain ⟨hstand, hperm⟩ := standing_pushEntry (e := e) h (fun _ => ⟨rfl, rfl⟩)
    fun _ => Nat.le_refl _
  exact ⟨hstand.settled, hperm⟩

theorem standing_drainSlot {level k : Nat} (h : Standing shift n pos passed reach q)
    (hlevel : level < wheelLevels) (hk : passed level = k) :
    let out := q.drainSlot level ((block wheelSlotBits level (pos level) + (k + 1)) % wheelSlots)
    Standing shift n pos (Function.update passed level (k + 1)) reach out.2 ∧
      (∀ e ∈ out.1, block wheelSlotBits level (e.time >>> shift) =
        block wheelSlotBits level (pos level) + (k + 1)) ∧
      q.contents.Perm (out.1 ++ out.2.contents) := by
  intro out
  have hslot : (block wheelSlotBits level (pos level) + (k + 1)) % wheelSlots < wheelSlots :=
    Nat.mod_lt _ (by decide)
  refine ⟨⟨h.scale, h.granule, h.now, h.dueOrdered, h.farOrdered, h.due, ?_, h.far, ?_⟩, ?_, ?_⟩
  · intro l hl s hs f hf
    by_cases hlevels : l = level
    · subst hlevels
      rw [Function.update_self]
      have hf' : f ∈ Function.update (row q.near l)
          ((block wheelSlotBits l (pos l) + (k + 1)) % wheelSlots) [] s := by
        rw [← row_update_self]
        exact hf
      by_cases hslots : s = (block wheelSlotBits l (pos l) + (k + 1)) % wheelSlots
      · rw [hslots, Function.update_self] at hf'
        exact absurd hf' (by simp)
      · rw [Function.update_of_ne hslots] at hf'
        obtain ⟨hahead, hs', hpassed⟩ := h.near l hl s hs f hf'
        refine ⟨hahead, hs', ?_⟩
        -- another slot, so another block
        have hne : block wheelSlotBits l (f.time >>> shift) ≠
            block wheelSlotBits l (pos l) + (k + 1) := by
          intro heq
          rw [heq] at hs'
          exact hslots hs'.symm
        omega
    · rw [Function.update_of_ne hlevels]
      have hf' : f ∈ row q.near l s := by
        rw [← row_update_of_ne q.near hslot hs hlevels []]
        exact hf
      exact h.near l hl s hs f hf'
  · intro l hl
    by_cases hlevels : l = level
    · subst hlevels
      have htally := tally_update (row q.near l) hslot []
      rw [← row_update_self, ← h.lens l hl, List.length_nil] at htally
      show Function.update q.levelLen l _ l = _
      rw [Function.update_self]
      simp only [row] at htally
      show _ = tally (row (Function.update q.near _ []) l) wheelSlots
      omega
    · show Function.update q.levelLen level _ l = _
      rw [Function.update_of_ne hlevels, h.lens l hl]
      exact congrArg List.length (pool_congr fun s hs =>
        (row_update_of_ne q.near hslot hs hlevels _).symm)
  · intro e he
    obtain ⟨hahead, hs, hpassed⟩ := h.near level hlevel _ hslot e he
    have hturn : block wheelSlotBits level (e.time >>> shift) <
        block wheelSlotBits level (pos level) + wheelSlots := hahead.turn
    simp only [show wheelSlots = 256 from rfl] at hs hturn
    omega
  · have hpool := pool_update_perm q.near (index_lt hlevel hslot) []
    rw [List.nil_append] at hpool
    have hnear : q.nearEvents.Perm (out.1 ++ out.2.nearEvents) := hpool.symm
    refine ((hnear.append_right q.far).append_left q.due).trans ?_
    rw [List.append_assoc]
    exact List.perm_append_comm_assoc _ _ _

theorem standing_foldl {put : EventQueue → Event → EventQueue} {P : Event → Prop}
    (hput : ∀ {q : EventQueue} {e : Event}, Standing shift n pos passed reach q → P e →
      Standing shift n pos passed reach (put q e) ∧ (put q e).contents.Perm (e :: q.contents)) :
    ∀ {es : List Event} {q : EventQueue}, (∀ e ∈ es, P e) → Standing shift n pos passed reach q →
      Standing shift n pos passed reach (es.foldl put q) ∧
        (es.foldl put q).contents.Perm (es ++ q.contents) := by
  intro es
  induction es with
  | nil => exact fun _ h => ⟨h, List.Perm.refl _⟩
  | cons e es ih =>
    intro q hes h
    obtain ⟨hstep, hperm⟩ := hput h (hes e (List.mem_cons_self ..))
    obtain ⟨hrest, hperm'⟩ := ih (fun f hf => hes f (List.mem_cons_of_mem _ hf)) hstep
    refine ⟨hrest, hperm'.trans ?_⟩
    exact (hperm.append_left es).trans List.perm_middle

theorem standing_sweep {put : EventQueue → Event → EventQueue} {level : Nat}
    (hlevel : level < wheelLevels)
    (hput : ∀ {q : EventQueue} {e : Event} {k : Nat},
      Standing shift n pos (Function.update passed level k) reach q →
      block wheelSlotBits level (e.time >>> shift) ≤ block wheelSlotBits level n →
      Standing shift n pos (Function.update passed level k) reach (put q e) ∧
        (put q e).contents.Perm (e :: q.contents))
    (h : Standing shift n pos passed reach q) (hzero : passed level = 0) :
    ∀ {steps : Nat}, block wheelSlotBits level (pos level) + steps ≤ block wheelSlotBits level n →
      Standing shift n pos (Function.update passed level steps) reach
          (sweep put level (block wheelSlotBits level (pos level)) steps q) ∧
        (sweep put level (block wheelSlotBits level (pos level)) steps q).contents.Perm
          q.contents := by
  intro steps
  induction steps with
  | zero =>
    intro _
    have hsame : Function.update passed level 0 = passed := by
      rw [← hzero, Function.update_eq_self]
    rw [hsame]
    exact ⟨h, List.Perm.refl _⟩
  | succ steps ih =>
    intro hsteps
    obtain ⟨hmid, hperm⟩ := ih (by omega)
    obtain ⟨hout, hpassed, hdrained⟩ :=
      standing_drainSlot hmid hlevel (Function.update_self level steps passed)
    rw [Function.update_idem] at hout
    obtain ⟨hend, hperm'⟩ := standing_foldl hput (fun e he => by rw [hpassed e he]; exact hsteps)
      hout
    exact ⟨hend, hperm'.trans (hdrained.symm.trans hperm)⟩

theorem standing_swept {level k : Nat} (hle : pos level ≤ n)
    (h : Standing shift n pos (Function.update passed level k) reach q)
    (hk : block wheelSlotBits level n = block wheelSlotBits level (pos level) + k ∨
      wheelSlots ≤ k) :
    Standing shift n (Function.update pos level n) (Function.update passed level 0) reach q := by
  refine ⟨h.scale, h.granule, h.now, h.dueOrdered, h.farOrdered, h.due, ?_, h.far, h.lens⟩
  intro l hl s hs e he
  have hstand := h.near l hl s hs e he
  by_cases hlevels : l = level
  · subst hlevels
    rw [Function.update_self, Function.update_self]
    rw [Function.update_self] at hstand
    obtain ⟨⟨hahead, hturn⟩, hslot, hpassed⟩ := hstand
    simp only [show 2 ^ wheelSlotBits = 256 from rfl, show wheelSlots = 256 from rfl] at *
    refine ⟨⟨?_, ?_⟩, hslot, ?_⟩
    · omega
    · show _ < _ + 256
      omega
    · omega
  · rw [Function.update_of_ne hlevels] at hstand ⊢
    rw [Function.update_of_ne hlevels]
    exact hstand

theorem standing_sweepLevel {put : EventQueue → Event → EventQueue} {level : Nat}
    (hlevel : level < wheelLevels) (hle : pos level ≤ n)
    (hput : ∀ {q : EventQueue} {e : Event} {k : Nat},
      Standing shift n pos (Function.update passed level k) reach q →
      block wheelSlotBits level (e.time >>> shift) ≤ block wheelSlotBits level n →
      Standing shift n pos (Function.update passed level k) reach (put q e) ∧
        (put q e).contents.Perm (e :: q.contents))
    (h : Standing shift n pos passed reach q) (hzero : passed level = 0) :
    Standing shift n (Function.update pos level n) passed reach
        (sweepLevel put (pos level) n q level) ∧
      (sweepLevel put (pos level) n q level).contents.Perm q.contents := by
  have hsame : Function.update passed level 0 = passed := by
    rw [← hzero, Function.update_eq_self]
  have hmono := @block_mono wheelSlotBits _ _ hle level
  unfold sweepLevel
  by_cases hindex : block wheelSlotBits level (pos level) = block wheelSlotBits level n
  · simp only [hindex, if_true]
    have hstart : Standing shift n pos (Function.update passed level 0) reach q := by
      rw [hsame]
      exact h
    have := standing_swept hle hstart (.inl (by omega))
    rw [hsame] at this
    exact ⟨this, List.Perm.refl _⟩
  · simp only [hindex, if_false]
    obtain ⟨hswept, hperm⟩ := @standing_sweep shift n reach pos passed q put level hlevel hput h
      hzero (min (block wheelSlotBits level n - block wheelSlotBits level (pos level)) wheelSlots)
      (by omega)
    have := standing_swept hle hswept (by omega)
    rw [hsame] at this
    exact ⟨this, hperm⟩

def sweptBelow (old new level : Nat) : Nat → Nat := fun l => if l < level then new else old

theorem update_sweptBelow (old new level : Nat) :
    Function.update (sweptBelow old new level) level new = sweptBelow old new (level + 1) := by
  funext l
  unfold sweptBelow
  by_cases h : l = level
  · subst h
    rw [Function.update_self, if_pos (by omega)]
  · rw [Function.update_of_ne h]
    by_cases hlt : l < level
    · rw [if_pos hlt, if_pos (by omega)]
    · rw [if_neg hlt, if_neg (by omega)]

theorem standing_cascade {level k : Nat} (hlevel : level < wheelLevels) {old : Nat}
    (h : Standing shift n (sweptBelow old n level) (Function.update (fun _ => 0) level k) reach q)
    (he : block wheelSlotBits level (e.time >>> shift) ≤ block wheelSlotBits level n) :
    Standing shift n (sweptBelow old n level) (Function.update (fun _ => 0) level k) reach
        (q.pushEntry e) ∧
      (q.pushEntry e).contents.Perm (e :: q.contents) := by
  have hspec : q.now < e.time → PlacedAt n (e.time >>> shift) wheelLevels
      (q.placement e.time) := by
    intro hlt
    have := placement_spec (q := q) (by rw [h.granule, ← h.now, h.scale]) hlt
    rwa [h.granule, h.scale] at this
  have hlt : ∀ {p : Placement}, q.placement e.time = p → p ≠ .due → q.now < e.time := by
    intro p hp hne
    refine Nat.lt_of_not_le fun hge => hne ?_
    rw [← hp]
    exact if_pos hge
  refine standing_pushEntry h ?_ ?_
  · intro l slot hplace
    obtain ⟨_, hahead, _, hbelow⟩ := (hspec (hlt hplace (by simp))).near hplace
    have hfiner : l < level := by
      rcases Nat.lt_trichotomy l level with hl | rfl | hl
      · exact hl
      · exact absurd hahead.ahead (by omega)
      · have := hbelow level hl
        simp only [show wheelSlots = 256 from rfl] at this
        omega
    rw [sweptBelow, if_pos hfiner, Function.update_of_ne (by omega)]
    exact ⟨rfl, rfl⟩
  · intro hplace
    have := (hspec (hlt hplace (by simp))).far hplace level hlevel
    simp only [show wheelSlots = 256 from rfl] at this
    omega

theorem standing_cascades {old : Nat} (hle : old ≤ n) {count : Nat} :
    ∀ {from_ : Nat} {q : EventQueue}, from_ + count ≤ wheelLevels →
      Standing shift n (sweptBelow old n from_) (fun _ => 0) reach q →
      Standing shift n (sweptBelow old n (from_ + count)) (fun _ => 0) reach
          ((List.range' from_ count).foldl (fun q level => q.sweepLevel pushEntry old n level) q) ∧
        ((List.range' from_ count).foldl (fun q level =>
          q.sweepLevel pushEntry old n level) q).contents.Perm q.contents := by
  induction count with
  | zero => exact fun _ h => ⟨h, List.Perm.refl _⟩
  | succ count ih =>
    intro from_ q hcount h
    have hold : sweptBelow old n from_ from_ = old := if_neg (by omega)
    have hlevel : from_ < wheelLevels := by omega
    obtain ⟨hstep, hperm⟩ := standing_sweepLevel hlevel (by rw [hold]; exact hle)
      (fun h he => standing_cascade hlevel h he) h rfl
    rw [hold, update_sweptBelow] at hstep
    rw [hold] at hperm
    obtain ⟨hrest, hperm'⟩ := ih (by omega) hstep
    rw [Nat.succ_add_eq_add_succ] at hrest
    rw [List.range'_succ, List.foldl_cons]
    exact ⟨hrest, hperm'.trans hperm⟩

theorem pushEntry_not_far (q : EventQueue) {e : Event} (h : q.placement e.time ≠ .far) :
    { q.pushEntry e with far := [] } = ({ q with far := [] } : EventQueue).pushEntry e := by
  have hsame : ({ q with far := [] } : EventQueue).placement e.time = q.placement e.time := rfl
  unfold pushEntry
  rw [hsame]
  split
  · rfl
  · rfl
  · rename_i hplace
    exact absurd hplace h

theorem standing_pullFar {es : List Event} : ∀ {q : EventQueue}, es.Pairwise Event.le →
    Standing shift n (fun _ => n) (fun _ => 0) n { q with far := [] } →
    Standing shift n (fun _ => n) (fun _ => 0) n (q.pullFar es) ∧
      (q.pullFar es).contents.Perm (es ++ ({ q with far := [] } : EventQueue).contents) := by
  induction es with
  | nil => exact fun _ h => ⟨h, List.Perm.refl _⟩
  | cons e es ih =>
    intro q hes h
    obtain ⟨hfirst, hes'⟩ := List.pairwise_cons.mp hes
    unfold pullFar
    by_cases hplace : q.placement e.time = .far
    · rw [if_pos hplace]
      have hlt : q.now < e.time := by
        refine Nat.lt_of_not_le fun hge => ?_
        rw [placement, if_pos hge] at hplace
        exact absurd hplace (by simp)
      have hgranule : q.nowGranule = n := h.granule
      have hscale : q.granuleShift = shift := h.scale
      have hnow : q.now >>> shift = n := h.now
      have hspec := placement_spec (q := q) (by rw [hgranule, ← hnow, hscale]) hlt
      rw [hgranule, hscale] at hspec
      have hreach := hspec.far hplace (wheelLevels - 1) (by decide)
      refine ⟨⟨h.scale, h.granule, h.now, h.dueOrdered, hes, h.due, h.near, ?_, h.lens⟩, ?_⟩
      · intro f hf
        have hle : e.time ≤ f.time := by
          rcases List.mem_cons.mp hf with rfl | hf
          · exact Nat.le_refl _
          · have := hfirst f hf
            unfold Event.le at this
            omega
        have hmono := @block_mono wheelSlotBits (e.time >>> shift) (f.time >>> shift)
          (by
            rw [Nat.shiftRight_eq_div_pow, Nat.shiftRight_eq_div_pow]
            exact Nat.div_le_div_right hle) (wheelLevels - 1)
        omega
      · show (q.due ++ (q.nearEvents ++ e :: es)).Perm (e :: es ++ (q.due ++ (q.nearEvents ++ [])))
        rw [List.append_nil, ← List.append_assoc]
        exact List.perm_append_comm
    · rw [if_neg hplace]
      obtain ⟨hstep, hperm⟩ := standing_pushEntry (e := e) h (fun _ => ⟨rfl, rfl⟩)
        fun _ => Nat.le_refl _
      rw [← pushEntry_not_far q hplace] at hstep hperm
      obtain ⟨hrest, hperm'⟩ := ih hes' hstep
      refine ⟨hrest, hperm'.trans ?_⟩
      exact (hperm.append_left es).trans List.perm_middle

end

theorem settled_pushAll {q : EventQueue} (h : Settled q) (es : List Event) :
    Settled (es.foldl pushEntry q) ∧ (es.foldl pushEntry q).contents.Perm (es ++ q.contents) := by
  obtain ⟨hstand, hperm⟩ := @standing_foldl _ _ _ _ _ pushEntry (fun _ => True)
    (fun h _ => standing_pushEntry h (fun _ => ⟨rfl, rfl⟩) fun _ => Nat.le_refl _) es q
    (fun _ _ => trivial) h
  exact ⟨hstand.settled, hperm⟩

theorem Settled.later {q : EventQueue} (h : Settled q) {e : Event}
    (he : e ∈ q.nearEvents ++ q.far) : q.now < e.time := by
  have hgranule : q.now >>> q.granuleShift < e.time >>> q.granuleShift := by
    rw [h.now]
    rcases List.mem_append.mp he with he | he
    · obtain ⟨i, hi, he⟩ := mem_pool.mp he
      obtain ⟨level, slot, hlevel, hslot, rfl⟩ := index_split hi
      exact (h.near level hlevel slot hslot e he).1.lt
    · have hfar := h.far e he
      simp only [show wheelSlots = 256 from rfl] at hfar
      exact lt_of_block_lt (Nat.lt_of_lt_of_le (by omega) hfar)
  refine Nat.lt_of_not_le fun hle => ?_
  rw [Nat.shiftRight_eq_div_pow, Nat.shiftRight_eq_div_pow] at hgranule
  exact absurd (Nat.div_le_div_right hle) (Nat.not_le.mpr hgranule)

theorem settled_advanceTo {q : EventQueue} (h : Settled q) (to_ : Nat) :
    Settled (q.advanceTo to_) ∧ (q.advanceTo to_).contents.Perm q.contents := by
  unfold advanceTo
  by_cases hle : to_ ≤ q.now
  · rw [if_pos hle]
    exact ⟨h, List.Perm.refl _⟩
  rw [if_neg hle]
  by_cases hsame : to_ >>> q.granuleShift = q.nowGranule
  · simp only [hsame, if_true]
    refine ⟨?_, List.Perm.refl _⟩
    exact ⟨rfl, rfl, hsame, h.dueOrdered, h.farOrdered, h.due, h.near, h.far, h.lens⟩
  simp only [hsame, if_false]
  have hbefore : q.nowGranule ≤ to_ >>> q.granuleShift := by
    rw [← h.now, Nat.shiftRight_eq_div_pow, Nat.shiftRight_eq_div_pow]
    exact Nat.div_le_div_right (by omega)
  have hstart : Standing q.granuleShift (to_ >>> q.granuleShift)
      (sweptBelow q.nowGranule (to_ >>> q.granuleShift) 0) (fun _ => 0) q.nowGranule
      { q with now := to_, nowGranule := to_ >>> q.granuleShift } :=
    ⟨rfl, rfl, rfl, h.dueOrdered, h.farOrdered, fun e he => Nat.le_trans (h.due e he) hbefore,
      h.near, h.far, h.lens⟩
  -- level 0 goes to the due heap
  obtain ⟨hzero, hperm0⟩ := @standing_sweepLevel _ _ _ _ _ _ pushDue 0 (by decide) hbefore
    (fun h he => ⟨standing_pushDue h he, contents_pushDue _ _⟩) hstart rfl
  rw [update_sweptBelow] at hzero
  have hold : sweptBelow q.nowGranule (to_ >>> q.granuleShift) 0 0 = q.nowGranule := rfl
  rw [hold] at hzero hperm0
  obtain ⟨hupper, hperm1⟩ := @standing_cascades _ _ _ _ hbefore (wheelLevels - 1) _ _
    (Nat.le_refl wheelLevels) hzero
  generalize (List.range' 1 (wheelLevels - 1)).foldl _ _ = p at hupper hperm1 ⊢
  have hready : Standing q.granuleShift (to_ >>> q.granuleShift)
      (fun _ => to_ >>> q.granuleShift) (fun _ => 0) (to_ >>> q.granuleShift)
      { p with far := [] } := by
    refine ⟨hupper.scale, hupper.granule, hupper.now, hupper.dueOrdered, List.Pairwise.nil,
      hupper.due, ?_, fun e he => absurd he (by simp), hupper.lens⟩
    intro level hlevel slot hslot e he
    have := hupper.near level hlevel slot hslot e he
    rw [sweptBelow, if_pos (show level < 1 + (wheelLevels - 1) from hlevel)] at this
    exact this
  obtain ⟨hend, hperm2⟩ := standing_pullFar hupper.farOrdered hready
  refine ⟨hend.settled, (hperm2.trans ?_).trans (hperm1.trans hperm0)⟩
  show (p.far ++ (p.due ++ (p.nearEvents ++ []))).Perm (p.due ++ (p.nearEvents ++ p.far))
  rw [List.append_nil, ← List.append_assoc p.due]
  exact List.perm_append_comm

end EventQueue

end Rsemu.Sched
