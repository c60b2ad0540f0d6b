import Mathlib.Data.Fintype.Card
import Rsemu.Plic.Registers

/-!
# An asserted source is offered

What a context is offered is the lowest-numbered source of the highest priority
(`best_zero_iff`, `best_offers`), and claiming again and again serves all of them in that
order (`claims_drain`). What the gateways keep is `Held`: a source whose level is up is
pending or claimed, and never both.

The level the register block keeps is the wired-OR of the net, as long as no reset comes
between them: a reset starts the register block over and not the pins, so a line that is high
across it is a line nobody will ever offer again. `gateways` says that this is all that can go
wrong.
-/

namespace Rsemu.Plic

namespace State

variable {sources contexts : Nat} {s : State sources contexts}

/-- A source a context could be interrupted by. -/
structure Offers (s : State sources contexts) (context : Fin contexts)
    (source : Fin (sources + 1)) : Prop where
  ne_zero : source ≠ 0
  pending : s.pending source = true
  enabled : s.enable context source = true
  above : s.threshold context < s.priority source

theorem mem_tail_finRange {n : Nat} {x : Fin (n + 1)} :
    x ∈ (List.finRange (n + 1)).tail ↔ x ≠ 0 := by
  rw [List.finRange_succ, List.tail_cons, List.mem_map]
  constructor
  · rintro ⟨i, _, rfl⟩
    exact Fin.succ_ne_zero i
  · intro h
    exact ⟨x.pred h, List.mem_finRange _, Fin.succ_pred x h⟩

theorem best_cases (s : State sources contexts) (context : Fin contexts) :
    (s.best context = 0 ∧ ∀ x, ¬ s.Offers context x)
      ∨ (s.Offers context (s.best context) ∧ ∀ x, s.Offers context x →
        s.priority x < s.priority (s.best context)
          ∨ (s.priority x = s.priority (s.best context) ∧ s.best context ≤ x)) := by
  have hcounts : ∀ {x}, s.Offers context x →
      (s.pending x && s.enable context x) = true := fun h => by rw [h.pending, h.enabled]; rfl
  unfold best
  rcases @Argmax.scan_cases _ _ _ s.priority (fun x => s.pending x && s.enable context x)
      (List.finRange (sources + 1)).tail (0, s.threshold context) with
      ⟨hstay, hle⟩ | ⟨before, x, after, hl, hfold, hf⟩
  · rw [hstay]
    refine Or.inl ⟨rfl, fun x hx => ?_⟩
    exact absurd (hle x (mem_tail_finRange.mpr hx.ne_zero) (hcounts hx)) (Nat.not_le.mpr hx.above)
  · rw [hfold]
    have hmem : x ∈ (List.finRange (sources + 1)).tail := by
      rw [hl]
      exact List.mem_append_right _ (List.mem_cons_self ..)
    obtain ⟨hp, he⟩ := Bool.and_eq_true_iff.mp hf.counted
    refine Or.inr ⟨⟨mem_tail_finRange.mp hmem, hp, he, hf.above⟩, fun y hy => ?_⟩
    have hy' := mem_tail_finRange.mpr hy.ne_zero
    have hsorted := (List.pairwise_lt_finRange (sources + 1)).tail
    rw [hl] at hy' hsorted
    rcases List.mem_append.mp hy' with hb | ha
    · exact Or.inl (hf.first y hb (hcounts hy))
    · rcases List.mem_cons.mp ha with rfl | ha
      · exact Or.inr ⟨rfl, Nat.le_refl _⟩
      · have hlt := (List.pairwise_cons.mp (List.pairwise_append.mp hsorted).2.1).1 y ha
        rcases Nat.lt_or_eq_of_le (hf.best y ha (hcounts hy)) with h | h
        · exact Or.inl h
        · exact Or.inr ⟨h, Fin.le_of_lt hlt⟩

theorem best_offers {context : Fin contexts} (h : s.best context ≠ 0) :
    s.Offers context (s.best context) := by
  rcases s.best_cases context with ⟨h0, _⟩ | ⟨hoff, _⟩
  · exact absurd h0 h
  · exact hoff

/-- What the next `n` claims of a context return. -/
def claims (s : State sources contexts) (context : Fin contexts) : Nat → List (Fin (sources + 1))
  | 0 => []
  | n + 1 => (s.claim context).2 :: (s.claim context).1.claims context n

/-- Higher priority, or the same and a lower number. -/
def Outranks (s : State sources contexts) (x y : Fin (sources + 1)) : Prop :=
  s.priority y < s.priority x ∨ (s.priority y = s.priority x ∧ x < y)

variable {source x : Fin (sources + 1)}

theorem offers_take {context : Fin contexts} :
    (s.take source).Offers context x ↔ s.Offers context x ∧ x ≠ source := by
  constructor
  · rintro ⟨hne, hpending, henabled, habove⟩
    change Function.update s.pending source false x = true at hpending
    have hx : x ≠ source := by
      rintro rfl
      rw [Function.update_self] at hpending
      cases hpending
    rw [Function.update_of_ne hx] at hpending
    exact ⟨⟨hne, hpending, henabled, habove⟩, hx⟩
  · rintro ⟨h, hx⟩
    refine ⟨h.ne_zero, ?_, h.enabled, h.above⟩
    exact (Function.update_of_ne hx ..).trans h.pending

theorem card_pending_take (h : s.pending source = true) :
    (Finset.univ.filter fun x => (s.take source).pending x = true).card <
      (Finset.univ.filter fun x => s.pending x = true).card := by
  refine Finset.card_lt_card ⟨fun x hx => ?_, fun hsub => ?_⟩
  · have hx := (Finset.mem_filter.mp hx).2
    change Function.update s.pending _ false x = true at hx
    refine Finset.mem_filter.mpr ⟨Finset.mem_univ x, ?_⟩
    by_cases hxs : x = source
    · rw [hxs]
      exact h
    · rwa [Function.update_of_ne hxs] at hx
  · have htaken := (Finset.mem_filter.mp
      (hsub (Finset.mem_filter.mpr ⟨Finset.mem_univ source, h⟩))).2
    exact absurd ((Function.update_self ..).symm.trans htaken) (by decide)

/-- **A context that keeps claiming is handed each source it was offered once**, those of higher
priority first and of equal ones the lower number, and nothing after them. -/
theorem claims_drain (s : State sources contexts) (context : Fin contexts) :
    ∃ served : List (Fin (sources + 1)), served.Pairwise s.Outranks ∧
      (∀ x, x ∈ served ↔ s.Offers context x) ∧
      ∀ n, s.claims context (served.length + n) = served ++ List.replicate n 0 := by
  -- on the number of pending sources, of which every successful claim takes one
  induction hk : (Finset.univ.filter fun x => s.pending x = true).card using Nat.strong_induction_on
    generalizing s with
  | _ k ih =>
  rcases s.best_cases context with ⟨h0, hnone⟩ | ⟨hoff, hbest⟩
  · refine ⟨[], .nil, fun x => ⟨fun hx => ?_, fun hx => absurd hx (hnone x)⟩, fun n => ?_⟩
    · exact absurd hx List.not_mem_nil
    have hstay : s.claim context = (s, 0) := by
      unfold claim
      rw [h0, if_neg (by simp)]
    rw [List.length_nil, Nat.zero_add, List.nil_append]
    induction n with
    | zero => rfl
    | succ n ihn =>
      rw [claims, hstay, ihn]
      rfl
  · have hclaim : s.claim context = (s.take (s.best context), s.best context) := by
      unfold claim
      rw [if_pos hoff.ne_zero]
    have hfewer := hk ▸ card_pending_take hoff.pending
    obtain ⟨served, hsorted, hserved, hclaims⟩ := ih _ hfewer (s.take (s.best context)) rfl
    refine ⟨s.best context :: served, List.pairwise_cons.mpr ⟨fun x hx => ?_, hsorted⟩,
      fun x => ?_, fun n => ?_⟩
    · obtain ⟨hx, hne⟩ := offers_take.mp ((hserved x).mp hx)
      rcases hbest x hx with hlt | ⟨heq, hle⟩
      · exact .inl hlt
      · exact .inr ⟨heq, lt_of_le_of_ne hle hne.symm⟩
    · rw [List.mem_cons, hserved, offers_take]
      constructor
      · rintro (rfl | ⟨hx, -⟩)
        · exact hoff
        · exact hx
      · exact fun hx => (eq_or_ne x (s.best context)).imp_right fun hne => ⟨hx, hne⟩
    · rw [List.length_cons, Nat.add_right_comm, claims, hclaim, hclaims, List.cons_append]

/-- The three bits of every source are what they were. -/
structure SameBits (s t : State sources contexts) : Prop where
  pending : t.pending = s.pending
  level : t.level = s.level
  claimed : t.claimed = s.claimed

/-- Everything an access can do: return early, change what is offered to whom, claim what
a context is offered, or complete what a context can see. -/
inductive Effect (s : State sources contexts) : Option (State sources contexts) → Prop where
  | early : Effect s none
  | config {t : State sources contexts} (h : s.SameBits t) : Effect s (some t)
  | taken {context : Fin contexts} (h : s.best context ≠ 0) :
      Effect s (some (s.take (s.best context)))
  | finished {context : Fin contexts} {value : Nat} {source : Fin (sources + 1)}
      (h : s.accepts context value = some source) : Effect s (some (s.finish source))

theorem read_effect (s : State sources contexts) (offset length : Nat) (debug : Bool) :
    s.Effect (s.read offset length debug).1 := by
  unfold read
  split
  · exact .early
  · cases decode offset contexts with
    | claim context =>
      unfold readReg claim
      dsimp only
      split
      · exact .early
      · split
        · rename_i h
          exact .taken h
        · exact .config ⟨rfl, rfl, rfl⟩
    | _ => exact .early

theorem write_effect (s : State sources contexts) (offset length value : Nat) (debug : Bool) :
    s.Effect (s.write offset length value debug).1 := by
  unfold write
  split
  · exact .early
  · split
    · exact .early
    · cases decode offset contexts with
      | priority source =>
        unfold writeReg
        dsimp only
        split
        · exact .config ⟨rfl, rfl, rfl⟩
        · exact .early
      | enable context index => exact .config ⟨rfl, rfl, rfl⟩
      | threshold context => exact .config ⟨rfl, rfl, rfl⟩
      | claim context =>
        change s.Effect (s.complete context value)
        unfold complete
        cases h : s.accepts context value with
        | none => exact .early
        | some source => exact .finished h
      | pending index => exact .early
      | none => exact .early

/-- The bits of a source agree with one another. -/
structure Held (s : State sources contexts) : Prop where
  exclusive : ∀ x, ¬ (s.pending x = true ∧ s.claimed x = true)
  /-- A level that is up has been forwarded, and is offered or being handled. -/
  kept : ∀ x, x ≠ 0 → s.level x = true → s.pending x = true ∨ s.claimed x = true

theorem held_new : (State.new sources contexts).Held where
  exclusive x h := absurd h.1 (by simp [State.new])
  kept x _ h := absurd h (by simp [State.new])

theorem Held.config (h : s.Held) {t : State sources contexts} (hs : s.SameBits t) : t.Held where
  exclusive x := by
    rw [hs.pending, hs.claimed]
    exact h.exclusive x
  kept x := by
    rw [hs.level, hs.pending, hs.claimed]
    exact h.kept x

theorem Held.take (h : s.Held) (source : Fin (sources + 1)) : (s.take source).Held where
  exclusive x := by
    unfold State.take
    dsimp only
    by_cases hx : x = source
    · rw [hx, Function.update_self]
      exact fun hc => absurd hc.1 Bool.false_ne_true
    · rw [Function.update_of_ne hx, Function.update_of_ne hx]
      exact h.exclusive x
  kept x hx0 hl := by
    unfold State.take
    dsimp only
    by_cases hx : x = source
    · rw [hx, Function.update_self, Function.update_self]
      exact Or.inr rfl
    · rw [Function.update_of_ne hx, Function.update_of_ne hx]
      exact h.kept x hx0 hl

theorem Held.finish (h : s.Held) (source : Fin (sources + 1)) : (s.finish source).Held := by
  have hpend : ∀ x, x ≠ source → (s.finish source).pending x = s.pending x
      ∧ (s.finish source).claimed x = s.claimed x := by
    intro x hx
    unfold State.finish
    refine ⟨?_, Function.update_of_ne hx _ _⟩
    split
    · exact Function.update_of_ne hx _ _
    · rfl
  have hclaimed : (s.finish source).claimed source = false := Function.update_self ..
  constructor
  · intro x
    by_cases hx : x = source
    · rw [hx, hclaimed]
      exact fun hc => absurd hc.2 Bool.false_ne_true
    · rw [(hpend x hx).1, (hpend x hx).2]
      exact h.exclusive x
  · intro x hx0 hl
    by_cases hx : x = source
    · -- still asserted, so it is forwarded again
      refine Or.inl ?_
      rw [hx] at hl ⊢
      have hl' : s.level source = true := hl
      change (if s.level source then Function.update s.pending source true else s.pending) source
        = true
      rw [if_pos hl', Function.update_self]
    · rw [(hpend x hx).1, (hpend x hx).2]
      exact h.kept x hx0 hl

theorem Effect.held {r : Option (State sources contexts)} (he : s.Effect r) (h : s.Held) :
    ∀ t, r = some t → t.Held := by
  intro t ht
  cases he with
  | early => cases ht
  | config hs =>
    obtain rfl := Option.some.inj ht
    exact h.config hs
  | taken _ =>
    obtain rfl := Option.some.inj ht
    exact h.take _
  | finished _ =>
    obtain rfl := Option.some.inj ht
    exact h.finish _

theorem Effect.level {r : Option (State sources contexts)} (he : s.Effect r) :
    ∀ t, r = some t → t.level = s.level := by
  intro t ht
  cases he with
  | early => cases ht
  | config hs =>
    obtain rfl := Option.some.inj ht
    exact hs.level
  | taken _ =>
    obtain rfl := Option.some.inj ht
    rfl
  | finished _ =>
    obtain rfl := Option.some.inj ht
    rfl

theorem Held.setLevel (h : s.Held) (hne : source ≠ 0) {level : Bool} {t : State sources contexts}
    (ht : s.setLevel source level = some t) : t.Held := by
  unfold State.setLevel at ht
  split at ht
  · cases ht
  · obtain rfl := Option.some.inj ht
    by_cases hrise : level = true ∧ s.claimed source = false
    · rw [if_pos ⟨hne, hrise⟩]
      constructor
      · intro x
        dsimp only
        by_cases hx : x = source
        · rw [hx, Function.update_self, hrise.2]
          exact fun hc => absurd hc.2 Bool.false_ne_true
        · rw [Function.update_of_ne hx]
          exact h.exclusive x
      · intro x hx0
        dsimp only
        by_cases hx : x = source
        · rw [hx, Function.update_self, Function.update_self]
          exact fun _ => Or.inl rfl
        · rw [Function.update_of_ne hx, Function.update_of_ne hx]
          exact h.kept x hx0
    · rw [if_neg fun hc => hrise hc.2]
      refine ⟨h.exclusive, fun x hx0 => ?_⟩
      dsimp only
      by_cases hx : x = source
      · rw [hx, Function.update_self]
        intro hl
        -- it rose while a handler had it
        refine Or.inr ?_
        cases hc : s.claimed source with
        | true => rfl
        | false => exact absurd ⟨hl, hc⟩ hrise
      · rw [Function.update_of_ne hx]
        exact h.kept x hx0

theorem setLevel_level (s : State sources contexts) (source : Fin (sources + 1)) (level : Bool) :
    ((s.setLevel source level).getD s).level = Function.update s.level source level := by
  unfold State.setLevel
  split
  · rename_i h
    rw [Option.getD_none, ← h, Function.update_eq_self]
  · rfl

theorem setLevel_claimed (s : State sources contexts) (source : Fin (sources + 1)) (level : Bool) :
    ((s.setLevel source level).getD s).claimed = s.claimed := by
  unfold State.setLevel
  split <;> rfl

theorem take_claimed (h : s.claimed x = true) : (s.take source).claimed x = true := by
  change Function.update s.claimed source true x = true
  by_cases hx : x = source
  · rw [hx, Function.update_self]
  · rw [Function.update_of_ne hx, h]

theorem read_claimed (offset length : Nat) (debug : Bool) (h : s.claimed x = true) :
    ((s.read offset length debug).1.getD s).claimed x = true := by
  unfold read
  split
  · exact h
  · cases decode offset contexts with
    | claim context =>
      unfold readReg claim
      dsimp only
      split
      · exact h
      · split
        · exact take_claimed h
        · exact h
    | _ => exact h

theorem write_claimed {offset length value : Nat} {debug : Bool} (h : s.claimed x = true)
    (hs : ((s.write offset length value debug).1.getD s).claimed x = false) :
    length = 4 ∧ offset % 4 = 0 ∧ debug = false ∧ ∃ context,
      decode offset contexts = .claim context ∧ s.accepts context value = some x := by
  have hstill : ∀ {t : State sources contexts}, t.claimed = s.claimed → t.claimed x ≠ false := by
    intro t ht
    rw [ht, h]
    decide
  unfold write at hs
  split at hs
  · exact absurd hs (hstill rfl)
  · split at hs
    · exact absurd hs (hstill rfl)
    · rename_i hdebug
      refine ⟨by omega, by omega, Bool.eq_false_iff.mpr hdebug, ?_⟩
      cases hd : decode offset contexts with
      | claim context =>
        rw [hd] at hs
        refine ⟨context, rfl, ?_⟩
        change ((s.complete context value).getD s).claimed x = false at hs
        unfold complete at hs
        cases ha : s.accepts context value with
        | none =>
          rw [ha] at hs
          exact absurd hs (hstill rfl)
        | some source =>
          rw [ha] at hs
          have hs' : Function.update s.claimed source false x = false := hs
          by_cases hx : x = source
          · rw [hx]
          · rw [Function.update_of_ne hx, h] at hs'
            cases hs'
      | priority source =>
        rw [hd] at hs
        unfold writeReg at hs
        dsimp only at hs
        split at hs
        · exact absurd hs (hstill rfl)
        · exact absurd hs (hstill rfl)
      | _ =>
        rw [hd] at hs
        exact absurd hs (hstill rfl)

end State

namespace Board

variable {sources contexts : Nat} {b : Board sources contexts}

theorem drive_regs (r : Option (State sources contexts)) : (b.drive r).regs = r.getD b.regs := by
  cases r <;> rfl

theorem drive_pins (r : Option (State sources contexts)) : (b.drive r).pins = b.pins := by
  cases r <;> rfl

/-- What holds of a board at every moment, whatever is done to it. -/
structure Good (b : Board sources contexts) : Prop where
  held : b.regs.Held
  /-- Every context's line is up when it is offered something. -/
  lines : b.lines = b.regs.evaluate

/-- The level the registers see is that of the pin. -/
def Linked (b : Board sources contexts) : Prop :=
  ∀ pin, b.regs.level pin.succ = (b.pins pin).anyHigh

theorem good_new (nets : Fin sources → List WireId) : (Board.new contexts nets).Good where
  held := State.held_new
  lines := by
    funext context
    rcases (State.new sources contexts).best_cases context with ⟨h, _⟩ | ⟨h, _⟩
    · exact (decide_eq_false fun hne => hne h).symm
    · exact absurd h.pending (by simp [State.new])

theorem linked_new (nets : Fin sources → List WireId) : (Board.new contexts nets).Linked := by
  intro pin
  exact (List.any_eq_false.mpr fun _ _ => Bool.false_ne_true).symm

theorem Good.drive (h : b.Good) {r : Option (State sources contexts)}
    (hr : ∀ t, r = some t → t.Held) : (b.drive r).Good := by
  cases r with
  | none => exact h
  | some t => exact ⟨hr t rfl, rfl⟩

theorem good_step (h : b.Good) (op : Op sources) : (b.step op).Good := by
  cases op with
  | level pin driver level =>
    have hpins : ({ b with pins := Function.update b.pins pin ((b.pins pin).set driver level) } :
        Board sources contexts).Good := ⟨h.held, h.lines⟩
    exact hpins.drive fun t ht => h.held.setLevel (Fin.succ_ne_zero pin) ht
  | read offset length debug =>
    exact h.drive ((b.regs.read_effect offset length debug).held h.held)
  | write offset length value debug =>
    exact h.drive ((b.regs.write_effect offset length value debug).held h.held)
  | reset =>
    refine h.drive (r := some (.new sources contexts)) fun t ht => ?_
    obtain rfl := Option.some.inj ht
    exact State.held_new

/-- No pin is driven. -/
def Low (b : Board sources contexts) : Prop := ∀ pin, (b.pins pin).anyHigh = false

theorem Linked.effect (h : b.Linked) {r : Option (State sources contexts)}
    (he : b.regs.Effect r) : (b.drive r).Linked := by
  cases r with
  | none => exact h
  | some t =>
    intro pin
    change t.level pin.succ = (b.pins pin).anyHigh
    rw [he.level t rfl]
    exact h pin

theorem linked_step (h : b.Linked) {op : Op sources} (hop : op = .reset → b.Low) :
    (b.step op).Linked := by
  cases op with
  | level pin driver level =>
    intro pin'
    change ((b.setLevel pin driver level).regs).level pin'.succ
      = ((b.setLevel pin driver level).pins pin').anyHigh
    unfold setLevel
    rw [drive_regs, drive_pins, State.setLevel_level]
    dsimp only
    by_cases hp : pin' = pin
    · rw [hp, Function.update_self, Function.update_self]
    · rw [Function.update_of_ne hp, Function.update_of_ne fun he => hp (Fin.succ_inj.mp he)]
      exact h pin'
  | read offset length debug => exact h.effect (b.regs.read_effect offset length debug)
  | write offset length value debug => exact h.effect (b.regs.write_effect offset length value debug)
  | reset =>
    intro pin
    exact (hop rfl pin).symm

def run (b : Board sources contexts) (ops : List (Op sources)) : Board sources contexts :=
  ops.foldl step b

theorem run_append (ops more : List (Op sources)) : b.run (ops ++ more) = (b.run ops).run more :=
  List.foldl_append

theorem good_run (h : b.Good) (ops : List (Op sources)) : (b.run ops).Good := by
  induction ops generalizing b with
  | nil => exact h
  | cons op ops ih => exact ih (good_step h op)

/-- A successful claim of a source: the read of a claim register that returns it. -/
def Claims (b : Board sources contexts) (op : Op sources) (source : Fin (sources + 1)) : Prop :=
  source ≠ 0 ∧ ∃ offset context, op = .read offset 4 false ∧ offset % 4 = 0
    ∧ decode offset contexts = .claim context ∧ b.regs.best context = source

/-- An accepted completion of a source. -/
def Completes (b : Board sources contexts) (op : Op sources) (source : Fin (sources + 1)) : Prop :=
  ∃ offset value context, op = .write offset 4 value false ∧ offset % 4 = 0
    ∧ decode offset contexts = .claim context ∧ b.regs.accepts context value = some source

variable {source : Fin (sources + 1)}

theorem Claims.regs {op : Op sources} (h : b.Claims op source) :
    b.regs.pending source = true ∧ (b.step op).regs = b.regs.take source := by
  obtain ⟨hne, offset, context, rfl, hmod, hdec, rfl⟩ := h
  refine ⟨(State.best_offers hne).pending, ?_⟩
  change (b.drive _).regs = _
  unfold State.read
  rw [if_neg (by simp [hmod]), hdec]
  unfold State.readReg State.claim
  dsimp only
  rw [if_neg (by simp), if_pos hne]
  rfl

theorem claimed_ends {op : Op sources} (h : b.regs.claimed source = true)
    (hs : (b.step op).regs.claimed source = false) : b.Completes op source ∨ op = .reset := by
  cases op with
  | level pin driver level =>
    have hsame : (b.step (.level pin driver level)).regs.claimed = b.regs.claimed := by
      change (b.setLevel pin driver level).regs.claimed = _
      unfold setLevel
      rw [drive_regs, State.setLevel_claimed]
    rw [hsame, h] at hs
    cases hs
  | read offset length debug =>
    have hkeep := State.read_claimed offset length debug h
    change (b.drive _).regs.claimed source = false at hs
    rw [drive_regs, hkeep] at hs
    cases hs
  | write offset length value debug =>
    change (b.drive _).regs.claimed source = false at hs
    rw [drive_regs] at hs
    obtain ⟨rfl, hmod, rfl, context, hdec, hacc⟩ := State.write_claimed h hs
    exact Or.inl ⟨offset, value, context, rfl, hmod, hdec, hacc⟩
  | reset => exact Or.inr rfl

theorem claimed_ends_run {ops : List (Op sources)} (h : b.regs.claimed source = true)
    (hs : (b.run ops).regs.claimed source = false) :
    ∃ before op after, ops = before ++ op :: after
      ∧ ((b.run before).Completes op source
        ∨ (op = .reset ∧ (b.run before).regs.claimed source = true)) := by
  induction ops generalizing b with
  | nil => exact absurd hs (by rw [show b.run [] = b from rfl, h]; decide)
  | cons op ops ih =>
    cases hc : (b.step op).regs.claimed source with
    | true =>
      obtain ⟨before, op', after, hops, hend⟩ := ih hc hs
      exact ⟨op :: before, op', after, by rw [hops]; rfl, hend⟩
    | false =>
      refine ⟨[], op, ops, rfl, ?_⟩
      rcases claimed_ends h hc with hcomp | hreset
      · exact Or.inl hcomp
      · exact Or.inr ⟨hreset, h⟩

end Board

open Board

section Promise

variable {sources contexts : Nat}

/-- A line that is up belongs to a source that is offered or being handled. -/
def Board.Kept (b : Board sources contexts) : Prop :=
  ∀ pin, (b.pins pin).anyHigh = true →
    b.regs.pending pin.succ = true ∨ b.regs.claimed pin.succ = true

/-- What the gateways owe a state. -/
structure Board.Exact (b : Board sources contexts) : Prop where
  /-- No source is both pending and claimed. -/
  exclusive : ∀ x, ¬ (b.regs.pending x = true ∧ b.regs.claimed x = true)
  /-- A claim returns the lowest-numbered source of the highest priority a context is
  offered, or 0 if it is offered none. -/
  best : ∀ context, (b.regs.claim context).2 = b.regs.best context
    ∧ (b.regs.best context = 0 ↔ ∀ x, ¬ b.regs.Offers context x)
    ∧ (b.regs.best context ≠ 0 → b.regs.Offers context (b.regs.best context)
      ∧ ∀ x, b.regs.Offers context x → b.regs.priority x < b.regs.priority (b.regs.best context)
        ∨ (b.regs.priority x = b.regs.priority (b.regs.best context)
          ∧ b.regs.best context ≤ x))
  /-- Every context's line is up exactly when it would be given something. -/
  lines : ∀ context, b.lines context = decide (b.regs.best context ≠ 0)

/-- Two successful claims of one source, and what lies between them. -/
def Between (b : Board sources contexts) (ops : List (Op sources))
    (ends : Board sources contexts → Op sources → Fin (sources + 1) → Prop) : Prop :=
  ∀ before first mid second after x, ops = before ++ first :: (mid ++ second :: after) →
    (b.run before).Claims first x → (b.run (before ++ first :: mid)).Claims second x →
    ∃ mid₁ op mid₂, mid = mid₁ ++ op :: mid₂ ∧ ends (b.run (before ++ first :: mid₁)) op x

/-- The whole promise: at every moment of a run, and of every two claims in it. -/
structure Offering (b : Board sources contexts) (ops : List (Op sources)) : Prop where
  kept : ∀ before after, ops = before ++ after → (b.run before).Kept
  exact : ∀ before after, ops = before ++ after → (b.run before).Exact
  between : Between b ops Completes

/-- Every reset of a run finds the board in such a state. -/
def AtResets (b : Board sources contexts) (ops : List (Op sources))
    (P : Board sources contexts → Prop) : Prop :=
  ∀ before after, ops = before ++ .reset :: after → P (b.run before)

variable {b : Board sources contexts}

theorem Board.Good.exact (h : b.Good) : b.Exact where
  exclusive := h.held.exclusive
  best := by
    intro context
    refine ⟨rfl, ?_, fun hne => ⟨State.best_offers hne, ?_⟩⟩
    · rcases b.regs.best_cases context with ⟨h0, hnone⟩ | ⟨hoff, _⟩
      · exact ⟨fun _ => hnone, fun _ => h0⟩
      · exact ⟨fun h0 => absurd h0 hoff.ne_zero, fun hno => absurd hoff (hno _)⟩
    · rcases b.regs.best_cases context with ⟨h0, _⟩ | ⟨_, hbest⟩
      · exact absurd h0 hne
      · exact hbest
  lines := by
    intro context
    rw [h.lines]
    rfl

theorem between_run (h : b.Good) (ops : List (Op sources)) :
    Between b ops fun b op x => b.Completes op x ∨ (op = .reset ∧ b.regs.claimed x = true) := by
  intro before first mid second after x _ hfirst hsecond
  have htaken : ((b.run before).step first).regs.claimed x = true := by
    rw [hfirst.regs.2]
    exact Function.update_self ..
  have hrun : b.run (before ++ first :: mid) = ((b.run before).step first).run mid := run_append _ _
  have hfree : (((b.run before).step first).run mid).regs.claimed x = false := by
    rw [← hrun]
    have hx := (good_run h (before ++ first :: mid)).held.exclusive x
    cases hc : (b.run (before ++ first :: mid)).regs.claimed x with
    | false => rfl
    | true => exact absurd ⟨hsecond.regs.1, hc⟩ hx
  obtain ⟨mid₁, op, mid₂, hmid, hend⟩ := claimed_ends_run htaken hfree
  refine ⟨mid₁, op, mid₂, hmid, ?_⟩
  rw [show b.run (before ++ first :: mid₁) = ((b.run before).step first).run mid₁ from
    run_append _ _]
  exact hend

theorem linked_run (h : b.Linked) {ops : List (Op sources)} (hlow : AtResets b ops Board.Low) :
    (b.run ops).Linked := by
  induction ops generalizing b with
  | nil => exact h
  | cons op ops ih =>
    refine ih (linked_step h fun hop => ?_) fun before after hops => ?_
    · exact hlow [] ops (by rw [hop]; rfl)
    · exact hlow (op :: before) after (by rw [hops]; rfl)

theorem Board.Good.kept (h : b.Good) (hl : b.Linked) : b.Kept := by
  intro pin hup
  exact h.held.kept pin.succ (Fin.succ_ne_zero pin) ((hl pin).trans hup)

theorem low_of_kept_reset (h : (b.step .reset).Kept) : b.Low := by
  intro pin
  cases hup : (b.pins pin).anyHigh with
  | false => rfl
  | true =>
    rcases h pin hup with hp | hc
    · exact absurd hp (by simp [step, drive, State.new])
    · exact absurd hc (by simp [step, drive, State.new])

/--
**The gateways forget no asserted source, exactly when no reset finds a line up.** For any
number of sources and contexts, any nets, and any run from the moment the board is built:
what is offered, to whom and once only is exact throughout; a source whose line is up is
pending or claimed at every moment if and only if every reset finds all lines low; and when
moreover none finds a source claimed, everything promised holds.
-/
theorem gateways (contexts : Nat) (nets : Fin sources → List WireId) (ops : List (Op sources)) :
    (∀ before after, ops = before ++ after → ((new contexts nets).run before).Exact)
      ∧ Between (new contexts nets) ops
        (fun b op x => b.Completes op x ∨ (op = .reset ∧ b.regs.claimed x = true))
      ∧ ((∀ before after, ops = before ++ after → ((new contexts nets).run before).Kept)
        ↔ AtResets (new contexts nets) ops Board.Low)
      ∧ (AtResets (new contexts nets) ops Board.Low →
        AtResets (new contexts nets) ops (fun b => ∀ x, b.regs.claimed x = false) →
        Offering (new contexts nets) ops) := by
  have hgood : (new contexts nets).Good := good_new nets
  have hexact : ∀ before after, ops = before ++ after →
      ((new contexts nets).run before).Exact := fun before _ _ => (good_run hgood before).exact
  have hbetween := between_run hgood ops
  have hkept : AtResets (new contexts nets) ops Board.Low → ∀ before after,
      ops = before ++ after → ((new contexts nets).run before).Kept := by
    intro hlow before after hops
    refine (good_run hgood before).kept (linked_run (linked_new nets) fun b' a' hb => ?_)
    exact hlow b' (a' ++ after) (by rw [hops, hb, List.append_assoc, List.cons_append])
  refine ⟨hexact, hbetween, ⟨fun hk before after hops => ?_, hkept⟩, fun hlow hidle => ?_⟩
  · have hstep := hk (before ++ [.reset]) after (by rw [hops, List.append_assoc]; rfl)
    rw [run_append] at hstep
    exact low_of_kept_reset hstep
  · refine ⟨hkept hlow, hexact, fun before first mid second after x hops hfirst hsecond => ?_⟩
    obtain ⟨mid₁, op, mid₂, hmid, hend⟩ := hbetween _ _ _ _ _ _ hops hfirst hsecond
    refine ⟨mid₁, op, mid₂, hmid, ?_⟩
    rcases hend with hcomp | ⟨rfl, hclaimed⟩
    · exact hcomp
    · -- a reset in between found the source claimed
      have := hidle (before ++ first :: mid₁) (mid₂ ++ second :: after)
        (by rw [hops, hmid]; simp) x
      rw [this] at hclaimed
      exact absurd hclaimed (by decide)

end Promise

/-- A source whose line goes up, and a reset of the controller: the line is still up, and
nothing is pending or claimed. -/
theorem reset_forgets : ¬ ∀ (sources contexts : Nat) (nets : Fin sources → List WireId)
    (ops : List (Op sources)), Offering (new contexts nets) ops := by
  intro h
  have hkept := (h 1 1 (fun _ => [0]) [.level 0 0 true, .reset]).kept _ [] (List.append_nil _).symm
  have hlost := hkept 0 (by decide)
  exact absurd hlost (by decide)

end Rsemu.Plic
