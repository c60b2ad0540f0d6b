import Rsemu.Pic.Requests

/-!
# Interrupts in nested order

Without rotation, automatic EOI or one of the special modes, an acknowledge is answered only
by a level above everything in service. So the levels in service are a stack: the latest is
the highest, and a non-specific EOI, which ends the highest, ends the latest. `Watched` runs a
chip beside that stack and beside what its edge latch may stand for, and `Nested` ties the
registers to both.

An ELCR write changes a line's input path and does not reach into the latch: a line that is
made edge-triggered keeps the request that mirrored its pin until then, which is acknowledged
once more without a rise (`sense_toggled_again`).
-/

namespace Rsemu.Pic

open Arbiter State

def elcrMask : Mode → Byte
  | .master => ~~~0b00000111
  | .slave => ~~~0b00100001
  | .single => 0xff

namespace State

def writeElcr (s : State) (value : Byte) : State :=
  let s := { s with elcr := value, elcrWritten := true }
  { s with irr := (s.irr &&& ~~~s.levelMask) ||| (s.pinLevel &&& s.levelMask) }

theorem has_foldl_bit (p : Level → Bool) (lines : List Level) (mask : Byte) (k : Level) :
    Byte.has (lines.foldl (fun mask line => if p line then mask ||| bit line else mask) mask) k =
      (Byte.has mask k || (decide (k ∈ lines) && p k)) := by
  induction lines generalizing mask with
  | nil => simp
  | cons line lines ih =>
    rw [List.foldl_cons, ih]
    by_cases hk : k = line
    · subst hk
      cases p k <;> simp
    · cases p line <;> simp [hk]

theorem has_levelMask (s : State) (line : Level) :
    Byte.has s.levelMask line = s.lineIsLevel line := by
  unfold levelMask
  rw [has_foldl_bit s.lineIsLevel, Byte.has_zero]
  simp

theorem has_writeElcr_irr (s : State) (value : Byte) (line : Level) :
    Byte.has (s.writeElcr value).irr line =
      if Byte.has value line then Byte.has s.pinLevel line else Byte.has s.irr line := by
  unfold writeElcr
  dsimp only
  rw [Byte.has_or, Byte.has_and, Byte.has_and, Byte.has_not, has_levelMask]
  have hlevel : ({ s with elcr := value, elcrWritten := true } : State).lineIsLevel line =
      Byte.has value line := rfl
  rw [hlevel]
  cases Byte.has value line <;> simp

end State

/-- A chip on its board, the level it last drove its `INT` to, and what happened to it. -/
structure Watched where
  mode : Mode
  chip : State
  out : Bool
  /-- The levels acknowledged and not ended yet, the latest first. -/
  nested : List Level
  /-- Whether a pin has risen since its line was last acknowledged. -/
  risen : Level → Bool
  /-- Whether a line was made edge-triggered with its pin high, and has not been acknowledged or
  made level-triggered since. -/
  kept : Level → Bool

/-- What can happen to a chip. -/
inductive Event where
  | pin (line : Level) (high : Bool)
  | elcr (value : Byte)
  | write (port : Nat) (value : Byte)
  | inta

/-- An OCW2 that ends the interrupt of highest priority. -/
def IsNonspecific (value : Byte) : Prop := value &&& 0xf8 = 0x20

instance (value : Byte) : Decidable (IsNonspecific value) := by
  unfold IsNonspecific
  infer_instance

namespace Watched

def refresh (w : Watched) : Watched := { w with out := w.chip.resolve.isSome }

def answer (w : Watched) : Byte := w.chip.vector w.chip.takeRequest.2

/-- One operation, with what is watched brought up to date. -/
def step (w : Watched) : Event → Watched
  | .pin line high =>
    refresh { w with
      chip := w.chip.setPin line high
      risen := fun k => w.risen k || (decide (k = line) && high && !Byte.has w.chip.pinLevel k) }
  | .elcr value =>
    refresh { w with
      chip := w.chip.writeElcr (value &&& elcrMask w.mode)
      kept := fun k => !Byte.has (value &&& elcrMask w.mode) k &&
        if w.chip.lineIsLevel k then Byte.has w.chip.pinLevel k else w.kept k }
  | .write port value =>
    refresh { w with
      chip := w.chip.writePort port value
      nested := if port = 0 ∧ IsNonspecific value then w.nested.tail else w.nested }
  | .inta =>
    refresh { w with
      chip := w.chip.takeRequest.1
      nested := w.chip.takeRequest.2.toList ++ w.nested
      risen := fun k => w.risen k && !decide (w.chip.takeRequest.2 = some k)
      kept := fun k => w.kept k && !decide (w.chip.takeRequest.2 = some k) }

def states : Watched → List Event → List Watched
  | w, [] => [w]
  | w, e :: es => w :: (w.step e).states es

/-- ICW1 was just written to a chip that did anything before; what is left of its initialisation
are writes to port 1. -/
def Begun (w : Watched) : Prop :=
  ∃ (s : State) (icw1 : Byte), w.chip = s.beginInit icw1 ∧ w.out = w.chip.resolve.isSome ∧
    w.nested = [] ∧ ∀ line, w.risen line = false ∧ w.kept line = false

/-- **An event of a nested run**: pins, the ELCR, acknowledges, non-specific EOIs, masks, and the
words that finish the initialisation with no automatic EOI and no special fully nested mode. -/
def Plain (w : Watched) : Event → Prop
  | .write port value =>
    (port = 0 → IsNonspecific value) ∧
      (port ≠ 0 → (w.chip.writePort port value).autoEoi = false ∧
        (w.chip.writePort port value).sfnm = false)
  | _ => True

/-- Every event of a run is as said, in the state it happens in. -/
def All (p : Watched → Event → Prop) : Watched → List Event → Prop
  | _, [] => True
  | w, e :: es => p w e ∧ All p (w.step e) es

/-- An acknowledge is answered by the highest unmasked request, from above everything in service,
and puts it in service. -/
def Preempts (w : Watched) (line : Level) : Prop :=
  (∀ k, Byte.has w.chip.isr k = true → line < k) ∧
    Byte.has w.chip.candidates line = true ∧
    (∀ k, Byte.has w.chip.candidates k = true → line ≤ k) ∧
    w.answer = w.chip.vectorBase ||| BitVec.ofNat 8 line.val ∧
    (w.step .inta).chip.isr = w.chip.isr ||| bit line

/-- **What is promised of a chip in a state of a nested run**, and of an acknowledge and an EOI
that come next. -/
structure Nests (w : Watched) : Prop where
  /-- An acknowledge that is not spurious nests. -/
  ack : ∀ line, w.chip.resolve = some line → w.Preempts line
  /-- A non-specific EOI clears the level of the latest acknowledge not ended, and no other. -/
  eoi : ∀ value, IsNonspecific value →
    (w.step (.write 0 value)).chip.isr = w.chip.isr &&& ~~~(w.nested.head?.elim 0 bit) ∧
      ∀ line, w.nested.head? = some line → Byte.has w.chip.isr line = true
  /-- A level-triggered line is requested exactly while its pin is high. -/
  level : ∀ line, w.chip.lineIsLevel line = true →
    Byte.has w.chip.irr line = Byte.has w.chip.pinLevel line
  /-- An edge-triggered line is acknowledged only for a rise that was not acknowledged yet, or for
  the request it kept when an ELCR write made it edge-triggered. -/
  edge : ∀ line, w.chip.resolve = some line → w.chip.lineIsLevel line = false →
    w.risen line = true ∨ w.kept line = true
  /-- `INT` is driven as the resolver has it. -/
  int : w.out = w.chip.resolve.isSome

/-- **What ties a chip of a nested run to its history.** -/
structure Nested (w : Watched) : Prop where
  base : w.chip.priorityBase = 0
  special : w.chip.specialMask = false
  autoEoi : w.chip.autoEoi = false
  sfnm : w.chip.sfnm = false
  /-- What is in service was acknowledged and not ended. -/
  served : ∀ k, Byte.has w.chip.isr k = true ↔ k ∈ w.nested
  /-- Each level acknowledged is above those before it. -/
  sorted : w.nested.Pairwise (· < ·)
  mirrored : ∀ k, w.chip.lineIsLevel k = true → Byte.has w.chip.irr k = Byte.has w.chip.pinLevel k
  latched : ∀ k, w.chip.lineIsLevel k = false → Byte.has w.chip.irr k = true →
    w.risen k = true ∨ w.kept k = true
  driven : w.out = w.chip.resolve.isSome

variable {w : Watched}

section

variable (h : w.Nested)
include h

theorem Nested.serving : first w.chip.priorityBase (Byte.has w.chip.isr) = w.nested.head? := by
  rw [h.base]
  cases hn : w.nested with
  | nil =>
    refine first_eq_none.mpr fun line => Bool.eq_false_iff.mpr fun hline => ?_
    have := (h.served line).mp hline
    rw [hn] at this
    cases this
  | cons a rest =>
    have hsorted := h.sorted
    rw [hn] at hsorted
    refine first_eq_some.mpr ⟨?_, fun j hj => Bool.eq_false_iff.mpr fun hline => ?_⟩
    · rw [show levelAt 0 a = a from zero_add a]
      exact (h.served a).mpr (hn ▸ List.mem_cons_self)
    · rw [show levelAt 0 j = j from zero_add j] at hline
      have hmem := (h.served j).mp hline
      rw [hn] at hmem
      -- nothing acknowledged is above the latest
      rcases List.mem_cons.mp hmem with heq | hrest
      · exact absurd heq (ne_of_lt hj)
      · exact absurd (List.rel_of_pairwise_cons hsorted hrest) (lt_asymm hj)

theorem Nested.nonspecificEoi :
    w.chip.nonspecificEoi = (w.nested.head?.elim w.chip w.chip.retire, w.nested.head?) := by
  have hserving : w.chip.serving = w.nested.head? := by
    unfold State.serving
    rw [h.serving, h.base]
    cases w.nested.head? with
    | none => rfl
    | some a => exact congrArg some (zero_add a)
  unfold State.nonspecificEoi
  rw [hserving]

theorem Nested.resolved {line : Level} (hr : w.chip.resolve = some line) :
    (∀ k ∈ w.nested, line < k) ∧ Byte.has w.chip.candidates line = true ∧
      ∀ k, Byte.has w.chip.candidates k = true → line ≤ k := by
  obtain ⟨i, hi, hpass, rfl⟩ := resolve_eq_some.mp hr
  rw [h.base] at hi ⊢
  rw [show levelAt 0 i = i from zero_add i]
  obtain ⟨hasked, hbefore⟩ := first_eq_some.mp hi
  rw [show levelAt 0 i = i from zero_add i] at hasked
  refine ⟨fun k hk => ?_, hasked, fun k hk => not_lt.mp fun hlt => ?_⟩
  · have hblocked : i.val < w.chip.blockedAt := by
      rcases hpass with hlt | ⟨_, hsfnm⟩
      · exact hlt
      · cases h.sfnm.symm.trans hsfnm
    unfold blockedAt inServicePriority at hblocked
    rw [h.special, h.serving] at hblocked
    cases hn : w.nested with
    | nil =>
      rw [hn] at hk
      cases hk
    | cons a rest =>
      have hsorted := h.sorted
      rw [hn] at hblocked hk hsorted
      have hia : i < a := hblocked
      rcases List.mem_cons.mp hk with rfl | hrest
      · exact hia
      · exact hia.trans (List.rel_of_pairwise_cons hsorted hrest)
  · have := hbefore k hlt
    rw [show levelAt 0 k = k from zero_add k, hk] at this
    cases this

omit h in
theorem writeCommand_of_nonspecific (s : State) {value : Byte} (h : IsNonspecific value) :
    s.writeCommand value = s.nonspecificEoi.1 := by
  have hbits : ∀ value : Byte, value &&& 0xf8 = 0x20 →
      value &&& 0x10 = 0 ∧ value &&& 0x08 = 0 ∧ (value >>> 5).toNat = 1 := by decide
  obtain ⟨hinit, hocw3, hkind⟩ := hbits value h
  unfold writeCommand
  rw [hinit, hocw3]
  unfold writeOcw2
  rw [hkind]
  rfl

theorem Nested.nests : w.Nests where
  ack := by
    intro line hr
    obtain ⟨habove, hasked, hhighest⟩ := h.resolved hr
    refine ⟨fun k hk => habove k ((h.served k).mp hk), hasked, hhighest, ?_, ?_⟩
    · change w.chip.vector w.chip.resolve = _
      rw [hr]
      rfl
    · change w.chip.takeRequest.1.isr = _
      rw [Pair.takeRequest_eq_taken hr, taken_eq, h.autoEoi]
      rfl
  eoi := by
    intro value hvalue
    constructor
    · change (w.chip.writeCommand value).isr = _
      rw [writeCommand_of_nonspecific _ hvalue, h.nonspecificEoi]
      cases w.nested.head? with
      | none => exact (BitVec.and_allOnes).symm
      | some a => rfl
    · intro line hline
      exact (h.served line).mpr (List.mem_of_mem_head? hline)
  level := h.mirrored
  edge := by
    intro line hr hedge
    obtain ⟨_, hasked, _⟩ := h.resolved hr
    unfold candidates at hasked
    rw [Byte.has_and, Bool.and_eq_true] at hasked
    exact h.latched line hedge hasked.1
  int := h.driven

theorem nested_pin {line : Level} {high : Bool} :
    (w.step (.pin line high)).Nested where
  base := h.base
  special := h.special
  autoEoi := h.autoEoi
  sfnm := h.sfnm
  served := h.served
  sorted := h.sorted
  mirrored := by
    intro k hlevel
    have hlevel' : w.chip.lineIsLevel k = true := hlevel
    change Byte.has (w.chip.setPin line high).irr k = Byte.has (w.chip.setPin line high).pinLevel k
    rw [has_setPin_pinLevel]
    by_cases hk : k = line
    · subst hk
      unfold setPin
      dsimp only
      rw [if_pos hlevel']
      cases high <;> simp
    · rw [if_neg hk, has_setPin_irr_of_ne _ _ _ _ hk]
      exact h.mirrored k hlevel'
  latched := by
    intro k hedge hirr
    have hedge' : w.chip.lineIsLevel k = false := hedge
    have hirr' : Byte.has (w.chip.setPin line high).irr k = true := hirr
    change (w.risen k || (decide (k = line) && high && !Byte.has w.chip.pinLevel k)) = true ∨ _
    have hstays : Byte.has w.chip.irr k = true →
        (w.risen k || (decide (k = line) && high && !Byte.has w.chip.pinLevel k)) = true ∨
          w.kept k = true :=
      fun hold => (h.latched k hedge' hold).imp_left fun hr => by rw [hr, Bool.true_or]
    by_cases hk : k = line
    · rw [hk] at hedge' hirr' hstays ⊢
      rw [has_setPin_irr_of_edge _ _ _ hedge', Bool.or_eq_true] at hirr'
      rcases hirr' with hold | hrise
      · exact hstays hold
      · rw [decide_eq_true rfl, Bool.true_and, hrise, Bool.or_true]
        exact Or.inl rfl
    · rw [has_setPin_irr_of_ne _ _ _ _ hk] at hirr'
      exact hstays hirr'
  driven := rfl

theorem nested_elcr {value : Byte} : (w.step (.elcr value)).Nested where
  base := h.base
  special := h.special
  autoEoi := h.autoEoi
  sfnm := h.sfnm
  served := h.served
  sorted := h.sorted
  mirrored := by
    intro k hlevel
    have hlevel' : Byte.has (value &&& elcrMask w.mode) k = true := hlevel
    change Byte.has (w.chip.writeElcr (value &&& elcrMask w.mode)).irr k = _
    rw [has_writeElcr_irr, if_pos hlevel']
    rfl
  latched := by
    intro k hedge hirr
    have hedge' : Byte.has (value &&& elcrMask w.mode) k = false := hedge
    have hirr' : Byte.has (w.chip.writeElcr (value &&& elcrMask w.mode)).irr k = true := hirr
    rw [has_writeElcr_irr, if_neg (by simp [hedge'])] at hirr'
    change w.risen k = true ∨ (!Byte.has (value &&& elcrMask w.mode) k && _) = true
    rw [hedge', Bool.not_false, Bool.true_and]
    cases hwas : w.chip.lineIsLevel k with
    | true =>
      -- the latch holds what mirrored the pin
      exact Or.inr ((h.mirrored k hwas).symm.trans hirr')
    | false => exact h.latched k hwas hirr'
  driven := rfl

theorem nested_inta : (w.step .inta).Nested := by
  cases hr : w.chip.resolve with
  | none =>
    have hsame : w.step .inta = w := by
      have hchip : w.chip.takeRequest = (w.chip, none) := by
        unfold takeRequest
        rw [hr]
        rfl
      have hsame : ∀ f : Level → Bool,
          (fun k => f k && !decide ((none : Option Level) = some k)) = f :=
        fun f => funext fun k => by simp
      unfold step refresh
      simp only [hchip]
      rw [hsame, hsame, ← h.driven]
      rfl
    rw [hsame]
    exact h
  | some line =>
    obtain ⟨habove, _, _⟩ := h.resolved hr
    have hchip : (w.step .inta).chip = w.chip.taken line := Pair.takeRequest_eq_taken hr
    have hnested : (w.step .inta).nested = line :: w.nested := by
      change w.chip.resolve.toList ++ w.nested = _
      rw [hr]
      rfl
    have htaken : ∀ f : Level → Bool, ∀ k,
        (f k && !decide (w.chip.resolve = some k)) = (f k && !decide (k = line)) := by
      intro f k
      rw [hr]
      simp [eq_comm]
    have hlevel : ∀ k, (w.chip.taken line).lineIsLevel k = w.chip.lineIsLevel k := by
      intro k
      rw [taken_eq]
      rfl
    have hbase := congrArg State.priorityBase (@taken_eq w.chip line)
    rw [h.autoEoi] at hbase
    exact {
      base := by rw [hchip, hbase]; exact h.base
      special := by rw [hchip, taken_eq]; exact h.special
      autoEoi := by rw [hchip, taken_eq]; exact h.autoEoi
      sfnm := by rw [hchip, taken_eq]; exact h.sfnm
      served := by
        intro k
        rw [hchip, hnested, taken_eq, h.autoEoi, List.mem_cons, ← h.served k]
        simp [or_comm]
      sorted := by
        rw [hnested]
        exact List.pairwise_cons.mpr ⟨habove, h.sorted⟩
      mirrored := by
        intro k hk
        rw [hchip] at hk ⊢
        rw [hlevel] at hk
        rw [taken_eq]
        split
        · exact h.mirrored k hk
        · rename_i hedge
          have hne : k ≠ line := fun heq => hedge (heq ▸ hk)
          simp [hne, h.mirrored k hk]
      latched := by
        intro k hk hirr
        rw [hchip] at hk hirr
        rw [hlevel] at hk
        change (w.risen k && !decide (w.chip.resolve = some k)) = true ∨
          (w.kept k && !decide (w.chip.resolve = some k)) = true
        rw [htaken, htaken]
        rw [taken_eq] at hirr
        by_cases hkl : k = line
        · -- the latch has just been consumed
          rw [← hkl, if_neg (by simp [hk])] at hirr
          simp at hirr
        · have hold : Byte.has w.chip.irr k = true := by
            split at hirr
            · exact hirr
            · simpa [hkl] using hirr
          simpa [hkl] using h.latched k hk hold
      driven := rfl }

theorem nested_eoi {value : Byte} (hvalue : IsNonspecific value) :
    (w.step (.write 0 value)).Nested := by
  have hchip : (w.step (.write 0 value)).chip = w.nested.head?.elim w.chip w.chip.retire := by
    change w.chip.writeCommand value = _
    rw [writeCommand_of_nonspecific _ hvalue, h.nonspecificEoi]
  have hnested : (w.step (.write 0 value)).nested = w.nested.tail := if_pos ⟨rfl, hvalue⟩
  have hframe : (w.step (.write 0 value)).chip =
      { w.chip with isr := (w.step (.write 0 value)).chip.isr } := by
    rw [hchip]
    cases w.nested.head? <;> rfl
  have hisr : ∀ k, Byte.has (w.step (.write 0 value)).chip.isr k = true ↔ k ∈ w.nested.tail := by
    intro k
    rw [hchip]
    have hserved := h.served k
    have hsorted := h.sorted
    cases hn : w.nested with
    | nil => simpa [hn] using hserved
    | cons a rest =>
      rw [hn] at hserved hsorted
      change Byte.has (w.chip.isr &&& ~~~bit a) k = true ↔ k ∈ rest
      rw [Byte.has_and, Byte.has_not, Byte.has_bit, Bool.and_eq_true, hserved, List.mem_cons]
      constructor
      · rintro ⟨heq | hrest, hne⟩
        · simp [heq] at hne
        · exact hrest
      · intro hrest
        have hlt := List.rel_of_pairwise_cons hsorted hrest
        exact ⟨Or.inr hrest, by simp [ne_of_gt hlt]⟩
  exact {
    base := by rw [hframe]; exact h.base
    special := by rw [hframe]; exact h.special
    autoEoi := by rw [hframe]; exact h.autoEoi
    sfnm := by rw [hframe]; exact h.sfnm
    served := by rw [hnested]; exact hisr
    sorted := by rw [hnested]; exact h.sorted.tail
    mirrored := by rw [hframe]; exact h.mirrored
    latched := by rw [hframe]; exact h.latched
    driven := rfl }

omit h in
theorem writePort_frame (s : State) {port : Nat} (value : Byte) (hport : port ≠ 0) :
    s.writePort port value =
      { s with
        imr := (s.writePort port value).imr, vectorBase := (s.writePort port value).vectorBase
        icw3 := (s.writePort port value).icw3, initStep := (s.writePort port value).initStep
        autoEoi := (s.writePort port value).autoEoi, sfnm := (s.writePort port value).sfnm } := by
  unfold writePort
  rw [if_neg hport]
  split
  · unfold initWord
    split
    · rfl
    · split <;> rfl
  · rfl

theorem nested_word {port : Nat} {value : Byte} (hport : port ≠ 0)
    (hauto : (w.chip.writePort port value).autoEoi = false)
    (hsfnm : (w.chip.writePort port value).sfnm = false) : (w.step (.write port value)).Nested := by
  have hframe := writePort_frame w.chip value hport
  have hchip : (w.step (.write port value)).chip = w.chip.writePort port value := rfl
  have hnested : (w.step (.write port value)).nested = w.nested := if_neg fun hp => hport hp.1
  exact {
    base := by rw [hchip, hframe]; exact h.base
    special := by rw [hchip, hframe]; exact h.special
    autoEoi := hauto
    sfnm := hsfnm
    served := by rw [hnested, hchip, hframe]; exact h.served
    sorted := by rw [hnested]; exact h.sorted
    mirrored := by rw [hchip, hframe]; exact h.mirrored
    latched := by rw [hchip, hframe]; exact h.latched
    driven := rfl }

theorem nested_step {e : Event} (hplain : w.Plain e) : (w.step e).Nested := by
  cases e with
  | pin line high => exact nested_pin h
  | elcr value => exact nested_elcr h
  | inta => exact nested_inta h
  | write port value =>
    by_cases hport : port = 0
    · subst hport
      exact nested_eoi h (hplain.1 rfl)
    · exact nested_word h hport (hplain.2 hport).1 (hplain.2 hport).2

omit h in
theorem Begun.nested (h : w.Begun) : w.Nested := by
  obtain ⟨s, icw1, hchip, hout, hnested, hrisen⟩ := h
  have hirr : ∀ k, Byte.has w.chip.irr k =
      (Byte.has w.chip.pinLevel k && w.chip.lineIsLevel k) := by
    intro k
    rw [hchip, ← has_levelMask]
    unfold beginInit
    rw [Byte.has_and]
    rfl
  exact {
    base := by rw [hchip]; rfl
    special := by rw [hchip]; rfl
    autoEoi := by rw [hchip]; rfl
    sfnm := by rw [hchip]; rfl
    served := by
      intro k
      rw [hnested, hchip]
      change Byte.has 0 k = true ↔ _
      rw [Byte.has_zero]
      simp
    sorted := by rw [hnested]; exact List.Pairwise.nil
    mirrored := by
      intro k hk
      rw [hirr, hk, Bool.and_true]
    latched := by
      intro k hk hirr'
      rw [hirr, hk, Bool.and_false] at hirr'
      cases hirr'
    driven := hout }

theorem Nested.states {es : List Event} (hplain : All Plain w es) :
    ∀ w' ∈ w.states es, w'.Nested := by
  induction es generalizing w with
  | nil =>
    intro w' hw'
    rw [List.mem_singleton.mp hw']
    exact h
  | cons e es ih =>
    intro w' hw'
    rcases List.mem_cons.mp hw' with rfl | hrest
    · exact h
    · exact ih (nested_step h hplain.1) hplain.2 w' hrest

end

/-- **A nested run nests**: an 8259A initialised with its special modes off keeps every promise in
every state of a run of pins, ELCR writes, acknowledges, masks and non-specific EOIs. -/
theorem nested_run {es : List Event} (hbegun : w.Begun) (hplain : All Plain w es) :
    ∀ w' ∈ w.states es, w'.Nests :=
  fun w' hw' => (Nested.states hbegun.nested hplain w' hw').nests

instance (w : Watched) (e : Event) : Decidable (w.Plain e) := by
  cases e <;> unfold Plain <;> infer_instance

instance decidableAll (p : Watched → Event → Prop) [∀ w e, Decidable (p w e)] :
    ∀ (w : Watched) (es : List Event), Decidable (All p w es)
  | _, [] => isTrue trivial
  | w, e :: es =>
    have := decidableAll p (w.step e) es
    inferInstanceAs (Decidable (p w e ∧ All p (w.step e) es))

def initialised : Watched :=
  ⟨.single, ({} : State).beginInit 0x13, false, [], fun _ => false, fun _ => false⟩

theorem initialised_begun : initialised.Begun := ⟨{}, 0x13, rfl, by decide, rfl, fun _ => ⟨rfl, rfl⟩⟩

/-- Three requests, each above the one in service, the last on a line that is made
level-triggered before it. -/
def preempted : List Event :=
  [.write 1 0x08, .write 1 0x01, .pin 5 true, .inta, .pin 3 true, .inta, .elcr 0x04, .pin 2 true,
    .inta]

theorem preempted_nests :
    ∃ w' ∈ initialised.states preempted, w'.nested = [2, 3, 5] ∧ w'.Nests := by
  have hmem : preempted.foldl step initialised ∈ initialised.states preempted := by
    repeat first | exact List.mem_singleton_self _ | refine List.mem_cons_of_mem _ ?_
  exact ⟨_, hmem, by decide,
    nested_run initialised_begun (by decide) _ hmem⟩

/-- A line acknowledged and ended, its pin high all along, that is made level-triggered and
edge-triggered again. -/
def toggled : List Event :=
  [.write 1 0x08, .write 1 0x01, .pin 3 true, .inta, .write 0 0x20, .elcr 0x08, .elcr 0x00]

/-- **One rise is acknowledged twice** on an edge-triggered line. -/
theorem sense_toggled_again :
    initialised.Begun ∧ All Plain initialised toggled ∧
      ∃ w' ∈ initialised.states toggled,
        w'.chip.resolve = some 3 ∧ w'.chip.lineIsLevel 3 = false ∧ w'.risen 3 = false := by
  have hmem : toggled.foldl step initialised ∈ initialised.states toggled := by
    repeat first | exact List.mem_singleton_self _ | refine List.mem_cons_of_mem _ ?_
  exact ⟨initialised_begun, by decide, _, hmem, by decide, by decide, by decide⟩

end Watched

end Rsemu.Pic
