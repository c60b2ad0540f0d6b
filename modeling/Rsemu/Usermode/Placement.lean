import Mathlib.Order.Lattice.Nat
import Rsemu.Base.SortedMap
import Rsemu.Base.Word
import Rsemu.Space.Region

/-!
# Placing a mapping

An unplaced mapping goes as high as it fits: the search starts below the hint and steps down to
the start of whatever range is in its way. `search_spec` is what it keeps true on the way, that no
place lies above where it has got to.

A step goes down because the range in the way starts below the end of the place that is tried,
and that takes a place with bytes in it. No bytes at the hint are in the way of the range the hint
lies in, which starts where the next try starts too. And a range with no bytes stops the search as
one with bytes does. `placement_exact_iff` says that nothing else goes wrong.
-/

namespace Rsemu.Usermode

open Word

def pageSize : Nat := 4096

/-- One range, by its length; its permissions, its storage and its name do not bear on where
another goes. -/
structure Vma where
  len : Nat

/-- The ranges by base, and where to place the next unplaced one. -/
structure Inner where
  vmas : SortedMap Nat Vma
  /-- Where an unplaced mapping search starts, growing downwards. -/
  hint : Nat
  /-- The lowest address an unplaced mapping may be given. -/
  floor : Nat

/-- Why no range is found. -/
inductive PlacementError where
  | placement (floor top : Nat)
  | length (len : Nat)
  | noRoom (len floor : Nat)

namespace Inner

/-- The base of a range in the way of the place that ends at `candidateEnd`: the highest range
that starts at or below `base` may still overlap, and so may the first one that starts inside. -/
def clash (i : Inner) (base candidateEnd : Nat) : Option Nat :=
  (((i.vmas.lastAtMost base).filter fun e => base < e.1 + e.2.len).map (·.1)).or
    ((i.vmas.firstWithin base candidateEnd).map (·.1))

/-- The search, downwards from `candidateEnd`. `none` when it is still at it after `steps`. -/
def search (i : Inner) (len : Nat) : Nat → Nat → Option (Except PlacementError Nat)
  | 0, _ => none
  | steps + 1, candidateEnd =>
    if candidateEnd < saturatingAdd 64 i.floor len then some (.error (.noRoom len i.floor))
    else
      let base := candidateEnd - len
      match i.clash base candidateEnd with
      | some vbase => i.search len steps vbase
      | none => some (.ok base)

def freeRange (i : Inner) (len steps : Nat) : Option (Except PlacementError Nat) :=
  i.search len steps i.hint

def findFree (i : Inner) (len steps : Nat) : Option (Except PlacementError Nat) :=
  i.freeRange len steps

/-- Disjoint page-aligned ranges below 2⁶⁴, and a floor and a hint that `setPlacement` takes. -/
structure Valid (i : Inner) : Prop where
  base_aligned : ∀ e ∈ i.vmas.entries, pageSize ∣ e.1
  end_lt : ∀ e ∈ i.vmas.entries, e.1 + e.2.len < 2 ^ 64
  disjoint : ∀ e ∈ i.vmas.entries, ∀ f ∈ i.vmas.entries, e.1 < f.1 → e.1 + e.2.len ≤ f.1
  hint_aligned : pageSize ∣ i.hint
  hint_lt : i.hint < 2 ^ 64
  floor_lt : i.floor < i.hint

/-- The mapping and the range share a byte. -/
def Meets (e : Nat × Vma) (base len : Nat) : Prop :=
  ∃ a, e.1 ≤ a ∧ a < e.1 + e.2.len ∧ base ≤ a ∧ a < base + len

def places (i : Inner) (len : Nat) : Set Nat :=
  {base | i.floor ≤ base ∧ base + len ≤ i.hint ∧ ∀ e ∈ i.vmas.entries, ¬ Meets e base len}

/-- The search ends, with the highest base there is, and with an error if there is none. -/
def PlacesExactly (i : Inner) (len : Nat) : Prop :=
  ∃ steps r, i.freeRange len steps = some r ∧
    (∀ base, r = .ok base → IsGreatest (i.places len) base) ∧
    (∀ e, r = .error e → i.places len = ∅)

section

variable {i : Inner} {len : Nat}

/-- A place for the range at which no mapping starts. -/
def Clear (i : Inner) (len base : Nat) : Prop :=
  base ∈ i.places len ∧ ∀ e ∈ i.vmas.entries, ¬ (base ≤ e.1 ∧ e.1 < base + len)

theorem meets_of_start {e : Nat × Vma} {base : Nat} (hbytes : 0 < e.2.len) (hle : base ≤ e.1)
    (hlt : e.1 < base + len) : Meets e base len :=
  ⟨e.1, Nat.le_refl _, Nat.lt_add_of_pos_right hbytes, hle, hlt⟩

variable {candidateEnd : Nat}

theorem not_meets_of_clash (h : i.Valid) {base : Nat} (hnone : i.clash base candidateEnd = none)
    (hend : candidateEnd = base + len) :
    ∀ e ∈ i.vmas.entries, ¬ Meets e base len ∧ ¬ (base ≤ e.1 ∧ e.1 < base + len) := by
  obtain ⟨hlast, hfirst⟩ := Option.or_eq_none_iff.mp hnone
  rw [Option.map_eq_none_iff] at hlast hfirst
  have hwithin := SortedMap.firstWithin_eq_none hfirst
  intro e he
  have hstart : ¬ (base ≤ e.1 ∧ e.1 < base + len) := by
    rintro ⟨hle, hlt⟩
    have := hwithin e he hle
    omega
  refine ⟨?_, hstart⟩
  rintro ⟨a, hea, hae, hba, hab⟩
  -- A range that starts above `base` starts behind the place.
  have hbelow : e.1 ≤ base := by
    by_contra habove
    exact hstart ⟨by omega, by omega⟩
  cases hat : i.vmas.lastAtMost base with
  | none => exact absurd (SortedMap.lastAtMost_eq_none hat e he) (by omega)
  | some l =>
    obtain ⟨hl, -, hmax⟩ := SortedMap.lastAtMost_eq_some hat
    rw [hat, Option.filter_eq_none_iff] at hlast
    have hends : l.1 + l.2.len ≤ base := by
      have := hlast l rfl
      simpa using this
    rcases hmax e he hbelow with rfl | hlt
    · omega
    · have := h.disjoint e he l hl hlt
      omega

theorem clash_eq_some {base vbase : Nat} (hclash : i.clash base candidateEnd = some vbase)
    (hend : candidateEnd = base + len) :
    ∃ e ∈ i.vmas.entries, e.1 = vbase ∧ (0 < len → vbase < candidateEnd) ∧
      ∀ b, i.Clear len b → 0 < len → b + len ≤ candidateEnd → b + len ≤ vbase := by
  rcases Option.or_eq_some_iff.mp hclash with hlast | ⟨-, hfirst⟩
  · obtain ⟨e, he, rfl⟩ := Option.map_eq_some_iff.mp hlast
    obtain ⟨hat, hover⟩ := Option.filter_eq_some_iff.mp he
    obtain ⟨hmem, hle, -⟩ := SortedMap.lastAtMost_eq_some hat
    have hover : base < e.1 + e.2.len := of_decide_eq_true hover
    refine ⟨e, hmem, rfl, fun hpos => by omega, ?_⟩
    rintro b ⟨⟨-, -, hfree⟩, -⟩ hpos hb
    by_contra habove
    -- The place starts at or below `base` and ends above the range's start, so they meet.
    exact hfree e hmem ⟨max b e.1, by omega, by omega, by omega, by omega⟩
  · obtain ⟨e, he, rfl⟩ := Option.map_eq_some_iff.mp hfirst
    obtain ⟨hmem, hlo, hhi⟩ := SortedMap.firstWithin_eq_some he
    refine ⟨e, hmem, rfl, fun _ => hhi, ?_⟩
    rintro b ⟨-, hstart⟩ - hb
    by_contra habove
    exact hstart e hmem ⟨by omega, by omega⟩

theorem floor_check (i : Inner) (len : Nat) (haligned : pageSize ∣ candidateEnd)
    (hlt : candidateEnd < 2 ^ 64) :
    candidateEnd < saturatingAdd 64 i.floor len ↔ candidateEnd < i.floor + len := by
  unfold saturatingAdd
  obtain ⟨k, rfl⟩ := haligned
  unfold pageSize at hlt ⊢
  omega

theorem search_succ {steps : Nat} (hcheck : ¬ candidateEnd < saturatingAdd 64 i.floor len) :
    i.search len (steps + 1) candidateEnd = match i.clash (candidateEnd - len) candidateEnd with
      | some vbase => i.search len steps vbase
      | none => some (.ok (candidateEnd - len)) :=
  if_neg hcheck

theorem search_spec (h : i.Valid) (hlen : 0 < len) (haligned : pageSize ∣ candidateEnd)
    (hhint : candidateEnd ≤ i.hint) (habove : ∀ b, i.Clear len b → b + len ≤ candidateEnd) :
    ∃ r, i.search len (candidateEnd + 1) candidateEnd = some r ∧
      (∀ base, r = .ok base → IsGreatest {b | i.Clear len b} base) ∧
      (∀ e, r = .error e → ∀ b, ¬ i.Clear len b) := by
  have hmono : ∀ n c, c ≤ n → pageSize ∣ c → c ≤ i.hint → (∀ b, i.Clear len b → b + len ≤ c) →
      ∃ r, i.search len (n + 1) c = some r ∧
        (∀ base, r = .ok base → IsGreatest {b | i.Clear len b} base) ∧
        (∀ e, r = .error e → ∀ b, ¬ i.Clear len b) := by
    intro n
    induction n with
    | zero =>
      intro c hc haligned hhint habove
      have hrefused := (floor_check i len haligned
        (Nat.lt_of_le_of_lt hhint h.hint_lt)).mpr (by omega)
      refine ⟨_, if_pos hrefused, fun base hr => (nomatch hr), fun _ _ b hb => ?_⟩
      have := habove b hb
      omega
    | succ n ih =>
      intro c hc haligned hhint habove
      have hcheck := floor_check i len haligned
        (Nat.lt_of_le_of_lt hhint h.hint_lt)
      by_cases hlow : c < i.floor + len
      · refine ⟨_, if_pos (hcheck.mpr hlow), fun base hr => (nomatch hr), fun _ _ b hb => ?_⟩
        have := habove b hb
        have := hb.1.1
        omega
      · have hend : c = c - len + len := by omega
        rw [search_succ fun hlt => hlow (hcheck.mp hlt)]
        cases hclash : i.clash (c - len) c with
        | none =>
          have hfree := not_meets_of_clash h hclash hend
          refine ⟨_, rfl, fun base hr => ?_, fun e hr => (nomatch hr)⟩
          obtain rfl := Except.ok.inj hr
          refine ⟨⟨⟨by omega, by omega, fun e he => (hfree e he).1⟩, fun e he => (hfree e he).2⟩,
            fun b hb => ?_⟩
          have := habove b hb
          omega
        | some vbase =>
          obtain ⟨e, he, rfl, hlt, hclear⟩ := clash_eq_some hclash hend
          have hdown := hlt hlen
          exact ih e.1 (by omega) (h.base_aligned e he) (by omega)
            fun b hb => hclear b hb hlen (habove b hb)
  exact hmono candidateEnd candidateEnd (Nat.le_refl _) haligned hhint habove

theorem search_more {steps more : Nat} {r : Except PlacementError Nat} (hle : steps ≤ more)
    (h : i.search len steps candidateEnd = some r) : i.search len more candidateEnd = some r := by
  induction steps generalizing more candidateEnd with
  | zero => cases h
  | succ steps ih =>
    obtain ⟨n, rfl⟩ : ∃ n, more = n + 1 := ⟨more - 1, by omega⟩
    by_cases hlow : candidateEnd < saturatingAdd 64 i.floor len
    · rw [search, if_pos hlow] at h ⊢
      exact h
    · rw [search_succ hlow] at h ⊢
      cases hclash : i.clash (candidateEnd - len) candidateEnd with
      | none =>
        rw [hclash] at h
        exact h
      | some vbase =>
        rw [hclash] at h
        exact ih (by omega) h

theorem mem_places_zero {base : Nat} : base ∈ i.places 0 ↔ i.floor ≤ base ∧ base ≤ i.hint := by
  refine ⟨fun hb => ⟨hb.1, hb.2.1⟩, fun hb => ⟨hb.1, hb.2, ?_⟩⟩
  rintro e - ⟨a, -, -, hba, hab⟩
  omega

theorem search_zero_ne_ok (h : i.Valid) {e : Nat × Vma} (he : e ∈ i.vmas.entries)
    (hle : e.1 ≤ candidateEnd) (hlt : candidateEnd < e.1 + e.2.len) (steps base : Nat) :
    i.search 0 steps candidateEnd ≠ some (.ok base) := by
  induction steps generalizing candidateEnd with
  | zero => exact fun hr => nomatch hr
  | succ steps ih =>
    by_cases hlow : candidateEnd < saturatingAdd 64 i.floor 0
    · rw [search, if_pos hlow]
      exact fun hr => nomatch hr
    · have hlast : i.vmas.lastAtMost candidateEnd = some e := by
        cases hat : i.vmas.lastAtMost candidateEnd with
        | none => exact absurd (SortedMap.lastAtMost_eq_none hat e he) (Nat.not_lt.mpr hle)
        | some l =>
          obtain ⟨hl, hlle, hmax⟩ := SortedMap.lastAtMost_eq_some hat
          rcases hmax e he hle with rfl | hbefore
          · rfl
          · have := h.disjoint e he l hl hbefore
            omega
      have hclash : i.clash (candidateEnd - 0) candidateEnd = some e.1 := by
        unfold clash
        rw [Nat.sub_zero, hlast]
        have hover : (some e).filter (fun e => candidateEnd < e.1 + e.2.len) = some e :=
          Option.filter_eq_some_iff.mpr ⟨rfl, decide_eq_true hlt⟩
        rw [hover]
        rfl
      rw [search_succ hlow, hclash]
      exact ih (Nat.le_refl _) (by omega)

end

/-- What placement asks of a length and of the ranges: no bytes are not looked for in a range, and
no empty range stands in the place that is to be found. -/
structure Placeable (i : Inner) (len : Nat) : Prop where
  off_ranges : len = 0 → ∀ e ∈ i.vmas.entries, ¬ (e.1 ≤ i.hint ∧ i.hint < e.1 + e.2.len)
  no_empty : ∀ e ∈ i.vmas.entries, e.2.len = 0 → ∀ base, IsGreatest (i.places len) base →
    ¬ (base ≤ e.1 ∧ e.1 < base + len)

section

variable {i : Inner} {len : Nat}

theorem clear_of_greatest {base : Nat} (hbase : IsGreatest (i.places len) base)
    (hempty : ∀ e ∈ i.vmas.entries, e.2.len = 0 → ¬ (base ≤ e.1 ∧ e.1 < base + len)) :
    i.Clear len base := by
  refine ⟨hbase.1, fun e he hin => ?_⟩
  rcases Nat.eq_zero_or_pos e.2.len with hzero | hbytes
  · exact hempty e he hzero hin
  · exact hbase.1.2.2 e he (meets_of_start hbytes hin.1 hin.2)

theorem exists_greatest {base : Nat} (h : base ∈ i.places len) :
    ∃ top, IsGreatest (i.places len) top := by
  have hbdd : BddAbove (i.places len) := ⟨i.hint, fun b hb => by
    have := hb.2.1
    omega⟩
  exact ⟨sSup (i.places len), Nat.sSup_mem ⟨base, h⟩ hbdd, fun b hb => le_csSup hbdd hb⟩

theorem places_zero_iff (h : i.Valid) :
    i.PlacesExactly 0 ↔ ∀ e ∈ i.vmas.entries, ¬ (e.1 ≤ i.hint ∧ i.hint < e.1 + e.2.len) := by
  have hfloor := h.floor_lt
  have htop : IsGreatest (i.places 0) i.hint :=
    ⟨mem_places_zero.mpr ⟨Nat.le_of_lt hfloor, Nat.le_refl _⟩, fun b hb => hb.2.1⟩
  constructor
  · rintro ⟨steps, r, hr, hok, herror⟩ e he ⟨hle, hlt⟩
    cases r with
    | ok base => exact search_zero_ne_ok h he hle hlt steps base hr
    | error err =>
      have hnone := herror err rfl
      rw [Set.eq_empty_iff_forall_notMem] at hnone
      exact hnone _ htop.1
  · intro hoff
    have hcheck : ¬ i.hint < saturatingAdd 64 i.floor 0 := fun hlow =>
      absurd ((floor_check i _ h.hint_aligned h.hint_lt).mp hlow) (by omega)
    have hclash : i.clash (i.hint - 0) i.hint = none := by
      refine Option.or_eq_none_iff.mpr ⟨?_, ?_⟩
      · rw [Option.map_eq_none_iff, Option.filter_eq_none_iff]
        intro e he hover
        obtain ⟨hmem, hle, -⟩ := SortedMap.lastAtMost_eq_some he
        exact hoff e hmem ⟨hle, of_decide_eq_true hover⟩
      · cases hfirst : i.vmas.firstWithin (i.hint - 0) i.hint with
        | none => rfl
        | some e =>
          have := SortedMap.firstWithin_eq_some hfirst
          omega
    have hsearch : i.freeRange 0 1 = some (.ok i.hint) := by
      unfold freeRange
      rw [search_succ hcheck, hclash]
      rfl
    refine ⟨1, _, hsearch, fun base hr => ?_, fun e hr => (nomatch hr)⟩
    obtain rfl := Except.ok.inj hr
    exact htop

end

/-- **Placement is exact where no bytes are not looked for in a range**, and no empty range stands
in the place. -/
theorem placesExactly_iff {i : Inner} (h : i.Valid) (len : Nat) :
    i.PlacesExactly len ↔ i.Placeable len := by
  rcases Nat.eq_zero_or_pos len with rfl | hlen
  · rw [places_zero_iff h]
    refine ⟨fun hoff => ⟨fun _ => hoff, fun e _ _ base _ hin => ?_⟩, fun hp => hp.off_ranges rfl⟩
    omega
  obtain ⟨r, hr, hok, herror⟩ := search_spec h hlen h.hint_aligned (Nat.le_refl _)
    fun b hb => hb.1.2.1
  constructor
  · rintro ⟨steps, r', hr', hok', herror'⟩
    -- Both runs of the search end the same.
    obtain rfl : r = r' := by
      have hone := search_more (Nat.le_max_left (i.hint + 1) steps) hr
      have htwo := search_more (Nat.le_max_right (i.hint + 1) steps) hr'
      exact Option.some.inj (hone.symm.trans htwo)
    refine ⟨fun hzero => absurd hzero (Nat.ne_of_gt hlen), fun e he hempty top htop hin => ?_⟩
    cases r with
    | ok base =>
      have hclear := (hok base rfl).1
      rw [(hok' base rfl).unique htop] at hclear
      exact hclear.2 e he hin
    | error err =>
      have hnone := herror' err rfl
      rw [Set.eq_empty_iff_forall_notMem] at hnone
      exact hnone top htop.1
  · intro hp
    have hclear : ∀ top, IsGreatest (i.places len) top → i.Clear len top := fun top htop =>
      clear_of_greatest htop fun e he hempty => hp.no_empty e he hempty top htop
    refine ⟨i.hint + 1, r, hr, fun base hbase => ?_, fun e he => ?_⟩
    · have hgreatest := hok base hbase
      obtain ⟨top, htop⟩ := exists_greatest hgreatest.1.1
      have hle : top ≤ base := hgreatest.2 (hclear top htop)
      obtain rfl : top = base := Nat.le_antisymm hle (htop.2 hgreatest.1.1)
      exact htop
    · rw [Set.eq_empty_iff_forall_notMem]
      intro b hb
      obtain ⟨top, htop⟩ := exists_greatest hb
      exact herror e he top (hclear top htop)

def pageAtHint : Inner := ⟨SortedMap.empty.insert 65536 ⟨4096⟩, 65536, 4096⟩

theorem valid_pageAtHint : pageAtHint.Valid where
  base_aligned := by decide
  end_lt := by decide
  disjoint := by decide
  hint_aligned := by decide
  hint_lt := by decide
  floor_lt := by decide

theorem placesExactly_iff_pageAtHint : pageAtHint.PlacesExactly 4096 ↔ pageAtHint.Placeable 4096 :=
  placesExactly_iff valid_pageAtHint 4096

/-- No bytes are asked for with a page at the hint, and the search never ends. -/
theorem search_never_ends : pageAtHint.Valid ∧
    (∀ steps, pageAtHint.findFree 0 steps = none) ∧ ¬ pageAtHint.PlacesExactly 0 := by
  have hturn : ∀ steps, pageAtHint.search 0 (steps + 1) 65536 = pageAtHint.search 0 steps 65536 :=
    fun _ => rfl
  have hnever : ∀ steps, pageAtHint.findFree 0 steps = none := by
    intro steps
    induction steps with
    | zero => rfl
    | succ steps ih => exact (hturn steps).trans ih
  refine ⟨valid_pageAtHint, hnever, ?_⟩
  rintro ⟨steps, r, hr, -⟩
  have hnone : pageAtHint.freeRange 0 steps = none := hnever steps
  rw [hnone] at hr
  cases hr

end Inner

end Rsemu.Usermode
