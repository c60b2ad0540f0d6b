import Mathlib.Algebra.Order.BigOperators.Group.List
import Rsemu.Props.Syntax

/-!
# Property text is read exactly

Each parser answers with what its text denotes, or refuses; nothing wraps. What `displayDuration`
and `formatSize` print is read back as it was.

A duration is where this fails. Its first part may not have a minus, but the sign of any later
part is read and dropped, so `1h-30m` is an hour and a half. `Overlooked` says which texts that
happens to, and `reads_back_iff` that nothing else is read for what it is not.
-/

namespace Rsemu.Props

variable (u : Unicode)

/-- **What is promised of a text**, and of every value printed. -/
structure Exact (text : String) : Prop where
  printedDuration : ∀ d : UInt64, parseDuration u (displayDuration d.toNat) = .ok d.toNat
  printedSize : ∀ n : UInt64, parseSize u (formatSize n.toNat) = .ok n.toNat
  uint : ∀ v, parseUint text = .ok v → v < 2 ^ 64 ∧ IntText (trim text.toList) v
  int : ∀ z, parseInt text = .ok z → (-2 ^ 63 ≤ z ∧ z < 2 ^ 63) ∧ IntText (trim text.toList) z
  size : ∀ n, parseSize u text = .ok n → n < 2 ^ 64 ∧ SizeText u (trim text.toList) n
  duration : ∀ d, parseDuration u text = .ok d →
    d < 2 ^ 64 ∧ ∃ ps, Parts u (trim text.toList) ps ∧ (d : Int) = (ps.map Part.picos).sum
  minus : ∀ ps, Parts u (trim text.toList) ps → (∃ p ∈ ps, p.negative = true) →
    ∀ d, parseDuration u text ≠ .ok d

/-- **A duration with a minus that is not looked at**: some part after the first has it, and the
sum of the parts fits without their signs. -/
def Overlooked (s : List Char) : Prop :=
  ∃ p ps, Parts u s (p :: ps) ∧ p.negative = false ∧ (∃ q ∈ ps, q.negative = true) ∧
    ((p :: ps).map Part.size).sum < 2 ^ 64

variable {u}

theorem signed_of_unsigned {negative : Bool} {v : Nat} (h : ¬ (negative = true ∧ v ≠ 0)) :
    (v : Int) = signed negative v := by
  unfold signed
  cases negative with
  | false => rfl
  | true =>
    have hv : v = 0 := by simpa using h
    simp [hv]

variable {text : String} {s : List Char}

theorem parseUnsigned_exact {what : String} {v : Nat} (h : parseUnsigned text what = .ok v) :
    v < 2 ^ 64 ∧ IntText (trim text.toList) v := by
  unfold parseUnsigned at h
  rcases hsplit : splitNumber (trim text.toList) with ⟨num, rest⟩
  rw [hsplit] at h
  dsimp only at h
  split at h
  · cases h
  · rename_i hrest
    obtain ⟨⟨negative, value⟩, hread, h⟩ := Fallible.ok_of_bind h
    dsimp only at h
    split at h
    · cases h
    · rename_i hsign
      cases h
      obtain ⟨hs, hnum, hv⟩ := number_of_scanned hsplit hread
      rw [not_not.mp hrest] at hs hnum
      rw [List.append_nil] at hs
      rw [hs]
      exact ⟨hv, negative, v, hnum, signed_of_unsigned hsign⟩

theorem parseInt_exact {z : Int} (h : parseInt text = .ok z) :
    (-2 ^ 63 ≤ z ∧ z < 2 ^ 63) ∧ IntText (trim text.toList) z := by
  unfold parseInt at h
  rcases hsplit : splitNumber (trim text.toList) with ⟨num, rest⟩
  rw [hsplit] at h
  dsimp only at h
  split at h
  · cases h
  · rename_i hrest
    obtain ⟨⟨negative, magnitude⟩, hread, h⟩ := Fallible.ok_of_bind h
    have hwide : (if -2 ^ 63 ≤ signed negative magnitude ∧ signed negative magnitude < 2 ^ 63 then
        .ok (signed negative magnitude)
      else propErr _) = Except.ok z := h
    split at hwide
    · rename_i hrange
      cases hwide
      obtain ⟨hs, hnum, -⟩ := number_of_scanned hsplit hread
      rw [not_not.mp hrest] at hs hnum
      rw [List.append_nil] at hs
      rw [hs]
      exact ⟨hrange, negative, magnitude, hnum, rfl⟩
    · cases hwide

theorem sizeExponent_eq_some {c : Char} {k : Nat} (h : sizeExponent c = some k) :
    (c, k) ∈ [('k', 1), ('m', 2), ('g', 3), ('t', 4), ('p', 5), ('e', 6)] := by
  unfold sizeExponent at h
  repeat'
    first
    | cases h; rename_i hc; rw [hc]; decide
    | cases h
    | split at h

theorem multiplier_of_sizeMultiplier {orig : String} {suffix : List Char} {mult : Nat}
    (h : sizeMultiplier u orig suffix = .ok mult) : Multiplier u suffix mult := by
  cases suffix with
  | nil =>
    cases h
    exact .none
  | cons c chars =>
    unfold sizeMultiplier at h
    dsimp only at h
    split at h
    · rename_i hb
      split at h
      · rename_i htail
        cases h
        exact .bytes hb htail
      · cases h
    · cases hk : sizeExponent c.toLower with
      | none =>
        rw [hk] at h
        cases h
      | some k =>
        rw [hk] at h
        dsimp only at h
        split at h
        · rename_i htail
          cases h
          have hpow : 1 <<< (10 * k) = 1024 ^ k := by
            rw [Nat.shiftLeft_eq, one_mul, pow_mul]
            rfl
          rw [hpow]
          exact .binary (sizeExponent_eq_some hk) htail
        · cases h

theorem parseSize_exact {n : Nat} (h : parseSize u text = .ok n) :
    n < 2 ^ 64 ∧ SizeText u (trim text.toList) n := by
  unfold parseSize at h
  rcases hsplit : splitNumber (trim text.toList) with ⟨num, suffix⟩
  rw [hsplit] at h
  dsimp only at h
  obtain ⟨⟨negative, value⟩, hread, h⟩ := Fallible.ok_of_bind h
  split at h
  · cases h
  · rename_i hsign
    obtain ⟨mult, hmult, h⟩ := Fallible.ok_of_bind h
    cases hprod : Word.checkedMul 64 value mult with
    | none =>
      rw [hprod] at h
      cases h
    | some m =>
      rw [hprod] at h
      cases h
      obtain ⟨hlt, rfl⟩ := Word.checkedMul_eq_some.mp hprod
      obtain ⟨hs, hnum, -⟩ := number_of_scanned hsplit hread
      refine ⟨hlt, num, suffix, negative, value, mult, hs, hnum,
        multiplier_of_sizeMultiplier hmult, ?_⟩
      rw [← signed_of_unsigned hsign]
      exact Int.natCast_mul value mult

theorem durationScale_nil : durationScale u [] = none := rfl

theorem unit_cut {unit tail : List Char} (hunit : ∀ c ∈ unit, u.isAlphabetic c = true)
    (htail : tail.head?.any u.isAlphabetic = false) :
    (unit ++ tail).takeWhile u.isAlphabetic = unit ∧
      (unit ++ tail).dropWhile u.isAlphabetic = tail := by
  rw [List.takeWhile_append_of_pos hunit, List.dropWhile_append_of_pos hunit]
  cases tail with
  | nil => simp
  | cons c tail =>
    have hc : ¬ u.isAlphabetic c = true := by simpa using htail
    rw [List.takeWhile_cons_of_neg hc, List.dropWhile_cons_of_neg hc, List.append_nil]
    exact ⟨rfl, rfl⟩

theorem addPart_eq_some {total value scale sum : Nat} :
    (Word.checkedMul 64 value scale).bind (Word.checkedAdd 64 total ·) = some sum ↔
      sum = total + value * scale ∧ sum < 2 ^ 64 := by
  rw [Option.bind_eq_some_iff]
  constructor
  · rintro ⟨part, hpart, hadd⟩
    obtain ⟨-, rfl⟩ := Word.checkedMul_eq_some.mp hpart
    obtain ⟨hlt, rfl⟩ := Word.checkedAdd_eq_some.mp hadd
    exact ⟨rfl, hlt⟩
  · rintro ⟨rfl, hlt⟩
    exact ⟨value * scale, Word.checkedMul_eq_some.mpr ⟨by omega, rfl⟩,
      Word.checkedAdd_eq_some.mpr ⟨hlt, rfl⟩⟩

theorem durationScale_pos {unit : List Char} {scale : Nat} (h : durationScale u unit = some scale) :
    0 < scale := by
  unfold durationScale at h
  dsimp only at h
  repeat'
    first
    | cases h; decide
    | cases h
    | split at h

theorem partsFrom_of_parts {ps : List Part} (h : Parts u s ps) {fuel total sum : Nat}
    (hfuel : s.length ≤ fuel) (htotal : total < 2 ^ 64) :
    partsFrom u text fuel total s = .ok sum ↔
      sum = total + (ps.map Part.size).sum ∧ sum < 2 ^ 64 := by
  induction h generalizing fuel total with
  | nil =>
    have hdone : partsFrom u text fuel total [] = .ok total := by
      cases fuel <;> rfl
    rw [hdone, List.map_nil, List.sum_nil, Nat.add_zero, Except.ok.injEq]
    exact ⟨fun he => ⟨he.symm, he ▸ htotal⟩, fun he => he.1.symm⟩
  | @cons num unit tail p ps hnum hunit htail hscale hrest ih =>
    obtain ⟨hsplit, hread⟩ := @Number.scanned text "duration" _ _ _ _ hnum
    obtain ⟨hne, -⟩ := hnum.head? []
    obtain ⟨htake, hdrop⟩ := unit_cut hunit htail
    have hunitne : unit ≠ [] := fun hnil => by
      rw [hnil, durationScale_nil] at hscale
      cases hscale
    have hscalepos := durationScale_pos hscale
    obtain ⟨fuel, rfl⟩ : ∃ n, fuel = n + 1 := by
      cases fuel with
      | zero =>
        rw [List.length_append] at hfuel
        have := List.length_pos_iff.mpr hne
        omega
      | succ n => exact ⟨n, rfl⟩
    rw [List.map_cons, List.sum_cons]
    unfold partsFrom
    rw [if_neg (by simp [hne]), hsplit]
    dsimp only
    rw [if_neg hne]
    by_cases hv : p.magnitude < 2 ^ 64
    · rw [(hread _ _).mpr ⟨rfl, rfl, hv⟩]
      change (if _ then _ else _) = _ ↔ _
      rw [htake, hdrop, if_neg hunitne, hscale]
      dsimp only
      cases hadd : (Word.checkedMul 64 p.magnitude p.scale).bind (Word.checkedAdd 64 total ·) with
      | none =>
        refine ⟨fun he => (nomatch he), ?_⟩
        rintro ⟨rfl, hlt⟩
        have hpart : total + p.magnitude * p.scale < 2 ^ 64 := by
          unfold Part.size at hlt
          omega
        rw [addPart_eq_some.mpr ⟨rfl, hpart⟩] at hadd
        cases hadd
      | some next =>
        obtain ⟨rfl, hlt⟩ := addPart_eq_some.mp hadd
        have hshort : tail.length ≤ fuel := by
          have := List.length_pos_iff.mpr hne
          rw [List.length_append, List.length_append] at hfuel
          omega
        rw [← Nat.add_assoc]
        exact ih hshort hlt
    · -- a number that is too large on its own is refused when it is read
      constructor
      · intro he
        obtain ⟨⟨negative, value⟩, hok, -⟩ := Fallible.ok_of_bind he
        exact absurd ((hread _ _).mp hok).2.2 hv
      · rintro ⟨rfl, hlt⟩
        have hpart : p.magnitude ≤ p.size := Nat.le_mul_of_pos_right _ hscalepos
        omega

theorem parts_of_partsFrom {fuel total sum : Nat} (hfuel : s.length ≤ fuel)
    (h : partsFrom u text fuel total s = .ok sum) : ∃ ps, Parts u s ps := by
  induction fuel generalizing total s with
  | zero =>
    have hnil : s = [] := List.length_eq_zero_iff.mp (by omega)
    exact ⟨[], hnil ▸ .nil⟩
  | succ fuel ih =>
    unfold partsFrom at h
    by_cases hnil : s = []
    · exact ⟨[], hnil ▸ .nil⟩
    rw [if_neg hnil] at h
    rcases hsplit : splitNumber s with ⟨num, after⟩
    rw [hsplit] at h
    dsimp only at h
    split at h
    · cases h
    · rename_i hne
      obtain ⟨⟨negative, value⟩, hread, h⟩ := Fallible.ok_of_bind h
      obtain ⟨hs, hnum, -⟩ := number_of_scanned hsplit hread
      split at h
      · cases h
      · cases hscale : durationScale u (after.takeWhile u.isAlphabetic) with
        | none =>
          rw [hscale] at h
          cases h
        | some scale =>
          rw [hscale] at h
          dsimp only at h
          cases hadd : (Word.checkedMul 64 value scale).bind (Word.checkedAdd 64 total ·) with
          | none =>
            rw [hadd] at h
            cases h
          | some next =>
            rw [hadd] at h
            have hafter := List.takeWhile_append_dropWhile (p := u.isAlphabetic) (l := after)
            have hshort : (after.dropWhile u.isAlphabetic).length ≤ fuel := by
              have := List.length_pos_iff.mpr hne
              have := congrArg List.length hafter
              rw [hs, List.length_append] at hfuel
              rw [List.length_append] at this
              omega
            obtain ⟨ps, hps⟩ := ih hshort h
            refine ⟨⟨negative, value, scale⟩ :: ps, ?_⟩
            rw [hs, ← hafter]
            exact .cons (hafter.symm ▸ hnum) (fun c hc => List.mem_takeWhile_imp hc)
              (head?_dropWhile_any _ _) hscale hps

theorem Parts.eq_nil (h : Parts u s []) : s = [] := by
  cases h
  rfl

theorem Parts.head? {p : Part} {ps : List Part} (h : Parts u s (p :: ps)) :
    s ≠ [] ∧ (s.head? = some '-' ↔ p.negative = true) := by
  cases h with
  | cons hnum hunit htail hscale hrest =>
    obtain ⟨hne, hhead⟩ := hnum.head? (_ ++ _)
    exact ⟨by simp [hne], hhead⟩

theorem parseDuration_of_parts {p : Part} {ps : List Part}
    (h : Parts u (trim text.toList) (p :: ps)) (d : Nat) :
    parseDuration u text = .ok d ↔
      p.negative = false ∧ d = ((p :: ps).map Part.size).sum ∧ d < 2 ^ 64 := by
  obtain ⟨hne, hhead⟩ := h.head?
  unfold parseDuration
  dsimp only
  rw [if_neg hne]
  by_cases hneg : p.negative = true
  · rw [if_pos (hhead.mpr hneg)]
    exact ⟨fun he => (nomatch he), fun ⟨hpos, _⟩ => absurd (hneg.symm.trans hpos) (by decide)⟩
  · rw [if_neg (mt hhead.mp hneg), partsFrom_of_parts h le_rfl (by decide), Nat.zero_add]
    exact ⟨fun he => ⟨Bool.not_eq_true _ ▸ hneg, he⟩, fun he => he.2⟩

theorem parts_of_parseDuration {d : Nat} (h : parseDuration u text = .ok d) :
    ∃ p ps, Parts u (trim text.toList) (p :: ps) := by
  unfold parseDuration at h
  dsimp only at h
  split at h
  · cases h
  · rename_i hne
    split at h
    · cases h
    · obtain ⟨ps, hps⟩ := parts_of_partsFrom le_rfl h
      cases ps with
      | nil => exact absurd hps.eq_nil hne
      | cons p ps => exact ⟨p, ps, hps⟩

theorem isDigit_of_printed {n : Nat} {c : Char} (h : c ∈ Nat.toDigits 10 n) : c.isDigit = true :=
  Nat.isDigit_of_mem_toDigits (by decide) (by decide) h

theorem digits_toDigits (n : Nat) : Digits 10 (Nat.toDigits 10 n) n := by
  have hdigit : ∀ c : Char, c.isDigit = true → toDigit 10 c = some (c.toNat - '0'.toNat) := by
    intro c hc
    unfold toDigit
    rw [if_pos hc, if_pos]
    obtain ⟨-, hle⟩ := Char.isDigit_iff_toNat.mp hc
    have hzero : '0'.toNat = 48 := rfl
    have hnine : '9'.toNat = 57 := rfl
    omega
  have hany : ∀ o : Option Char, o ≠ none → (∀ c ∈ o, c ∈ Nat.toDigits 10 n) →
      o.any (isDigit 10) = true := by
    intro o hne hmem
    cases o with
    | none => exact absurd rfl hne
    | some c =>
      rw [Option.any_some]
      unfold isDigit
      rw [hdigit c (isDigit_of_printed (hmem c rfl))]
      rfl
  refine ⟨hany _ ?_ fun c hc => List.mem_of_mem_head? hc, hany _ ?_ fun c hc =>
    List.mem_of_getLast? hc, (Nat.toDigits 10 n).map fun c => c.toNat - '0'.toNat, ?_, ?_⟩
  · simp
  · simp
  · rw [List.filter_eq_self.mpr, List.map_map]
    · exact List.map_congr_left fun c hc => hdigit c (isDigit_of_printed hc)
    · intro c hc
      have hne : c ≠ '_' := fun h => Nat.underscore_not_in_toDigits (h ▸ hc)
      simpa using hne
  · have hread := @Nat.ofDigitChars_ten_toDigits n
    rw [Nat.ofDigits_eq_foldr, List.foldr_reverse, List.foldl_map]
    refine hread.symm.trans (congrArg (fun f => List.foldl f 0 _) ?_)
    funext v c
    exact Nat.add_comm _ _

theorem not_isDigit_of_mark {c : Char} {r : Nat} (h : Mark ['0', c] r) :
    c.isDigit = false ∧ (markerRadix c).isSome = true := by
  refine ⟨?_, by rw [markerRadix_iff.mpr h]; rfl⟩
  cases h with
  | hex hc => rcases hc with rfl | rfl <;> rfl
  | binary hc => rcases hc with rfl | rfl <;> rfl
  | octal hc => rcases hc with rfl | rfl <;> rfl

theorem ends_decimal {digits rest : List Char} (hne : digits ≠ [])
    (hall : ∀ c ∈ digits, c.isDigit = true)
    (hrest : rest.head?.any (fun c => inNumber 10 c || (markerRadix c).isSome) = false) :
    Ends [] digits rest 10 := by
  constructor
  · cases rest with
    | nil => rfl
    | cons c rest =>
      have hc : inNumber 10 c = false ∧ (markerRadix c).isSome = false := by simpa using hrest
      exact hc.1
  · intro _ m r d tail hm hmne htext
    obtain ⟨rfl, -⟩ | ⟨c, rfl⟩ := hm.eq_nil_or
    · exact absurd rfl hmne
    · obtain ⟨hdigit, hmarker⟩ := not_isDigit_of_mark hm
      rcases digits with _ | ⟨a, _ | ⟨b, bs⟩⟩
      · exact absurd rfl hne
      · -- one digit: the marker would have to follow it
        rw [List.cons_append, List.nil_append, List.cons_append, List.cons.injEq] at htext
        have hc : inNumber 10 c = false ∧ (markerRadix c).isSome = false := by
          rw [htext.2] at hrest
          simpa using hrest
        rw [hc.2] at hmarker
        cases hmarker
      · -- two or more: the marker would be one of them
        injection htext with _ htext
        injection htext with hb _
        have := hall b (List.mem_cons_of_mem _ List.mem_cons_self)
        rw [hb, hdigit] at this
        cases this

theorem number_toDigits (n : Nat) {rest : List Char}
    (hrest : rest.head?.any (fun c => inNumber 10 c || (markerRadix c).isSome) = false) :
    Number rest (Nat.toDigits 10 n) false n :=
  @Number.mk rest [] [] _ false 10 n .none .none (digits_toDigits n)
    (ends_decimal Nat.toDigits_ne_nil (fun _ hc => isDigit_of_printed hc) hrest)

theorem trim_eq_self (h : ∀ c ∈ s, isWhitespace c = false) : trim s = s := by
  have hfront : s.dropWhile isWhitespace = s := by
    cases s with
    | nil => rfl
    | cons c s => exact List.dropWhile_cons_of_neg (by simp [h c List.mem_cons_self])
  unfold trim
  rw [hfront, List.rdropWhile_eq_self_iff]
  intro hne
  rw [h _ (List.getLast_mem hne)]
  exact Bool.false_ne_true

theorem not_isWhitespace_of_isDigit {c : Char} (h : c.isDigit = true) : isWhitespace c = false := by
  obtain ⟨hlow, hhigh⟩ := Char.isDigit_iff_toNat.mp h
  have hzero : '0'.toNat = 48 := rfl
  have hnine : '9'.toNat = 57 := rfl
  unfold isWhitespace
  simp only [Bool.or_eq_false_iff, Bool.and_eq_false_iff, decide_eq_false_iff_not]
  omega

theorem trim_toDigits (n : Nat) {rest : List Char} (h : ∀ c ∈ rest, isWhitespace c = false) :
    trim (Nat.toDigits 10 n ++ rest) = Nat.toDigits 10 n ++ rest := by
  refine trim_eq_self fun c hc => ?_
  rcases List.mem_append.mp hc with hc | hc
  · exact not_isWhitespace_of_isDigit (isDigit_of_printed hc)
  · exact h c hc

theorem toList_printed (n : Nat) (name : String) :
    (toString n ++ name).toList = Nat.toDigits 10 n ++ name.toList := by
  rw [String.toList_append, Nat.toString_eq_repr, Nat.toList_repr]

/-- **A unit as it is printed** is one of the units read, whatever the tables say. -/
structure Printed (u : Unicode) (scale : Nat) (name : List Char) : Prop where
  scale : durationScale u name = some scale
  letters : ∀ c ∈ name, u.isAlphabetic c = true ∧ isWhitespace c = false
  plain : name.head?.any (fun c => inNumber 10 c || (markerRadix c).isSome) = false

theorem printed_of_mem {unit : Nat × String} (h : unit ∈ durationUnits) :
    Printed u unit.1 unit.2.toList := by
  have hlower : ∀ name : List Char,
      (name.all fun c => decide (c.toNat < 128) && c.toLower == c) = true →
      name.flatMap u.toLowercase = name := by
    intro name hname
    induction name with
    | nil => rfl
    | cons c name ih =>
      rw [List.all_cons, Bool.and_eq_true, Bool.and_eq_true, decide_eq_true_iff, beq_iff_eq] at hname
      rw [List.flatMap_cons, u.lowercase_ascii c hname.1.1, hname.1.2, ih hname.2]
      rfl
  have hletters : ∀ name : List Char,
      (name.all fun c => decide (c.toNat < 128) && (c.isAlpha && !isWhitespace c)) = true →
      ∀ c ∈ name, u.isAlphabetic c = true ∧ isWhitespace c = false := by
    intro name hname c hc
    have hthis := List.all_eq_true.mp hname c hc
    rw [Bool.and_eq_true, Bool.and_eq_true, decide_eq_true_iff, Bool.not_eq_true'] at hthis
    exact ⟨(u.alphabetic_ascii c hthis.1).trans hthis.2.1, hthis.2.2⟩
  simp only [durationUnits, List.mem_cons, List.not_mem_nil, or_false] at h
  rcases h with rfl | rfl | rfl | rfl | rfl | rfl | rfl <;>
    refine ⟨?_, hletters _ (by decide), by decide⟩ <;>
    unfold durationScale <;>
    rw [hlower _ (by decide)] <;>
    rfl

theorem parseDuration_printed {n : Nat} {unit : Nat × String} (h : unit ∈ durationUnits)
    (hlt : n * unit.1 < 2 ^ 64) : parseDuration u (toString n ++ unit.2) = .ok (n * unit.1) := by
  have hunit := @printed_of_mem u unit h
  have htrim : trim (toString n ++ unit.2).toList = Nat.toDigits 10 n ++ unit.2.toList := by
    rw [toList_printed, trim_toDigits n fun c hc => (hunit.letters c hc).2]
  have hparts : Parts u (trim (toString n ++ unit.2).toList) [⟨false, n, unit.1⟩] := by
    rw [htrim, ← List.append_nil unit.2.toList]
    refine .cons ?_ (fun c hc => (hunit.letters c hc).1) rfl hunit.scale .nil
    rw [List.append_nil]
    exact number_toDigits n hunit.plain
  exact (parseDuration_of_parts hparts _).mpr ⟨rfl, by simp [Part.size], hlt⟩

theorem parseDuration_displayDuration {d : Nat} (hd : d < 2 ^ 64) :
    parseDuration u (displayDuration d) = .ok d := by
  unfold displayDuration
  split
  · rename_i hzero
    have hsec : ((1000000000000, "s") : Nat × String) ∈ durationUnits := by decide
    have := @parseDuration_printed u 0 _ hsec (by decide)
    rw [hzero]
    exact this
  · cases hfind : durationUnits.find? fun unit => decide (d % unit.1 = 0) with
    | none =>
      have := List.find?_eq_none.mp hfind (1, "ps") (by decide)
      exact absurd (by simp [Nat.mod_one]) this
    | some unit =>
      obtain ⟨scale, name⟩ := unit
      have hdvd : d % scale = 0 := by simpa using List.find?_some hfind
      have hexact : d / scale * scale = d := Nat.div_mul_cancel (Nat.dvd_of_mod_eq_zero hdvd)
      have := @parseDuration_printed u (d / scale) _ (List.mem_of_find?_eq_some hfind)
        (by dsimp only; omega)
      rw [hexact] at this
      exact this

theorem parseSize_printed {n mult : Nat} {suffix : String}
    (hmult : ∀ orig, sizeMultiplier u orig suffix.toList = .ok mult)
    (hspace : ∀ c ∈ suffix.toList, isWhitespace c = false)
    (hplain : suffix.toList.head?.any (fun c => inNumber 10 c || (markerRadix c).isSome) = false)
    (hn : n < 2 ^ 64) (hlt : n * mult < 2 ^ 64) :
    parseSize u (toString n ++ suffix) = .ok (n * mult) := by
  obtain ⟨hsplit, hread⟩ := @Number.scanned (toString n ++ suffix) "size" _ _ _ _
    (number_toDigits n hplain)
  unfold parseSize
  rw [toList_printed, trim_toDigits n hspace, hsplit]
  dsimp only
  rw [(hread false n).mpr ⟨rfl, rfl, hn⟩]
  have hpositive : ¬ (false = true ∧ n ≠ 0) := fun h => (nomatch h.1)
  simp only [Except.bind, if_neg hpositive, hmult, Word.checkedMul_eq_some.mpr ⟨hlt, rfl⟩]

theorem sizeMultiplier_printed {p : String × Nat} (h : p ∈ sizeSuffixes.zipIdx.reverse)
    (orig : String) :
    sizeMultiplier u orig p.1.toList = .ok (1 <<< (10 * (p.2 + 1))) ∧
      (∀ c ∈ p.1.toList, isWhitespace c = false) ∧
      p.1.toList.head?.any (fun c => inNumber 10 c || (markerRadix c).isSome) = false := by
  have hlist : sizeSuffixes.zipIdx.reverse =
      [("E", 5), ("P", 4), ("T", 3), ("G", 2), ("M", 1), ("K", 0)] := rfl
  rw [hlist] at h
  simp only [List.mem_cons, List.not_mem_nil, or_false] at h
  rcases h with rfl | rfl | rfl | rfl | rfl | rfl <;>
    exact ⟨rfl, List.forall_mem_singleton.mpr (by decide), by decide⟩

theorem getD_findSome {α β : Type} {f : α → Option β} {l : List α} {d : β} {P : β → Prop}
    (hdefault : P d) (hfound : ∀ a ∈ l, ∀ b, f a = some b → P b) : P ((l.findSome? f).getD d) := by
  cases hfind : l.findSome? f with
  | none => exact hdefault
  | some b =>
    obtain ⟨a, ha, hb⟩ := List.exists_of_findSome?_eq_some hfind
    exact hfound a ha b hb

theorem parseSize_formatSize {n : Nat} (hn : n < 2 ^ 64) : parseSize u (formatSize n) = .ok n := by
  have hplain : parseSize u (toString n) = .ok n := by
    have := @parseSize_printed u n 1 "" (fun _ => rfl) (fun _ hc => (List.not_mem_nil hc).elim) rfl
      hn (by omega)
    rwa [String.append_empty, Nat.mul_one] at this
  unfold formatSize
  split
  · refine @getD_findSome _ _ _ _ _ (fun text => parseSize u text = .ok n) hplain ?_
    intro p hmem text hi
    dsimp only at hi
    split at hi
    · rename_i hdvd
      cases hi
      have hprinted := fun orig => @sizeMultiplier_printed u p hmem orig
      have hexact := Nat.div_mul_cancel (Nat.dvd_of_mod_eq_zero hdvd)
      have hle := Nat.div_le_self n (1 <<< (10 * (p.2 + 1)))
      have := @parseSize_printed u (n / 1 <<< (10 * (p.2 + 1))) _ p.1
        (fun orig => (hprinted orig).1) (hprinted "").2.1 (hprinted "").2.2 (by omega)
        (by rw [hexact]; exact hn)
      rw [hexact] at this
      exact this
    · cases hi
  · exact hplain

theorem picos_of_nonneg {ps : List Part} (h : ∀ p ∈ ps, p.negative = false) :
    (ps.map Part.picos).sum = ((ps.map Part.size).sum : Nat) := by
  induction ps with
  | nil => rfl
  | cons p ps ih =>
    have hp : p.picos = (p.size : Nat) := by
      unfold Part.picos Part.size signed
      rw [h p List.mem_cons_self]
      exact (Int.natCast_mul _ _).symm
    rw [List.map_cons, List.sum_cons, List.map_cons, List.sum_cons, hp,
      ih fun q hq => h q (List.mem_cons_of_mem _ hq), Int.natCast_add]

/-- **Property text is read exactly**, unless it is a duration with a minus that is overlooked. -/
theorem reads_back_iff (u : Unicode) (text : String) :
    Exact u text ↔ ¬ Overlooked u (trim text.toList) := by
  constructor
  · rintro hexact ⟨p, ps, hparts, hfirst, ⟨q, hq, hneg⟩, hlt⟩
    exact hexact.minus _ hparts ⟨q, List.mem_cons_of_mem _ hq, hneg⟩ _
      ((parseDuration_of_parts hparts _).mpr ⟨hfirst, rfl, hlt⟩)
  · intro hseen
    -- what is read has no minus at all
    have hnone : ∀ p ps d, Parts u (trim text.toList) (p :: ps) → parseDuration u text = .ok d →
        ∀ q ∈ p :: ps, q.negative = false := by
      intro p ps d hparts hread q hq
      obtain ⟨hfirst, rfl, hlt⟩ := (parseDuration_of_parts hparts d).mp hread
      rcases List.mem_cons.mp hq with rfl | hq
      · exact hfirst
      · by_contra hneg
        exact hseen ⟨p, ps, hparts, hfirst, ⟨q, hq, Bool.not_eq_false _ ▸ hneg⟩, hlt⟩
    exact {
      printedDuration := fun d => parseDuration_displayDuration d.toNat_lt
      printedSize := fun n => parseSize_formatSize n.toNat_lt
      uint := fun v h => parseUnsigned_exact h
      int := fun z h => parseInt_exact h
      size := fun n h => parseSize_exact h
      duration := by
        intro d h
        obtain ⟨p, ps, hparts⟩ := parts_of_parseDuration h
        obtain ⟨-, hd, hlt⟩ := (parseDuration_of_parts hparts d).mp h
        refine ⟨hlt, p :: ps, hparts, ?_⟩
        rw [picos_of_nonneg (hnone p ps d hparts h), hd]
      minus := by
        rintro ps hparts ⟨q, hq, hneg⟩ d h
        cases ps with
        | nil => cases hq
        | cons p ps => exact absurd ((hnone p ps d hparts h q hq).symm.trans hneg) (by decide) }

def ascii : Unicode where
  isAlphabetic := Char.isAlpha
  toLowercase c := [c.toLower]
  alphabetic_ascii _ _ := rfl
  lowercase_ascii _ _ := rfl

theorem halfHour_parts :
    Parts ascii (trim "1h-30m".toList)
      [⟨false, 1, 3600000000000000⟩, ⟨true, 30, 60000000000000⟩] := by
  have hhour : Number ['h', '-', '3', '0', 'm'] ['1'] false 1 :=
    (@number_of_scanned "" "" ['1', 'h', '-', '3', '0', 'm'] _ _ _ _ (by decide)
      (by decide +kernel)).2.1
  have hhalf : Number ['m'] ['-', '3', '0'] true 30 :=
    (@number_of_scanned "" "" ['-', '3', '0', 'm'] _ _ _ _ (by decide) (by decide +kernel)).2.1
  have htext : trim "1h-30m".toList = ['1'] ++ (['h'] ++ (['-', '3', '0'] ++ (['m'] ++ []))) := by
    decide
  rw [htext]
  have hletter : ∀ c, c.isAlpha = true → ∀ x ∈ [c], ascii.isAlphabetic x = true :=
    fun _ hc => List.forall_mem_singleton.mpr hc
  exact .cons hhour (hletter 'h' rfl) rfl rfl (.cons hhalf (hletter 'm' rfl) rfl rfl .nil)

/-- **A minus in the middle is dropped**: an hour less half an hour is read as an hour and a
half. -/
theorem minus_dropped :
    parseDuration ascii "1h-30m" = .ok (90 * 60000000000000) ∧ ¬ Exact ascii "1h-30m" := by
  have hread : parseDuration ascii "1h-30m" = .ok (90 * 60000000000000) := by decide +kernel
  exact ⟨hread, fun h => h.minus _ halfHour_parts ⟨_, List.mem_cons_of_mem _ List.mem_cons_self, rfl⟩ _
    hread⟩

end Rsemu.Props
