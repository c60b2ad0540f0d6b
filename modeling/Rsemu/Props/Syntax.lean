import Mathlib.Data.Nat.Digits.Defs
import Rsemu.Props.Scalar

/-!
# What property text denotes

A grammar of the text `Props.Scalar` parses, with what each piece of it denotes in whole
numbers of any size. `Number` is a numeric literal as long as it goes: a sign, a radix prefix,
digits with separators between them.

The scanner that finds where a number ends and the one that reads it agree on every text
(`stripRadix_eq`), and so what is read is the number that stands there (`digitsToU64_iff`).
-/

namespace Rsemu.Props

/-- A sign, and whether it is a minus. -/
inductive Sign : List Char → Bool → Prop
  | none : Sign [] false
  | plus : Sign ['+'] false
  | minus : Sign ['-'] true

/-- A radix prefix. -/
inductive Mark : List Char → Nat → Prop
  | none : Mark [] 10
  | hex {c : Char} (h : c = 'x' ∨ c = 'X') : Mark ['0', c] 16
  | binary {c : Char} (h : c = 'b' ∨ c = 'B') : Mark ['0', c] 2
  | octal {c : Char} (h : c = 'o' ∨ c = 'O') : Mark ['0', c] 8

/-- **Digits, and the value they denote.** Separators stand between them and count for nothing. -/
structure Digits (radix : Nat) (cs : List Char) (value : Nat) : Prop where
  first : cs.head?.any (isDigit radix) = true
  last : cs.getLast?.any (isDigit radix) = true
  denotes : ∃ ds : List Nat, (cs.filter (· ≠ '_')).map (toDigit radix) = ds.map some ∧
    value = Nat.ofDigits radix ds.reverse

/-- Where a number ends and what follows it cannot be read as more of it. -/
structure Ends (mark digits rest : List Char) (radix : Nat) : Prop where
  longest : rest.head?.any (inNumber radix) = false
  /-- What looks like a radix prefix is one. -/
  plain : mark = [] → ∀ m r d tail, Mark m r → m ≠ [] → digits ++ rest = m ++ d :: tail →
    isDigit r d = false

/-- **A number with what follows it**, and the sign and magnitude it denotes. -/
inductive Number (rest : List Char) : List Char → Bool → Nat → Prop
  | mk {sign mark digits : List Char} {negative : Bool} {radix magnitude : Nat}
      (hsign : Sign sign negative) (hmark : Mark mark radix) (hdigits : Digits radix digits magnitude)
      (hends : Ends mark digits rest radix) : Number rest (sign ++ mark ++ digits) negative magnitude

def signed (negative : Bool) (magnitude : Nat) : Int := if negative then -magnitude else magnitude

/-- **A text that is a number.** -/
def IntText (s : List Char) (z : Int) : Prop :=
  ∃ negative magnitude, Number [] s negative magnitude ∧ z = signed negative magnitude

variable (u : Unicode)

/-- **A size suffix, and what it multiplies by**: `K`, `M`, `G`, `T`, `P` or `E` for a power of
1024, with `i` and `B` optional, or a bare `B`. -/
inductive Multiplier : List Char → Nat → Prop
  | none : Multiplier [] 1
  | bytes {c : Char} {chars : List Char} (h : c.toLower = 'b')
      (htail : chars.flatMap u.toLowercase = []) : Multiplier (c :: chars) 1
  | binary {c : Char} {chars : List Char} {k : Nat}
      (h : (c.toLower, k) ∈ [('k', 1), ('m', 2), ('g', 3), ('t', 4), ('p', 5), ('e', 6)])
      (htail : chars.flatMap u.toLowercase ∈ [[], ['i'], ['b'], ['i', 'b']]) :
      Multiplier (c :: chars) (1024 ^ k)

/-- **A text that is a byte count.** -/
def SizeText (s : List Char) (z : Int) : Prop :=
  ∃ num suffix negative magnitude mult, s = num ++ suffix ∧
    Number suffix num negative magnitude ∧ Multiplier u suffix mult ∧
    z = signed negative magnitude * mult

/-- A number and its unit. -/
structure Part where
  negative : Bool
  magnitude : Nat
  scale : Nat

def Part.picos (p : Part) : Int := signed p.negative p.magnitude * p.scale

def Part.size (p : Part) : Nat := p.magnitude * p.scale

/-- **A text made of numbers, each with its unit.** -/
inductive Parts : List Char → List Part → Prop
  | nil : Parts [] []
  | cons {num unit tail : List Char} {p : Part} {ps : List Part}
      (hnum : Number (unit ++ tail) num p.negative p.magnitude)
      (hunit : ∀ c ∈ unit, u.isAlphabetic c = true)
      (htail : tail.head?.any u.isAlphabetic = false) (hscale : durationScale u unit = some p.scale)
      (hrest : Parts tail ps) : Parts (num ++ (unit ++ tail)) (p :: ps)

theorem markerRadix_iff {c : Char} {r : Nat} : markerRadix c = some r ↔ Mark ['0', c] r := by
  unfold markerRadix
  constructor
  · intro h
    split at h
    · rename_i hc
      cases h
      exact .hex hc
    · split at h
      · rename_i hc
        cases h
        exact .binary hc
      · split at h
        · rename_i hc
          cases h
          exact .octal hc
        · cases h
  · intro h
    cases h with
    | hex hc => rw [if_pos hc]
    | binary hc => rcases hc with rfl | rfl <;> rfl
    | octal hc => rcases hc with rfl | rfl <;> rfl

theorem Mark.eq_nil_or {m : List Char} {r : Nat} (h : Mark m r) :
    (m = [] ∧ r = 10) ∨ ∃ c, m = ['0', c] := by
  cases h with
  | none => exact Or.inl ⟨rfl, rfl⟩
  | hex _ => exact Or.inr ⟨_, rfl⟩
  | binary _ => exact Or.inr ⟨_, rfl⟩
  | octal _ => exact Or.inr ⟨_, rfl⟩

theorem markedRadix_eq_some {s : List Char} {r : Nat} :
    markedRadix s = some r ↔
      ∃ m d tail, Mark m r ∧ m ≠ [] ∧ s = m ++ d :: tail ∧ isDigit r d = true := by
  constructor
  · intro h
    unfold markedRadix at h
    split at h
    · rename_i zero marker digit tail
      split at h
      · rename_i hzero
        obtain ⟨hr, hdigit⟩ := Option.filter_eq_some_iff.mp h
        exact ⟨['0', marker], digit, tail, markerRadix_iff.mp hr, List.cons_ne_nil _ _,
          by rw [hzero]; rfl, hdigit⟩
      · cases h
    · cases h
  · rintro ⟨m, d, tail, hm, hne, rfl, hdigit⟩
    obtain ⟨rfl, -⟩ | ⟨c, rfl⟩ := hm.eq_nil_or
    · exact absurd rfl hne
    · change (if '0' = '0' then (markerRadix c).filter (isDigit · d) else none) = _
      rw [if_pos rfl]
      exact Option.filter_eq_some_iff.mpr ⟨markerRadix_iff.mpr hm, hdigit⟩

theorem markedRadix_eq_none {s : List Char} :
    markedRadix s = none ↔
      ∀ m r d tail, Mark m r → m ≠ [] → s = m ++ d :: tail → isDigit r d = false := by
  constructor
  · intro h m r d tail hm hne hs
    by_contra hdigit
    have := markedRadix_eq_some.mpr ⟨m, d, tail, hm, hne, hs, Bool.not_eq_false _ ▸ hdigit⟩
    rw [h] at this
    cases this
  · intro h
    by_contra hsome
    obtain ⟨r, hr⟩ := Option.ne_none_iff_exists'.mp hsome
    obtain ⟨m, d, tail, hm, hne, hs, hdigit⟩ := markedRadix_eq_some.mp hr
    rw [h m r d tail hm hne hs] at hdigit
    cases hdigit

theorem markedRadix_cons (zero c : Char) (s : List Char) :
    markedRadix (zero :: c :: s) =
      if zero = '0' then (markerRadix c).filter fun r => s.head?.any (isDigit r) else none := by
  cases s with
  | nil => cases h : markerRadix c <;> simp [markedRadix]
  | cons d s => rfl

theorem strip_mark (x zero c : Char) (s : List Char) :
    strip ['0', x] (zero :: c :: s) = if zero = '0' ∧ c = x then some s else none := by
  have hstarts : List.isPrefixOf ['0', x] (zero :: c :: s) = true ↔ zero = '0' ∧ c = x := by
    rw [List.isPrefixOf_iff_prefix, List.cons_prefix_cons, List.cons_prefix_cons]
    exact ⟨fun h => ⟨h.1.symm, h.2.1.symm⟩, fun h => ⟨h.1.symm, h.2.symm, List.nil_prefix⟩⟩
  unfold strip
  by_cases h : zero = '0' ∧ c = x
  · rw [if_pos (hstarts.mpr h), if_pos h]
    rfl
  · rw [if_neg (mt hstarts.mp h), if_neg h]

theorem stripRadix_eq (s : List Char) :
    stripRadix s = ((markedRadix s).getD 10, s.drop (if (markedRadix s).isSome then 2 else 0)) := by
  unfold stripRadix radixMarks
  rcases s with _ | ⟨zero, _ | ⟨c, s⟩⟩
  · rfl
  · simp [strip, markedRadix]
  · simp only [List.findSome?_cons, strip_mark, List.findSome?_nil, markedRadix_cons]
    by_cases hzero : zero = '0'
    · by_cases hhex : c = 'x' ∨ c = 'X'
      · rcases hhex with rfl | rfl <;> cases h : s.head?.any (isDigit 16) <;>
          simp [hzero, markerRadix, h, Option.filter]
      by_cases hbinary : c = 'b' ∨ c = 'B'
      · rcases hbinary with rfl | rfl <;> cases h : s.head?.any (isDigit 2) <;>
          simp [hzero, markerRadix, h, Option.filter]
      by_cases hoctal : c = 'o' ∨ c = 'O'
      · rcases hoctal with rfl | rfl <;> cases h : s.head?.any (isDigit 8) <;>
          simp [hzero, markerRadix, h, Option.filter]
      · rw [not_or] at hhex hbinary hoctal
        simp [hzero, markerRadix, hhex, hbinary, hoctal]
    · simp [hzero]

/-- A text, and what the scanners take from the front of it. -/
structure Cut (s sign : List Char) (negative : Bool) (mark : List Char) (radix : Nat)
    (digits rest : List Char) : Prop where
  text : s = sign ++ (mark ++ (digits ++ rest))
  isSign : Sign sign negative
  unsigned : sign = [] → (mark ++ (digits ++ rest)).head?.any (fun c => c = '+' ∨ c = '-') = false
  isMark : Mark mark radix
  marked : mark ≠ [] → digits.head?.any (isDigit radix) = true
  all : ∀ c ∈ digits, inNumber radix c = true
  ends : Ends mark digits rest radix

theorem exists_sign (s : List Char) :
    ∃ sign negative t, Sign sign negative ∧ s = sign ++ t ∧
      (sign = [] → t.head?.any (fun c => c = '+' ∨ c = '-') = false) := by
  cases s with
  | nil => exact ⟨[], false, [], .none, rfl, fun _ => rfl⟩
  | cons c t =>
    by_cases hplus : c = '+'
    · exact ⟨['+'], false, t, .plus, by rw [hplus]; rfl, fun h => absurd h (List.cons_ne_nil _ _)⟩
    · by_cases hminus : c = '-'
      · exact ⟨['-'], true, t, .minus, by rw [hminus]; rfl,
          fun h => absurd h (List.cons_ne_nil _ _)⟩
      · exact ⟨[], false, c :: t, .none, rfl, fun _ => by simp [hplus, hminus]⟩

theorem head?_dropWhile_any (p : Char → Bool) (s : List Char) :
    (s.dropWhile p).head?.any p = false := by
  cases h : (s.dropWhile p).head? with
  | none => rfl
  | some c =>
    have := List.head?_dropWhile_not p s
    rw [h] at this
    simpa using this

theorem exists_cut (s : List Char) :
    ∃ sign negative mark radix digits rest, Cut s sign negative mark radix digits rest := by
  obtain ⟨sign, negative, t, hsign, hs, hunsigned⟩ := exists_sign s
  cases hr : markedRadix t with
  | none =>
    have hjoin := List.takeWhile_append_dropWhile (p := inNumber 10) (l := t)
    refine ⟨sign, negative, [], 10, t.takeWhile (inNumber 10), t.dropWhile (inNumber 10), ?_⟩
    exact {
      text := by rw [List.nil_append, hjoin]; exact hs
      isSign := hsign
      unsigned := by rw [List.nil_append, hjoin]; exact hunsigned
      isMark := .none
      marked := fun h => absurd rfl h
      all := fun c hc => List.mem_takeWhile_imp hc
      ends := ⟨head?_dropWhile_any _ _, fun _ => by rw [hjoin]; exact markedRadix_eq_none.mp hr⟩ }
  | some radix =>
    obtain ⟨mark, d, tail, hmark, hne, ht, hd⟩ := markedRadix_eq_some.mp hr
    have hjoin := List.takeWhile_append_dropWhile (p := inNumber radix) (l := d :: tail)
    refine ⟨sign, negative, mark, radix, (d :: tail).takeWhile (inNumber radix),
      (d :: tail).dropWhile (inNumber radix), ?_⟩
    exact {
      text := by rw [hjoin, ← ht]; exact hs
      isSign := hsign
      unsigned := by rw [hjoin, ← ht]; exact hunsigned
      isMark := hmark
      marked := by
        intro _
        rw [List.takeWhile_cons_of_pos (by simp [inNumber, hd])]
        simpa using hd
      all := fun c hc => List.mem_takeWhile_imp hc
      ends := ⟨head?_dropWhile_any _ _, fun h => absurd h hne⟩ }

section Cutting

variable {s sign mark digits rest : List Char} {negative : Bool} {radix : Nat}

theorem splitSign_append {t : List Char} (hsign : Sign sign negative)
    (h : sign = [] → t.head?.any (fun c => c = '+' ∨ c = '-') = false) :
    splitSign (sign ++ t) = (sign, t) := by
  cases hsign with
  | plus => rfl
  | minus => rfl
  | none =>
    cases t with
    | nil => rfl
    | cons c t => exact if_neg (by simpa using h rfl)

theorem stripSign_append {t : List Char} (hsign : Sign sign negative)
    (h : sign = [] → t.head?.any (fun c => c = '+' ∨ c = '-') = false) :
    stripSign (sign ++ t) = (negative, t) := by
  cases hsign with
  | plus => rfl
  | minus => rfl
  | none =>
    cases t with
    | nil => rfl
    | cons c t =>
      have hc : c ≠ '+' ∧ c ≠ '-' := by simpa using h rfl
      simp [stripSign, strip, List.isPrefixOf, Ne.symm hc.1, Ne.symm hc.2]

theorem markedRadix_append (hmark : Mark mark radix)
    (hmarked : mark ≠ [] → digits.head?.any (isDigit radix) = true)
    (hplain : mark = [] → ∀ m r d tail, Mark m r → m ≠ [] → digits ++ rest = m ++ d :: tail →
      isDigit r d = false) :
    markedRadix (mark ++ (digits ++ rest)) = if mark = [] then none else some radix := by
  by_cases hne : mark = []
  · rw [if_pos hne, markedRadix_eq_none, hne, List.nil_append]
    exact hplain hne
  · rw [if_neg hne, markedRadix_eq_some]
    obtain ⟨d, tail, rfl⟩ : ∃ d tail, digits = d :: tail := by
      cases digits with
      | nil => cases hmarked hne
      | cons d tail => exact ⟨d, tail, rfl⟩
    exact ⟨mark, d, tail ++ rest, hmark, hne, rfl, by simpa using hmarked hne⟩

theorem drop_mark (hmark : Mark mark radix) (t : List Char) :
    (mark ++ t).drop (if (if mark = [] then none else some radix).isSome then 2 else 0) = t ∧
      (mark ++ t).take (if (if mark = [] then none else some radix).isSome then 2 else 0) = mark ∧
      (if mark = [] then none else some radix).getD 10 = radix := by
  cases hmark <;> exact ⟨rfl, rfl, rfl⟩

theorem Cut.splitNumber (h : Cut s sign negative mark radix digits rest) :
    splitNumber s = (sign ++ mark ++ digits, rest) := by
  obtain ⟨hdrop, htake, hradix⟩ := drop_mark h.isMark (digits ++ rest)
  unfold Props.splitNumber
  rw [h.text, splitSign_append h.isSign h.unsigned]
  dsimp only
  rw [markedRadix_append h.isMark h.marked h.ends.plain, hdrop, htake, hradix,
    List.takeWhile_append_of_pos h.all, List.dropWhile_append_of_pos h.all]
  have hlongest := h.ends.longest
  cases rest with
  | nil => simp
  | cons c rest =>
    have hc : ¬ inNumber radix c = true := by simpa using hlongest
    rw [List.takeWhile_cons_of_neg hc, List.dropWhile_cons_of_neg hc, List.append_nil]

theorem Cut.strip (h : Cut s sign negative mark radix digits rest) :
    stripSign (sign ++ mark ++ digits) = (negative, mark ++ digits) ∧
      stripRadix (mark ++ digits) = (radix, digits) := by
  constructor
  · rw [List.append_assoc]
    refine stripSign_append h.isSign fun hnil => ?_
    have := h.unsigned hnil
    cases hm : mark ++ digits with
    | nil => rfl
    | cons c t =>
      rw [← List.append_assoc, hm] at this
      exact this
  · obtain ⟨hdrop, -, hradix⟩ := drop_mark h.isMark digits
    have hplain : mark = [] → ∀ m r d tail, Mark m r → m ≠ [] → digits ++ [] = m ++ d :: tail →
        isDigit r d = false := by
      intro hnil m r d tail hm hne hdigits
      refine h.ends.plain hnil m r d (tail ++ rest) hm hne ?_
      rw [← List.cons_append, ← List.append_assoc, ← hdigits, List.append_nil]
    have hmarked := @markedRadix_append mark digits [] radix h.isMark h.marked hplain
    rw [List.append_nil] at hmarked
    rw [stripRadix_eq, hmarked, hdrop, hradix]

end Cutting

theorem addDigit_eq_ok {orig what : String} {radix : Nat} {c : Char} {read read' : Nat × Nat}
    (hc : c ≠ '_') :
    addDigit orig what radix read c = .ok read' ↔
      ∃ d, toDigit radix c = some d ∧ read.1 * radix + d < 2 ^ 64 ∧
        read' = (read.1 * radix + d, read.2 + 1) := by
  unfold addDigit
  rw [if_neg hc]
  cases hd : toDigit radix c with
  | none => exact ⟨fun h => (nomatch h), fun ⟨_, h, _⟩ => (nomatch h)⟩
  | some d =>
    dsimp only
    cases hv : (Word.checkedMul 64 read.1 radix).bind (Word.checkedAdd 64 · d) with
    | none =>
      refine ⟨fun h => (nomatch h), ?_⟩
      rintro ⟨d', hd', hlt, -⟩
      cases hd'
      have hmul : Word.checkedMul 64 read.1 radix = some (read.1 * radix) :=
        Word.checkedMul_eq_some.mpr ⟨by omega, rfl⟩
      rw [hmul, Option.bind_some, Word.checkedAdd_eq_some.mpr ⟨hlt, rfl⟩] at hv
      cases hv
    | some v =>
      obtain ⟨m, hm, hadd⟩ := Option.bind_eq_some_iff.mp hv
      obtain ⟨-, rfl⟩ := Word.checkedMul_eq_some.mp hm
      obtain ⟨hlt, rfl⟩ := Word.checkedAdd_eq_some.mp hadd
      constructor
      · intro h
        cases h
        exact ⟨d, rfl, hlt, rfl⟩
      · rintro ⟨d', hd', -, rfl⟩
        cases hd'
        rfl

theorem ofDigits_reverse_cons (radix d : Nat) (ds : List Nat) :
    Nat.ofDigits radix (d :: ds).reverse = Nat.ofDigits radix ds.reverse + radix ^ ds.length * d := by
  rw [List.reverse_cons, Nat.ofDigits_append, Nat.ofDigits_singleton, List.length_reverse]

theorem foldlM_addDigit {orig what : String} {radix : Nat} (hradix : 0 < radix) {cs : List Char}
    {read : Nat × Nat} {v k : Nat} (hread : read.1 < 2 ^ 64) :
    cs.foldlM (addDigit orig what radix) read = .ok (v, k) ↔
      ∃ ds : List Nat, (cs.filter (· ≠ '_')).map (toDigit radix) = ds.map some ∧
        v = Nat.ofDigits radix ds.reverse + radix ^ ds.length * read.1 ∧ k = read.2 + ds.length ∧
        v < 2 ^ 64 := by
  induction cs generalizing read with
  | nil =>
    constructor
    · intro h
      cases h
      exact ⟨[], rfl, by simp, rfl, hread⟩
    · rintro ⟨ds, hds, rfl, rfl, -⟩
      have hnil : ds = [] := by simpa using hds.symm
      subst hnil
      simp [pure, Except.pure]
  | cons c cs ih =>
    rw [List.foldlM_cons]
    by_cases hc : c = '_'
    · have hskip : addDigit orig what radix read c = .ok read := if_pos hc
      rw [hskip, List.filter_cons_of_neg (by simp [hc])]
      exact ih hread
    · rw [List.filter_cons_of_pos (by simp [hc]), List.map_cons]
      constructor
      · intro h
        obtain ⟨next, hnext, hrest⟩ := Fallible.ok_of_bind h
        obtain ⟨d, hd, hlt, rfl⟩ := (addDigit_eq_ok hc).mp hnext
        obtain ⟨ds, hds, rfl, rfl, hbound⟩ := (ih hlt).mp hrest
        refine ⟨d :: ds, by rw [hd, hds, List.map_cons], ?_, ?_, hbound⟩
        · rw [ofDigits_reverse_cons, List.length_cons, pow_succ]
          ring
        · rw [List.length_cons]
          dsimp only
          omega
      · rintro ⟨ds, hds, hv, hk, hbound⟩
        cases ds with
        | nil => cases hds
        | cons d ds =>
          rw [List.map_cons, List.cons.injEq] at hds
          have hsum : v =
              Nat.ofDigits radix ds.reverse + radix ^ ds.length * (read.1 * radix + d) := by
            rw [hv, ofDigits_reverse_cons, List.length_cons, pow_succ]
            ring
          -- what is read so far is never more than the whole
          have hlt : read.1 * radix + d < 2 ^ 64 := by
            have := Nat.le_mul_of_pos_left (read.1 * radix + d) (Nat.pow_pos hradix (n := ds.length))
            omega
          have hnext : addDigit orig what radix read c =
              .ok (read.1 * radix + d, read.2 + 1) := (addDigit_eq_ok hc).mpr ⟨d, hds.1, hlt, rfl⟩
          rw [hnext]
          refine (ih hlt).mpr ⟨ds, hds.2, hsum, ?_, hbound⟩
          rw [hk, List.length_cons]
          dsimp only
          omega

theorem Mark.radix_pos {mark : List Char} {radix : Nat} (h : Mark mark radix) : 0 < radix := by
  cases h <;> decide

theorem isDigit_of_mem (radix : Nat) {c : Char} (h : c ∈ ['_', '+', '-']) :
    isDigit radix c = false := by
  have hother : c.isDigit = false ∧ c.isLower = false ∧ c.isUpper = false := by
    simp only [List.mem_cons, List.not_mem_nil, or_false] at h
    rcases h with rfl | rfl | rfl <;> decide
  simp [isDigit, toDigit, hother]

theorem any_isDigit {radix : Nat} {o : Option Char} (hsome : o ≠ none)
    (hall : ∀ c ∈ o, inNumber radix c = true) (hne : o ≠ some '_') :
    o.any (isDigit radix) = true := by
  cases o with
  | none => exact absurd rfl hsome
  | some c =>
    have hc := hall c rfl
    unfold inNumber at hc
    rw [Bool.or_eq_true, decide_eq_true_eq] at hc
    rcases hc with rfl | hc
    · exact absurd rfl hne
    · exact hc

theorem ne_underscore {radix : Nat} {o : Option Char} (h : o.any (isDigit radix) = true) :
    o ≠ some '_' := by
  rintro rfl
  rw [Option.any_some, isDigit_of_mem radix (by decide)] at h
  cases h

section Reading

variable {orig what : String} {s sign mark digits rest : List Char} {negative : Bool} {radix : Nat}

theorem Cut.digitsToU64 (h : Cut s sign negative mark radix digits rest) {negative' : Bool}
    {v : Nat} :
    digitsToU64 orig (sign ++ mark ++ digits) what = .ok (negative', v) ↔
      negative' = negative ∧ Digits radix digits v ∧ v < 2 ^ 64 := by
  obtain ⟨hsign, hmark⟩ := h.strip
  unfold Props.digitsToU64
  rw [hsign]
  dsimp only
  rw [hmark]
  dsimp only
  by_cases hnil : digits = []
  · rw [if_pos hnil]
    refine ⟨fun he => (nomatch he), fun ⟨_, hd, _⟩ => ?_⟩
    have := hd.first
    rw [hnil] at this
    cases this
  rw [if_neg hnil]
  by_cases hedge : digits.head? = some '_' ∨ digits.getLast? = some '_'
  · rw [if_pos hedge]
    refine ⟨fun he => (nomatch he), fun ⟨_, hd, _⟩ => ?_⟩
    rcases hedge with hfirst | hlast
    · exact absurd hfirst (ne_underscore hd.first)
    · exact absurd hlast (ne_underscore hd.last)
  rw [if_neg hedge]
  obtain ⟨hfirst, hlast⟩ := not_or.mp hedge
  have hread := fun v k =>
    @foldlM_addDigit orig what radix h.isMark.radix_pos digits (0, 0) v k (by decide)
  constructor
  · intro he
    obtain ⟨⟨value, k⟩, hfold, hcount⟩ := Fallible.ok_of_bind he
    dsimp only at hcount
    split at hcount
    · cases hcount
    · cases hcount
      obtain ⟨ds, hds, hv, -, hbound⟩ := (hread _ _).mp hfold
      refine ⟨rfl, ⟨?_, ?_, ds, hds, by simpa using hv⟩, hbound⟩
      · exact any_isDigit (by simpa using hnil) (fun c hc => h.all c (List.mem_of_mem_head? hc))
          hfirst
      · exact any_isDigit (by simpa using hnil) (fun c hc => h.all c (List.mem_of_getLast? hc)) hlast
  · rintro ⟨rfl, hd, hbound⟩
    obtain ⟨ds, hds, hv⟩ := hd.denotes
    have hfold := (hread v ds.length).mpr ⟨ds, hds, by simpa using hv, by simp, hbound⟩
    rw [hfold]
    -- the first digit is one, so some are counted
    have hcount : ds.length ≠ 0 := by
      intro hzero
      rw [List.length_eq_zero_iff.mp hzero] at hds
      have hall : digits.filter (· ≠ '_') = [] := by simpa using hds
      cases hdigits : digits with
      | nil => exact hnil hdigits
      | cons c cs =>
        rw [hdigits] at hall hfirst
        have := List.filter_eq_nil_iff.mp hall c List.mem_cons_self
        exact hfirst (by simpa using this)
    exact if_neg hcount

theorem Number.cut {num : List Char} {v : Nat} (h : Number rest num negative v) :
    ∃ sign mark radix digits, num = sign ++ mark ++ digits ∧ Digits radix digits v ∧
      Cut (num ++ rest) sign negative mark radix digits rest := by
  obtain @⟨sign, mark, digits, _, radix, _, hsign, hmark, hdigits, hends⟩ := h
  obtain ⟨d, tail, hcons⟩ : ∃ d tail, digits = d :: tail := by
    cases hd : digits with
    | nil =>
      have := hdigits.first
      rw [hd] at this
      cases this
    | cons d tail => exact ⟨d, tail, rfl⟩
  have hd : isDigit radix d = true := by
    have := hdigits.first
    rw [hcons] at this
    simpa using this
  refine ⟨sign, mark, radix, digits, rfl, hdigits, ?_⟩
  exact {
    text := by simp only [List.append_assoc]
    isSign := hsign
    unsigned := by
      intro _
      obtain ⟨rfl, -⟩ | ⟨c, rfl⟩ := hmark.eq_nil_or
      · rw [hcons, List.nil_append, List.cons_append, List.head?_cons, Option.any_some,
          decide_eq_false_iff_not]
        rintro (rfl | rfl) <;>
          exact absurd (hd.symm.trans (isDigit_of_mem radix (by decide))) (by decide)
      · rfl
    isMark := hmark
    marked := fun _ => hdigits.first
    all := by
      intro c hc
      obtain ⟨ds, hds, -⟩ := hdigits.denotes
      unfold inNumber
      by_cases hsep : c = '_'
      · simp [hsep]
      · have hmem : toDigit radix c ∈ ds.map some := by
          rw [← hds]
          exact List.mem_map_of_mem (List.mem_filter.mpr ⟨hc, by simpa using hsep⟩)
        obtain ⟨x, -, hx⟩ := List.mem_map.mp hmem
        simp [isDigit, ← hx]
    ends := hends }

theorem Digits.unique {cs : List Char} {v v' : Nat} (h : Digits radix cs v)
    (h' : Digits radix cs v') : v = v' := by
  obtain ⟨ds, hds, rfl⟩ := h.denotes
  obtain ⟨ds', hds', rfl⟩ := h'.denotes
  rw [List.map_injective_iff.mpr (Option.some_injective Nat) (hds.symm.trans hds')]

theorem Number.scanned {num : List Char} {v : Nat} (h : Number rest num negative v) :
    splitNumber (num ++ rest) = (num, rest) ∧
      ∀ negative' v', digitsToU64 orig num what = .ok (negative', v') ↔
        negative' = negative ∧ v' = v ∧ v < 2 ^ 64 := by
  obtain ⟨sign, mark, radix, digits, rfl, hdigits, hcut⟩ := h.cut
  refine ⟨hcut.splitNumber, fun negative' v' => hcut.digitsToU64.trans ?_⟩
  constructor
  · rintro ⟨hnegative, hdigits', hv⟩
    obtain rfl := hdigits.unique hdigits'
    exact ⟨hnegative, rfl, hv⟩
  · rintro ⟨hnegative, rfl, hv⟩
    exact ⟨hnegative, hdigits, hv⟩

theorem number_of_scanned {num : List Char} {v : Nat} (hsplit : splitNumber s = (num, rest))
    (h : digitsToU64 orig num what = .ok (negative, v)) :
    s = num ++ rest ∧ Number rest num negative v ∧ v < 2 ^ 64 := by
  obtain ⟨sign, negative', mark, radix, digits, rest', hcut⟩ := exists_cut s
  rw [hcut.splitNumber, Prod.mk.injEq] at hsplit
  obtain ⟨rfl, rfl⟩ := hsplit
  obtain ⟨rfl, hdigits, hv⟩ := hcut.digitsToU64.mp h
  refine ⟨?_, .mk hcut.isSign hcut.isMark hdigits hcut.ends, hv⟩
  rw [hcut.text]
  simp only [List.append_assoc]

theorem Number.head? {num : List Char} {v : Nat} (h : Number rest num negative v) (t : List Char) :
    num ≠ [] ∧ ((num ++ t).head? = some '-' ↔ negative = true) := by
  obtain ⟨sign, mark, radix, digits, rfl, hdigits, hcut⟩ := h.cut
  obtain ⟨d, tail, rfl⟩ : ∃ d tail, digits = d :: tail := by
    cases digits with
    | nil => cases hdigits.first
    | cons d tail => exact ⟨d, tail, rfl⟩
  refine ⟨by simp, ?_⟩
  have hunsigned := hcut.unsigned
  cases hcut.isSign with
  | plus => simp
  | minus => simp
  | none =>
    have hfirst := hunsigned rfl
    obtain ⟨rfl, -⟩ | ⟨c, rfl⟩ := hcut.isMark.eq_nil_or
    · have hd : d ≠ '+' ∧ d ≠ '-' := by simpa using hfirst
      simp [hd.2]
    · simp

end Reading

end Rsemu.Props
