import Rsemu.Machine.Ast

/-!
# Property values

The values a machine file's expressions come to, the bag of named values a block comes to, and
the arithmetic over them: a value keeps the most specific kind of its operands, so that
`4M / 2` is a size and `0x1000 + 0x20` an address.
-/

namespace Rsemu.Machine

def u64 (x : Int) : Option UInt64 :=
  if 0 ≤ x ∧ x < 2 ^ 64 then some (UInt64.ofNat x.toNat) else none

def i64 (x : Int) : Option Int64 :=
  if -2 ^ 63 ≤ x ∧ x < 2 ^ 63 then some (Int64.ofInt x) else none

/-- A property's value. -/
inductive Value where
  | int (i : Int64)
  | uint (u : UInt64)
  | bool (b : Bool)
  /--
  A string. That it was written as a bare identifier is not part of the value: no function here
  reads it, and it is kept only to say where a string came from.
  -/
  | str (text : String) (bare : Bool)
  | size (bytes : UInt64)
  | addr (a : UInt64)
  | duration (picos : UInt64)
  | list (items : List Value)
  | map (entries : List (String × Value))
  | link (path : String)
  | media (name : String)

namespace Value

/-- The name of a value's kind, for messages. -/
def kind : Value → String
  | .int _ => "signed integer"
  | .uint _ => "unsigned integer"
  | .bool _ => "boolean"
  | .str _ _ => "string"
  | .size _ => "size"
  | .addr _ => "address"
  | .duration _ => "duration"
  | .list _ => "list"
  | .map _ => "map"
  | .link _ => "link"
  | .media _ => "media"

def numeric : Value → Option Int
  | .int i => some i.toInt
  | .uint u | .size u | .addr u => some u.toNat
  | .duration picos => some (picos.toNat / 1000 : Nat)
  | _ => none

def kindRank : Value → Option Nat
  | .int _ | .uint _ => some 0
  | .addr _ => some 1
  | .size _ => some 2
  | .duration _ => some 3
  | _ => none

def isNumeric : Value → Bool
  | .int _ | .uint _ | .size _ | .addr _ => true
  | _ => false

def asUint : Value → Option UInt64
  | .uint u | .size u | .addr u => some u
  | .int i => u64 i.toInt
  | _ => none

def fromNanos (nanos : UInt64) : Option Value :=
  if 1000 * nanos.toNat < 2 ^ 64 then some (.duration (UInt64.ofNat (1000 * nanos.toNat))) else none

end Value

/-- What the resolver asks of the property system for its texts, in and out. -/
structure Scalars where
  /-- The value a command-line override's text is taken for. -/
  parse : String → Value
  /-- A value as a machine file would write it. -/
  display : Value → String

/-- A value read as an unsigned number. -/
def Scalars.toUnsigned (sc : Scalars) (v : Value) (prop want : String) : Except String UInt64 :=
  match v.asUint with
  | some u => .ok u
  | none =>
    if v.isNumeric then
      .error s!"property `{prop}`: expected {want}, found the negative value {sc.display v}"
    else .error s!"property `{prop}`: expected {want}, found {v.kind} {sc.display v}"

section Entries

variable {α : Type}

def entry (entries : List (String × α)) (name : String) : Option α :=
  (entries.find? fun e => e.1 == name).map Prod.snd

def setEntry (entries : List (String × α)) (name : String) (a : α) : List (String × α) :=
  if entries.any fun e => e.1 == name then
    entries.map fun e => if e.1 == name then (name, a) else e
  else entries ++ [(name, a)]

variable {entries : List (String × α)} {name : String}

theorem entry_eq_none_iff : entry entries name = none ↔ ∀ e ∈ entries, e.1 ≠ name := by
  simp [entry]

theorem mem_of_entry {a : α} (h : entry entries name = some a) : (name, a) ∈ entries := by
  obtain ⟨e, he, rfl⟩ := Option.map_eq_some_iff.mp h
  have hname : e.1 = name := by simpa using List.find?_some he
  exact hname ▸ List.mem_of_find?_eq_some he

theorem setEntry_new (a : α) (h : entry entries name = none) :
    setEntry entries name a = entries ++ [(name, a)] := by
  have hany : ¬ (entries.any fun e => e.1 == name) = true := by
    intro hany
    obtain ⟨e, he, hname⟩ := List.any_eq_true.mp hany
    exact entry_eq_none_iff.mp h e he (by simpa using hname)
  exact if_neg hany

theorem self_mem_setEntry (entries : List (String × α)) (name : String) (a : α) :
    (name, a) ∈ setEntry entries name a := by
  unfold setEntry
  split
  · rename_i hany
    obtain ⟨e, he, hname⟩ := List.any_eq_true.mp hany
    exact List.mem_map.mpr ⟨e, he, if_pos hname⟩
  · exact List.mem_append_right _ (List.mem_singleton.mpr rfl)

theorem mem_setEntry {a : α} {e : String × α} (hne : e.1 ≠ name) :
    e ∈ setEntry entries name a ↔ e ∈ entries := by
  unfold setEntry
  split
  · rw [List.mem_map]
    constructor
    · rintro ⟨e', he', rfl⟩
      split at hne
      · exact absurd rfl hne
      · rename_i hkeep
        rwa [if_neg hkeep]
    · intro he
      exact ⟨e, he, if_neg (by simpa using hne)⟩
  · rw [List.mem_append, List.mem_singleton, or_iff_left]
    rintro rfl
    exact hne rfl

theorem eq_or_mem_of_mem_setEntry {a : α} {e : String × α} (h : e ∈ setEntry entries name a) :
    e = (name, a) ∨ e ∈ entries := by
  unfold setEntry at h
  split at h
  · obtain ⟨e', he', rfl⟩ := List.mem_map.mp h
    split
    · exact Or.inl rfl
    · exact Or.inr he'
  · rcases List.mem_append.mp h with h | h
    · exact Or.inr h
    · exact Or.inl (List.mem_singleton.mp h)

theorem entry_setEntry_none {n m : String} {a : α} (h : entry (setEntry entries n a) m = none) :
    entry entries m = none ∧ m ≠ n := by
  rw [entry_eq_none_iff] at h ⊢
  have hself : n ≠ m := h (n, a) (self_mem_setEntry entries n a)
  refine ⟨fun e he heq => ?_, hself.symm⟩
  exact h e ((mem_setEntry (heq ▸ hself.symm)).mpr he) heq

end Entries

/-- Properties by name. -/
abbrev Props := List (String × Value)

/-- Where each property was written. -/
abbrev PropSpans := List (String × Span)

def nameChar (c : Char) : Bool := c.isAlphanum || c == '_' || c == '-'

/-- What is wrong with a segment of a path. -/
def badSegment (path : String) (segment : List Char) : Option String :=
  if segment.isEmpty then some s!"`{path}` is not a valid link path: empty path segment"
  else
    (segment.find? fun c => !nameChar c).map fun c =>
      s!"`{path}` is not a valid link path: unexpected `{c}` " ++
        "(segments are alphanumerics, `_` or `-`, separated by `.`)"

def linkTo (path : String) (span : Span) : Except Diagnostic Value :=
  if path.isEmpty then .error ⟨span, "a link path cannot be empty", none⟩
  else
    match (path.toList.splitOn '.').findSome? (badSegment path) with
    | some message => .error ⟨span, message, none⟩
    | none => .ok (.link path)

/-- The value of a literal, by its unit. -/
def numValue (lit : NumLit) (span : Span) : Except Diagnostic Value :=
  match lit.unit with
  | .size _ => .ok (.size lit.value)
  | .duration _ =>
    match Value.fromNanos lit.value with
    | some v => .ok v
    | none => .error ⟨span, "this duration is out of range", none⟩
  | .none => .ok (if lit.radix = .hex then .addr lit.value else .uint lit.value)

/-- The operation on integers, if its result fits. -/
def BinOp.integer (op : BinOp) (x y : Int) (span : Span) : Except Diagnostic (Option Int) :=
  match op with
  | .add => .ok (i128 (x + y))
  | .sub => .ok (i128 (x - y))
  | .mul => .ok (i128 (x * y))
  | .div => if y = 0 then .error ⟨span, "division by zero", none⟩ else .ok (i128 (x.tdiv y))
  | .rem => if y = 0 then .error ⟨span, "division by zero", none⟩ else .ok (i128 (x.tmod y))

/-- The result of arithmetic, as a value of the kind with this rank. -/
def ofRank (rank : Nat) (out : Int) (first : Value) (span : Span) : Except Diagnostic Value :=
  let range : Diagnostic := ⟨span, "this value is out of range", none⟩
  if rank = 0 then
    if out < 0 then ((i64 out).map Value.int).elim (.error range) .ok
    else ((u64 out).map Value.uint).elim (.error range) .ok
  else
    match u64 out with
    | none => .error ⟨span, s!"a {first.kind} cannot be negative or out of range", none⟩
    | some n =>
      if rank = 1 then .ok (.addr n)
      else if rank = 2 then .ok (.size n)
      else (Value.fromNanos n).elim (.error ⟨span, "this duration is out of range", none⟩) .ok

/-- Arithmetic over values, keeping the most specific kind. -/
def arith (op : BinOp) (a b : Value) (span : Span) : Except Diagnostic Value :=
  match a.numeric, b.numeric with
  | some x, some y =>
    let l := a.kindRank.getD 0
    let r := b.kindRank.getD 0
    -- a duration with an address or a size is a category error
    if (l == 3) != (r == 3) && decide (0 < min l r) then
      .error ⟨span, s!"`{op.asStr}` cannot combine {a.kind} and {b.kind}", none⟩
    else
      (op.integer x y span).bind fun out =>
        match out with
        | none => .error ⟨span, "this value is out of range", none⟩
        | some out => ofRank (max l r) out a span
  | _, _ =>
    .error ⟨span, s!"`{op.asStr}` needs numbers on both sides, but found {a.kind} and {b.kind}",
      none⟩

def literal (value : UInt64) (unit : NumUnit) (span : Span) : Expr :=
  .num ⟨value, value, .dec, unit⟩ span

/-- A literal expression for a value, for a command-line override: scalars only. -/
def valueExpr (v : Value) (span : Span) : Option Expr :=
  match v with
  | .bool b => some (.bool b span)
  | .str text _ => some (.str text span)
  | .uint u | .addr u => some (literal u .none span)
  | .size n => some (literal n (.size .byte) span)
  | .int i =>
    let magnitude := literal (UInt64.ofNat i.toInt.natAbs) .none span
    if 0 ≤ i.toInt then some magnitude else some (.unary .neg magnitude span)
  | .duration picos =>
    -- anything finer than a nanosecond cannot be written
    if picos.toNat % 1000 ≠ 0 then none
    else some (literal (UInt64.ofNat (picos.toNat / 1000)) (.duration .nanos) span)
  | .list _ | .map _ | .link _ | .media _ => none

def intExpr (value : Int64) (span : Span) : Expr :=
  if value.toInt < 0 then
    -- the negation saturates
    .unary .neg (literal (UInt64.ofNat (min value.toInt.natAbs (2 ^ 63 - 1))) .none span) span
  else literal (UInt64.ofNat value.toInt.natAbs) .none span

end Rsemu.Machine
