import Mathlib.Data.List.DropRight
import Rsemu.Base.Fallible
import Rsemu.Base.Word

/-!
# Scalar property text

What a machine file writes for a number, a byte count and a span of time. A number is looked
at twice: `splitNumber` finds where it ends, `digitsToU64` then reads what was cut off. A
duration is a number and a unit, over and over.

Text is a list of characters here. What the Unicode tables say beyond ASCII about letters and
their lower case is a parameter.
-/

namespace Rsemu.Props

open Word

/-- What the code asks of the Unicode tables. -/
structure Unicode where
  /-- `char::is_alphabetic`. -/
  isAlphabetic : Char → Bool
  /-- `char::to_lowercase`. -/
  toLowercase : Char → List Char
  /-- In ASCII the letters are alphabetic and nothing else is. -/
  alphabetic_ascii : ∀ c : Char, c.toNat < 128 → isAlphabetic c = c.isAlpha
  /-- In ASCII the lower case is the letter's. -/
  lowercase_ascii : ∀ c : Char, c.toNat < 128 → toLowercase c = [c.toLower]

def isWhitespace (c : Char) : Bool :=
  let n := c.toNat
  (0x09 ≤ n && n ≤ 0x0d) || n = 0x20 || n = 0x85 || n = 0xa0 || n = 0x1680 ||
    (0x2000 ≤ n && n ≤ 0x200a) || n = 0x2028 || n = 0x2029 || n = 0x202f || n = 0x205f || n = 0x3000

def trim (s : List Char) : List Char := (s.dropWhile isWhitespace).rdropWhile isWhitespace

def toDigit (radix : Nat) (c : Char) : Option Nat :=
  let d :=
    if c.isDigit then c.toNat - '0'.toNat
    else if c.isLower then c.toNat - 'a'.toNat + 10
    else if c.isUpper then c.toNat - 'A'.toNat + 10
    else radix
  if d < radix then some d else none

def isDigit (radix : Nat) (c : Char) : Bool := (toDigit radix c).isSome

/-- A message. -/
structure PropError where
  message : String
deriving DecidableEq

/-- What parsing answers. -/
abbrev Result (α : Type) := Except PropError α

def propErr {α : Type} (message : String) : Result α := .error ⟨message⟩

def splitSign : List Char → List Char × List Char
  | [] => ([], [])
  | c :: s => if c = '+' ∨ c = '-' then ([c], s) else ([], c :: s)

def markerRadix (marker : Char) : Option Nat :=
  if marker = 'x' ∨ marker = 'X' then some 16
  else if marker = 'b' ∨ marker = 'B' then some 2
  else if marker = 'o' ∨ marker = 'O' then some 8
  else none

def markedRadix : List Char → Option Nat
  | zero :: marker :: digit :: _ =>
    if zero = '0' then (markerRadix marker).filter (isDigit · digit) else none
  | _ => none

def inNumber (radix : Nat) (c : Char) : Bool := c = '_' || isDigit radix c

def splitNumber (s : List Char) : List Char × List Char :=
  let (sign, s) := splitSign s
  let radix := (markedRadix s).getD 10
  let i := if (markedRadix s).isSome then 2 else 0
  (sign ++ s.take i ++ (s.drop i).takeWhile (inNumber radix), (s.drop i).dropWhile (inNumber radix))

def strip (p s : List Char) : Option (List Char) :=
  if p.isPrefixOf s then some (s.drop p.length) else none

def radixMarks : List (List Char × Nat) :=
  [(['0', 'x'], 16), (['0', 'X'], 16), (['0', 'b'], 2), (['0', 'B'], 2), (['0', 'o'], 8),
    (['0', 'O'], 8)]

def stripRadix (s : List Char) : Nat × List Char :=
  (radixMarks.findSome? fun (mark, r) =>
    (strip mark s).bind fun rest =>
      if rest.head?.any (isDigit r) then some (r, rest) else none).getD (10, s)

def stripSign (s : List Char) : Bool × List Char :=
  match strip ['-'] s with
  | some rest => (true, rest)
  | none => (false, (strip ['+'] s).getD s)

/-- Put one more digit after the value read so far, and count it. -/
def addDigit (orig what : String) (radix : Nat) (read : Nat × Nat) (c : Char) :
    Result (Nat × Nat) :=
  if c = '_' then .ok read
  else
    match toDigit radix c with
    | none => propErr s!"`{orig}` is not a valid {what}: `{c}` is not a base-{radix} digit"
    | some d =>
      match (checkedMul 64 read.1 radix).bind (checkedAdd 64 · d) with
      | none => propErr s!"`{orig}` is not a valid {what}: value overflows 64 bits"
      | some v => .ok (v, read.2 + 1)

/-- Parse the sign, radix prefix and digits of `num`, rejecting overflow. -/
def digitsToU64 (orig : String) (num : List Char) (what : String) : Result (Bool × Nat) :=
  let (negative, s) := stripSign num
  let (radix, s) := stripRadix s
  if s = [] then propErr s!"`{orig}` is not a valid {what}: no digits"
  else if s.head? = some '_' ∨ s.getLast? = some '_' then
    propErr s!"`{orig}` is not a valid {what}: `_` may only separate digits"
  else
    (s.foldlM (addDigit orig what radix) (0, 0)).bind fun (value, digits) =>
      if digits = 0 then propErr s!"`{orig}` is not a valid {what}: no digits"
      else .ok (negative, value)

/-- A number and nothing after it. -/
def parseUnsigned (text what : String) : Result Nat :=
  let (num, rest) := splitNumber (trim text.toList)
  if rest ≠ [] then
    let rest := String.ofList rest
    propErr s!"`{text}` is not a valid {what}: unexpected `{rest}`"
  else
    (digitsToU64 text num what).bind fun (negative, value) =>
      if negative ∧ value ≠ 0 then propErr s!"`{text}` is not a valid {what}: it is negative"
      else .ok value

def parseUint (text : String) : Result Nat := parseUnsigned text "unsigned integer"

/-- Parse a signed integer. -/
def parseInt (text : String) : Result Int :=
  let what := "signed integer"
  let (num, rest) := splitNumber (trim text.toList)
  if rest ≠ [] then
    let rest := String.ofList rest
    propErr s!"`{text}` is not a valid {what}: unexpected `{rest}`"
  else
    (digitsToU64 text num what).bind fun (negative, magnitude) =>
      let wide : Int := if negative then -magnitude else magnitude
      if -2 ^ 63 ≤ wide ∧ wide < 2 ^ 63 then .ok wide
      else propErr s!"`{text}` is not a valid {what}: value overflows 64 bits"

def sizeExponent (head : Char) : Option Nat :=
  if head = 'k' then some 1
  else if head = 'm' then some 2
  else if head = 'g' then some 3
  else if head = 't' then some 4
  else if head = 'p' then some 5
  else if head = 'e' then some 6
  else none

def badSuffix (orig : String) (suffix : List Char) : Result Nat :=
  let suffix := String.ofList suffix
  propErr <| s!"`{orig}` is not a valid size: unknown suffix `{suffix}` " ++
    "(expected K, M, G, T, P or E, optionally followed by i and/or B — all binary)"

variable (u : Unicode)

/-- How many bytes a suffix stands for. -/
def sizeMultiplier (orig : String) : List Char → Result Nat
  | [] => .ok 1
  | c :: chars =>
    let head := c.toLower
    let tail := chars.flatMap u.toLowercase
    if head = 'b' then if tail = [] then .ok 1 else badSuffix orig (c :: chars)
    else
      match sizeExponent head with
      | none => badSuffix orig (c :: chars)
      | some exponent =>
        if tail ∈ [[], ['i'], ['b'], ['i', 'b']] then .ok (1 <<< (10 * exponent))
        else badSuffix orig (c :: chars)

/-- Parse a byte count with an optional multiplier suffix, every one of them binary. -/
def parseSize (text : String) : Result Nat :=
  let what := "size"
  let (num, suffix) := splitNumber (trim text.toList)
  (digitsToU64 text num what).bind fun (negative, value) =>
    if negative ∧ value ≠ 0 then
      propErr s!"`{text}` is not a valid {what}: a byte count cannot be negative"
    else
      (sizeMultiplier u text suffix).bind fun mult =>
        match checkedMul 64 value mult with
        | none => propErr s!"`{text}` is not a valid {what}: it overflows a 64-bit byte count"
        | some n => .ok n

def sizeSuffixes : List String := ["K", "M", "G", "T", "P", "E"]

def formatSize (n : Nat) : String :=
  if n ≠ 0 then
    (sizeSuffixes.zipIdx.reverse.findSome? fun (suffix, i) =>
      let scale := 1 <<< (10 * (i + 1))
      if n % scale = 0 then some (toString (n / scale) ++ suffix) else none).getD (toString n)
  else toString n

/-- The picoseconds of a unit. -/
def durationScale (unit : List Char) : Option Nat :=
  let lower := unit.flatMap u.toLowercase
  if lower = ['p', 's'] then some 1
  else if lower = ['n', 's'] then some 1000
  else if lower = ['u', 's'] ∨ lower = ['\u00b5', 's'] ∨ lower = ['\u03bc', 's'] then some 1000000
  else if lower = ['m', 's'] then some 1000000000
  else if lower = ['s'] ∨ lower = ['s', 'e', 'c'] then some 1000000000000
  else if lower = ['m'] ∨ lower = ['m', 'i', 'n'] then some 60000000000000
  else if lower = ['h'] ∨ lower = ['h', 'r'] then some 3600000000000000
  else none

/-- The parts of a duration from `rest` on, added to `total`. -/
def partsFrom (text : String) : Nat → Nat → List Char → Result Nat
  | 0, total, _ => .ok total
  | fuel + 1, total, rest =>
    let what := "duration"
    if rest = [] then .ok total
    else
      let (num, after) := splitNumber rest
      let shown := String.ofList num
      if num = [] then
        let rest := String.ofList rest
        propErr s!"`{text}` is not a valid {what}: expected a number at `{rest}`"
      else
        (digitsToU64 text num what).bind fun (_, value) =>
          let unit := after.takeWhile u.isAlphabetic
          let tail := after.dropWhile u.isAlphabetic
          if unit = [] then
            propErr <| s!"`{text}` is not a valid {what}: `{shown}` has no unit " ++
              "(expected ps, ns, us, ms, s, m or h)"
          else
            match durationScale u unit with
            | none =>
              let unit := String.ofList unit
              propErr <| s!"`{text}` is not a valid {what}: unknown unit `{unit}` " ++
                "(expected ps, ns, us, ms, s, m or h)"
            | some scale =>
              match (checkedMul 64 value scale).bind (checkedAdd 64 total ·) with
              | none =>
                propErr <| s!"`{text}` is not a valid {what}: " ++
                  "it overflows a 64-bit picosecond count"
              | some total => partsFrom text fuel total tail

/-- Parse a duration, as picoseconds: a number and a unit, optionally repeated. Every part takes
at least a character, so a part for each character is enough. -/
def parseDuration (text : String) : Result Nat :=
  let what := "duration"
  let s := trim text.toList
  if s = [] then propErr s!"`{text}` is not a valid {what}: empty"
  else if s.head? = some '-' then propErr s!"`{text}` is not a valid {what}: it is negative"
  else partsFrom u text s.length 0 s

def durationUnits : List (Nat × String) :=
  [(3600000000000000, "h"), (60000000000000, "m"), (1000000000000, "s"), (1000000000, "ms"),
    (1000000, "us"), (1000, "ns"), (1, "ps")]

def displayDuration (picos : Nat) : String :=
  if picos = 0 then "0s"
  else
    match durationUnits.find? fun unit => picos % unit.1 = 0 with
    | some (scale, name) => toString (picos / scale) ++ name
    | none => toString picos ++ "ps"

end Rsemu.Props
