import Rsemu.Float.Kernel

/-!
# The operations

Addition, multiplication, division, square root and the fused multiply-add on values
taken apart. Each deals with NaNs, infinities and zeros first and then brings the exact
result of two finite operands into a sticky significand for `roundExact`.
-/

namespace Rsemu.Float

def laterLarger (best : Option Parts) (p : Parts) : Option Parts :=
  match best with
  | some b => if b.frac ≤ p.frac then some p else some b
  | none => some p

def pickNan (p : Parts) : Outcome := .nan p.sign p.frac

/-- The NaN the environment's rules choose. -/
def chooseNan (ops : List Parts) (env : Env) : Option Outcome :=
  let first (wantSnan : Bool) := ops.find? fun p => p.cls == .nan && p.snan == wantSnan
  match env.nan.propagate with
  | .default => some .defaultNan
  | .firstNan => (ops.find? fun p => p.cls == .nan).map pickNan
  | .signalingFirst => ((first true).orElse fun _ => first false).map pickNan
  | .largerSignificand =>
    let quiet := (first false).isSome
    ((ops.reverse.filter fun p => p.cls == .nan && p.snan != quiet).foldl laterLarger none).map
      pickNan

def nanResult (ops : List Parts) (env : Env) : Option (Outcome × Flags) :=
  if ops.any fun p => p.cls == .nan then
    (chooseNan ops env).map fun out =>
      (out, { invalid := ops.any fun p => p.cls == .nan && p.snan })
  else none

def cancelledSign (env : Env) : Bool := env.round == .towardNegative

def Parts.normalized (p : Parts) : Option Parts :=
  if p.cls = .finite ∧ p.frac ≠ 0 then
    let n := 63 - p.frac.log2
    (i32 (p.exp - n)).map fun exp => { p with frac := p.frac <<< n, exp := exp }
  else some p

def slack : Nat := 62

def combine (hiSign loSign : Bool) (sigHi sigLo : Nat) : Option (Bool × Nat) :=
  if hiSign = loSign then (u128 (sigHi + sigLo)).map fun sig => (hiSign, sig)
  else if sigLo ≤ sigHi then some (hiSign, sigHi - sigLo)
  else some (loSign, sigLo - sigHi)

/-- The sum of two numbers brought to one exponent. -/
def addAligned (hi lo : Parts) (spec : Spec) (env : Env) : Option (Outcome × Flags) :=
  (u128 (hi.frac <<< slack)).bind fun sigHi =>
    (u128 (lo.frac <<< slack)).bind fun wide =>
      (i32 (hi.exp - lo.exp)).bind fun d =>
        (combine hi.sign lo.sign sigHi (shrSticky wide d.toNat)).bind fun r =>
          if r.2 = 0 then some (.num (cancelledSign env) .zero, .none)
          else (i32 (hi.exp - slack)).bind fun exp => roundExact r.1 exp r.2 spec env

def addFinite (a b : Parts) (spec : Spec) (env : Env) : Option (Outcome × Flags) :=
  a.normalized.bind fun a =>
    b.normalized.bind fun b =>
      if b.exp ≤ a.exp then addAligned a b spec env else addAligned b a spec env

/-- `a + b`, with `b` optionally negated first. -/
def add (a b : Parts) (negate : Bool) (spec : Spec) (env : Env) : Option (Outcome × Flags) :=
  let b := if negate then { b with sign := !b.sign } else b
  match nanResult [a, b] env with
  | some r => some r
  | none =>
    match a.cls, b.cls with
    | .inf, .inf =>
      if a.sign = b.sign then some (.num a.sign .inf, .none)
      else some (.defaultNan, { invalid := true })
    | .inf, _ => some (.num a.sign .inf, .none)
    | _, .inf => some (.num b.sign .inf, .none)
    | .zero, .zero =>
      some (.num (if a.sign = b.sign then a.sign else cancelledSign env) .zero, .none)
    | .zero, _ => roundExact b.sign b.exp b.frac spec env
    | _, .zero => roundExact a.sign a.exp a.frac spec env
    | _, _ => addFinite a b spec env

def mulFinite (a b : Parts) (spec : Spec) (env : Env) : Option (Outcome × Flags) :=
  (u128 (a.frac * b.frac)).bind fun sig =>
    (i32 (a.exp + b.exp)).bind fun exp => roundExact (a.sign ^^ b.sign) exp sig spec env

/-- The product, rounded once. -/
def mul (a b : Parts) (spec : Spec) (env : Env) : Option (Outcome × Flags) :=
  match nanResult [a, b] env with
  | some r => some r
  | none =>
    match a.cls, b.cls with
    | .inf, .zero => some (.defaultNan, { invalid := true })
    | .zero, .inf => some (.defaultNan, { invalid := true })
    | .inf, _ => some (.num (a.sign ^^ b.sign) .inf, .none)
    | _, .inf => some (.num (a.sign ^^ b.sign) .inf, .none)
    | .zero, _ => some (.num (a.sign ^^ b.sign) .zero, .none)
    | _, .zero => some (.num (a.sign ^^ b.sign) .zero, .none)
    | _, _ => mulFinite a b spec env

def quotient (num den : Nat) : Option Nat :=
  (u128 (num <<< 63)).bind fun n1 =>
    (u128 ((n1 % den) <<< 8)).bind fun n2 =>
      (u128 ((n1 / den) <<< 8)).map fun q =>
        let q := q ||| n2 / den
        if n2 % den ≠ 0 then q ||| 1 else q

def divFinite (a b : Parts) (spec : Spec) (env : Env) : Option (Outcome × Flags) :=
  a.normalized.bind fun a =>
    b.normalized.bind fun b =>
      (quotient a.frac b.frac).bind fun q =>
        (i32 (a.exp - b.exp)).bind fun d =>
          (i32 (d - 71)).bind fun exp => roundExact (a.sign ^^ b.sign) exp q spec env

/-- The quotient, rounded once. -/
def div (a b : Parts) (spec : Spec) (env : Env) : Option (Outcome × Flags) :=
  match nanResult [a, b] env with
  | some r => some r
  | none =>
    match a.cls, b.cls with
    | .inf, .inf => some (.defaultNan, { invalid := true })
    | .zero, .zero => some (.defaultNan, { invalid := true })
    | .inf, _ => some (.num (a.sign ^^ b.sign) .inf, .none)
    | _, .inf => some (.num (a.sign ^^ b.sign) .zero, .none)
    | _, .zero => some (.num (a.sign ^^ b.sign) .inf, { divByZero := true })
    | .zero, _ => some (.num (a.sign ^^ b.sign) .zero, .none)
    | _, _ => divFinite a b spec env

def isqrtStep (s : Nat × Nat) (pair : Nat) : Option (Nat × Nat) :=
  (u128 (s.1 <<< 2)).bind fun rem =>
    (u128 (s.2 <<< 1)).bind fun root =>
      (u128 (root <<< 1)).map fun trial =>
        let rem := rem ||| pair
        let trial := trial ||| 1
        if trial ≤ rem then (rem - trial, root ||| 1) else (rem, root)

def isqrtPairs (radicand : Nat) : Nat → Nat × Nat → Option (Nat × Nat)
  | 0, s => isqrtStep s (radicand &&& 3)
  | n + 1, s => (isqrtStep s (radicand >>> (2 * (n + 1)) &&& 3)).bind (isqrtPairs radicand n)

def isqrtExtra : Nat → Nat × Nat → Option (Nat × Nat)
  | 0, s => some s
  | n + 1, s => (isqrtStep s 0).bind (isqrtExtra n)

/-- The integer square root of a radicand extended by `extra` zero pairs, and whether
anything was left over. -/
def isqrt (radicand extraPairs : Nat) : Option (Nat × Bool) :=
  if radicand = 0 then some (0, false)
  else
    ((isqrtPairs radicand (radicand.log2 / 2) (0, 0)).bind (isqrtExtra extraPairs)).map fun s =>
      (s.2, s.1 != 0)

def extraPairs : Nat := 40

def evenExp (frac : Nat) (exp : Int) : Option (Nat × Int) :=
  if exp % 2 ≠ 0 then
    (u128 (frac <<< 1)).bind fun frac => (i32 (exp - 1)).map fun exp => (frac, exp)
  else some (frac, exp)

def sqrtFinite (a : Parts) (spec : Spec) (env : Env) : Option (Outcome × Flags) :=
  a.normalized.bind fun a =>
    (evenExp a.frac a.exp).bind fun e =>
      (isqrt e.1 extraPairs).bind fun r =>
        (i32 (e.2 / 2 - extraPairs)).bind fun exp =>
          roundExact false exp (if r.2 then r.1 ||| 1 else r.1) spec env

/-- The square root, rounded once. -/
def sqrt (a : Parts) (spec : Spec) (env : Env) : Option (Outcome × Flags) :=
  match nanResult [a] env with
  | some r => some r
  | none =>
    match a.cls, a.sign with
    | .zero, sign => some (.num sign .zero, .none)
    | _, true => some (.defaultNan, { invalid := true })
    | .inf, false => some (.num false .inf, .none)
    | _, false => sqrtFinite a spec env

/-- 256 bits, in two words. -/
structure Wide where
  hi : Nat
  lo : Nat
  deriving DecidableEq

namespace Wide

def zero : Wide := ⟨0, 0⟩

def ofU128 (v : Nat) : Wide := ⟨0, v⟩

def toNat (w : Wide) : Nat := w.hi * 2 ^ 128 + w.lo

def shl (w : Wide) (n : Nat) : Option Wide :=
  if w.toNat * 2 ^ n < 2 ^ 256 then
    some <|
      if n = 0 then w
      else if 256 ≤ n then zero
      else if 128 ≤ n then ⟨w.lo <<< (n - 128) % 2 ^ 128, 0⟩
      else ⟨w.hi <<< n % 2 ^ 128 ||| w.lo >>> (128 - n), w.lo <<< n % 2 ^ 128⟩
  else none

/-- `self >> n`, folding everything shifted out into bit 0. -/
def shrSticky (w : Wide) (n : Nat) : Wide :=
  if n = 0 then w
  else if 256 ≤ n then ofU128 (bit (w != zero))
  else if 128 ≤ n then
    let lost := w.lo != 0 || (decide (128 < n) && w.hi &&& (1 <<< (n - 128) - 1) != 0)
    ⟨0, w.hi >>> (n - 128) ||| bit lost⟩
  else
    let lost := w.lo &&& (1 <<< n - 1) != 0
    ⟨w.hi >>> n, w.hi <<< (128 - n) % 2 ^ 128 ||| w.lo >>> n ||| bit lost⟩

def add (a b : Wide) : Option Wide :=
  if a.toNat + b.toNat < 2 ^ 256 then
    some ⟨(a.hi + b.hi + (a.lo + b.lo) / 2 ^ 128) % 2 ^ 128, (a.lo + b.lo) % 2 ^ 128⟩
  else none

def sub (a b : Wide) : Option Wide :=
  if b.toNat ≤ a.toNat then
    let borrow := bit (decide (a.lo < b.lo))
    some ⟨(a.hi + 2 ^ 128 + 2 ^ 128 - b.hi - borrow) % 2 ^ 128, (a.lo + 2 ^ 128 - b.lo) % 2 ^ 128⟩
  else none

def ge (a b : Wide) : Bool := decide (b.hi < a.hi) || (a.hi == b.hi && decide (b.lo ≤ a.lo))

def narrow (w : Wide) : Nat × Nat :=
  if w.hi = 0 then (w.lo, 0) else ((w.shrSticky (w.hi.log2 + 1)).lo, w.hi.log2 + 1)

end Wide

def place (base : Int) (v : Nat) (exp : Int) : Option Wide :=
  (i32 (exp - base)).bind fun shift =>
    if 0 ≤ shift then (Wide.ofU128 v).shl shift.toNat
    else some ((Wide.ofU128 v).shrSticky (-shift).toNat)

def combineWide (psign csign : Bool) (p c : Wide) : Option (Bool × Wide) :=
  if psign = csign then (p.add c).map fun s => (psign, s)
  else if p.ge c then (p.sub c).map fun s => (psign, s)
  else (c.sub p).map fun s => (csign, s)

/-- The exact product and the addend in one window, rounded once. -/
def fmaFinite (a b c : Parts) (spec : Spec) (env : Env) : Option (Outcome × Flags) :=
  a.normalized.bind fun a => b.normalized.bind fun b => c.normalized.bind fun c =>
    (u128 (a.frac * b.frac)).bind fun prod =>
      (i32 (a.exp + b.exp)).bind fun pexp =>
        (i32 (pexp + 128)).bind fun ptop => (i32 (c.exp + 64)).bind fun ctop =>
          (i32 (max ptop ctop - 250)).bind fun base =>
            (place base prod pexp).bind fun psig => (place base c.frac c.exp).bind fun csig =>
              (combineWide (a.sign ^^ b.sign) c.sign psig csig).bind fun r =>
                if r.2 = Wide.zero then some (.num (cancelledSign env) .zero, .none)
                else (i32 (base + r.2.narrow.2)).bind fun exp =>
                  roundExact r.1 exp r.2.narrow.1 spec env

/-- A product and a sum, rounded once. -/
def fmaNumbers (a b c : Parts) (spec : Spec) (env : Env) : Option (Outcome × Flags) :=
  if a.cls = .zero ∨ b.cls = .zero then
    if c.cls = .zero then
      some (.num (if (a.sign ^^ b.sign) = c.sign then a.sign ^^ b.sign else cancelledSign env) .zero,
        .none)
    else roundExact c.sign c.exp c.frac spec env
  else if c.cls = .zero then mul a b spec env
  else fmaFinite a b c spec env

/-- `a * b + c` with one rounding at the end. -/
def fma (a b c : Parts) (spec : Spec) (env : Env) : Option (Outcome × Flags) :=
  if (a.cls = .inf ∧ b.cls = .zero) ∨ (a.cls = .zero ∧ b.cls = .inf) then
    some (.defaultNan, { invalid := true })
  else
    match nanResult [a, b, c] env with
    | some r => some r
    | none =>
      if a.cls = .inf ∨ b.cls = .inf then
        if c.cls = .inf ∧ c.sign ≠ (a.sign ^^ b.sign) then some (.defaultNan, { invalid := true })
        else some (.num (a.sign ^^ b.sign) .inf, .none)
      else if c.cls = .inf then some (.num c.sign .inf, .none)
      else fmaNumbers a b c spec env

end Rsemu.Float
