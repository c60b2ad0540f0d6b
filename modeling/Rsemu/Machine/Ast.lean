import Rsemu.Machine.Rational

/-!
# The syntax tree of a machine file

Names, expressions and statements as the parser hands them over, each with the source range it
was written at. A name may contain substitutions, so names, paths, properties and expressions
are one mutual family.
-/

namespace Rsemu.Machine

/-- A range of the source text. -/
structure Span where
  start : Nat
  stop : Nat

namespace Span

def point (offset : Nat) : Span := ⟨offset, offset⟩

def join (a b : Span) : Span :=
  let start := min a.start b.start
  let stop := max a.stop b.stop
  ⟨start, if stop < start then start else stop⟩

end Span

/-- An error, with an optional second location that explains the first. -/
structure Diagnostic where
  span : Span
  message : String
  note : Option (Span × String) := none

/-- The base a number is written in. -/
inductive Radix where
  | bin
  | oct
  | dec
  | hex
  deriving DecidableEq

/-- The unit of a size. -/
inductive SizeUnit where
  | byte
  | kilo
  | mega
  | giga
  | tera

/-- The unit of a duration. -/
inductive DurationUnit where
  | nanos
  | micros
  | millis
  | secs

/-- The unit after a number. -/
inductive NumUnit where
  | none
  | size (unit : SizeUnit)
  | duration (unit : DurationUnit)

/-- An integer literal; the value is scaled by the suffix, to bytes or to nanoseconds. -/
structure NumLit where
  value : UInt64
  digits : UInt64
  radix : Radix
  unit : NumUnit

/-- The unary operators. -/
inductive UnOp where
  | neg

/-- The binary operators. -/
inductive BinOp where
  | add
  | sub
  | mul
  | div
  | rem

def BinOp.asStr : BinOp → String
  | .add => "+"
  | .sub => "-"
  | .mul => "*"
  | .div => "/"
  | .rem => "%"

mutual

/--
One piece of a name. A text that came out of a substitution is marked as computed; nothing here
reads the mark, which is kept only to say what was written.
-/
inductive NamePart where
  | literal (text : String) (computed : Bool)
  /-- `$i` or `${expr}`, evaluated when the loop or the template is expanded. -/
  | substitution (expr : Expr)

/-- A name, parts of which may be parameters. -/
inductive Name where
  | mk (parts : List NamePart) (span : Span)

/-- A dotted path. -/
inductive Path where
  | mk (segments : List Name) (span : Span)

/-- A property and its value. -/
inductive Property where
  | mk (name : Name) (value : Expr) (span : Span)

/-- An expression. -/
inductive Expr where
  | num (lit : NumLit) (span : Span)
  | str (text : String) (span : Span)
  | bool (b : Bool) (span : Span)
  | path (p : Path)
  | call (callee : Path) (args : List Expr) (span : Span)
  | unary (op : UnOp) (operand : Expr) (span : Span)
  | binary (op : BinOp) (lhs rhs : Expr) (span : Span)
  | list (items : List Expr) (span : Span)
  | map (entries : List Property) (span : Span)

end

namespace Name

def parts : Name → List NamePart
  | .mk parts _ => parts

def span : Name → Span
  | .mk _ span => span

def asLiteral (n : Name) : Option String :=
  match n.parts with
  | [.literal text _] => some text
  | _ => none

def written (n : Name) : Option String :=
  match n.parts with
  | [.literal text false] => some text
  | _ => none

end Name

namespace Path

def segments : Path → List Name
  | .mk segments _ => segments

def span : Path → Span
  | .mk _ span => span

def asLiteral (p : Path) : Option String :=
  (p.segments.mapM Name.asLiteral).map (String.intercalate ".")

end Path

namespace Property

def name : Property → Name
  | .mk name _ _ => name

def value : Property → Expr
  | .mk _ value _ => value

end Property

def Expr.span : Expr → Span
  | .num _ span => span
  | .str _ span => span
  | .bool _ span => span
  | .path p => p.span
  | .call _ _ span => span
  | .unary _ _ span => span
  | .binary _ _ _ span => span
  | .list _ span => span
  | .map _ span => span

def remChecked (a b : Rational) (rhs span : Span) : Except Diagnostic (Option Rational) :=
  match a.toInteger, b.toInteger with
  | some x, some y =>
    if y = 0 then .error ⟨rhs, "division by zero", none⟩ else .ok (Rational.new (x.tmod y) 1)
  | _, _ => .error ⟨span, "`%` needs whole numbers on both sides", none⟩

/-- One operation of the literal-only subset. -/
def BinOp.rational (op : BinOp) (a b : Rational) (rhs span : Span) : Except Diagnostic Rational :=
  let out : Except Diagnostic (Option Rational) :=
    match op with
    | .add => .ok (a.checkedAdd b)
    | .sub => .ok (a.checkedSub b)
    | .mul => .ok (a.checkedMul b)
    | .div =>
      if b = Rational.zero then .error ⟨rhs, "division by zero", none⟩
      else .ok (a.checkedDiv b)
    | .rem => remChecked a b rhs span
  out.bind fun r =>
    match r with
    | some r => .ok r
    | none => .error ⟨span, "value is out of range", none⟩

/-- Evaluate the literal-only subset exactly. -/
def Expr.evalRational : Expr → Except Diagnostic Rational
  | .num lit span =>
    match Rational.new lit.value.toNat 1 with
    | some r => .ok r
    | none => .error ⟨span, "number is out of range", none⟩
  | .unary .neg operand span =>
    operand.evalRational.bind fun v =>
      match v.checkedNeg with
      | some r => .ok r
      | none => .error ⟨span, "value is out of range", none⟩
  | .binary op lhs rhs span =>
    lhs.evalRational.bind fun a =>
      rhs.evalRational.bind fun b => op.rational a b rhs.span span
  | other => .error ⟨other.span,
      "expected a constant number here; names are only known after resolution", none⟩

/-- The unit of a frequency. -/
inductive FreqUnit where
  | hz
  | kHz
  | mHz
  | gHz

def FreqUnit.scale : FreqUnit → Int
  | .hz => 1
  | .kHz => 1000
  | .mHz => 1000000
  | .gHz => 1000000000

/-- A knob the command line can override; without a default the caller has to. -/
structure ParamDecl where
  name : Name
  default : Option Expr
  span : Span

/-- An `osc` declaration. -/
structure OscDecl where
  name : Name
  freq : Expr
  unit : FreqUnit
  unitSpan : Span
  span : Span

/-- A `space` declaration. -/
structure SpaceDecl where
  name : Name
  props : List Property
  span : Span

/-- An object's declaration. -/
structure ObjectDecl where
  name : Name
  /-- The registry class. -/
  className : String
  classSpan : Span
  props : List Property
  span : Span

/-- A `map` statement. -/
structure MapStmt where
  space : Name
  base : Expr
  size : Expr
  target : Expr
  props : List Property
  span : Span

/-- A `wire` statement. -/
structure WireStmt where
  source : Path
  sink : Path
  props : List Property
  span : Span

/-- A `threading` statement. -/
structure ThreadingStmt where
  mode : String
  modeSpan : Span
  span : Span

/-- A parameter of a template. -/
structure TemplateParam where
  name : Name
  default : Option Expr
  span : Span

/-- An argument of an instance. -/
structure Arg where
  name : Option Name
  value : Expr
  span : Span

/-- An instance of a template. -/
structure InstanceStmt where
  name : Name
  template : Name
  args : List Arg
  span : Span

/-- One statement. `include`s are spliced before anything here sees them. -/
inductive Stmt where
  | machine (name : String) (nameSpan : Span) (body : List Stmt) (span : Span)
  | param (p : ParamDecl)
  | osc (o : OscDecl)
  | space (s : SpaceDecl)
  | object (o : ObjectDecl)
  | map (m : MapStmt)
  | wire (w : WireStmt)
  | threading (t : ThreadingStmt)
  | template (name : Name) (params : List TemplateParam) (body : List Stmt) (span : Span)
  | instanceStmt (i : InstanceStmt)
  | forStmt (var : Name) (start stop : Expr) (inclusive : Bool) (body : List Stmt) (span : Span)

/-- The frequency in hertz. -/
def OscDecl.frequencyHz (o : OscDecl) : Except Diagnostic Rational :=
  o.freq.evalRational.bind fun base =>
    match Rational.new o.unit.scale 1 with
    | none => .error ⟨o.unitSpan, "frequency unit is out of range", none⟩
    | some scale =>
      match base.checkedMul scale with
      | some r => .ok r
      | none => .error ⟨o.freq.span, "frequency is out of range", none⟩

end Rsemu.Machine
