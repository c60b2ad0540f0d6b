import Rsemu.Machine.Expand

/-!
# The resolver

From a file's statements to a machine: the `machine` block is chosen, templates and parameters
are collected, the statements are expanded, the declared names are put into one table, and
every expression comes to a value or to a link.

Reading the files is not part of this: `include`s have been spliced into the statements.
-/

namespace Rsemu.Machine

open Fallible

/-- What a name refers to: the index of a declaration of its kind. -/
inductive Decl where
  | osc (id : Nat)
  | space (id : Nat)
  | object (id : Nat)
  deriving DecidableEq

def Decl.what : Decl → String
  | .osc _ => "oscillator"
  | .space _ => "address space"
  | .object _ => "object"

/-- A resolved oscillator. -/
structure Oscillator where
  name : String
  hz : Rational
  nameSpan : Span
  span : Span

/-- A resolved space. -/
structure Space where
  name : String
  props : Props
  propSpans : PropSpans
  nameSpan : Span
  span : Span

/-- What a clock is derived from. -/
inductive ClockParent where
  | osc (id : Nat)
  | object (id : Nat)
  deriving DecidableEq

/-- An object's clock domain: a parent and an exact scale, in lowest terms. -/
structure Clock where
  parent : ClockParent
  mul : UInt64
  div : UInt64
  span : Span

/-- A resolved object. -/
structure Object where
  name : String
  className : String
  clock : Option Clock
  space : Option Nat
  /-- Its properties, with `clock` and `space` removed. -/
  props : Props
  propSpans : PropSpans
  classSpan : Span
  nameSpan : Span
  span : Span

/-- What a mapping maps. -/
inductive MapTarget where
  | region (object : Nat) (region : Option String) (span : Span)
  | mirror (inner : MapTarget) (span : Span)
  | alias (inner : MapTarget) (offset : UInt64) (span : Span)
  | split (reads writes : MapTarget) (span : Span)

/-- A resolved mapping. -/
structure Mapping where
  space : Nat
  base : UInt64
  size : UInt64
  target : MapTarget
  props : Props
  propSpans : PropSpans
  baseSpan : Span
  sizeSpan : Span
  span : Span

/-- One end of a wire. -/
structure Pin where
  object : Nat
  port : String
  span : Span

/-- A resolved wire. -/
structure Wire where
  source : Pin
  sink : Pin
  props : Props
  propSpans : PropSpans
  span : Span

/-- How the machine is to be run. -/
inductive ThreadingMode where
  | deterministic
  | parallel
  deriving DecidableEq

def ThreadingMode.asStr : ThreadingMode → String
  | .deterministic => "deterministic"
  | .parallel => "parallel"

/-- A machine with every name resolved and every value evaluated. -/
structure Resolved where
  name : String
  /-- Parameter values after overrides, in declaration order. -/
  params : Props
  paramSpans : PropSpans
  oscillators : List Oscillator
  spaces : List Space
  objects : List Object
  maps : List Mapping
  wires : List Wire
  nameSpan : Span
  threading : Option ThreadingMode
  threadingSpan : Option Span
  span : Span

/-- A `machine` block. -/
structure MachineDecl where
  name : String
  nameSpan : Span
  body : List Stmt
  span : Span

def Stmt.machine? : Stmt → Option MachineDecl
  | .machine name nameSpan body span => some ⟨name, nameSpan, body, span⟩
  | _ => none

def Stmt.isPrelude : Stmt → Bool
  | .machine _ _ _ _ | .param _ | .template _ _ _ _ => false
  | _ => true

/-- The `machine` block to resolve, and the statements that make it up. -/
def selectMachine (o : Options) (stmts : List Stmt) :
    Except Diagnostic (MachineDecl × List Stmt) :=
  let machines := stmts.filterMap Stmt.machine?
  let chosen : Except Diagnostic MachineDecl :=
    match machines with
    | [] =>
      .error ⟨(stmts.head?.map Stmt.span).getD (.point 0),
        "no `machine` block: a description must declare one, as in `machine \"nes\" \x7b … \x7d`",
        none⟩
    | first :: others =>
      let names := listNames (machines.map MachineDecl.name)
      match o.machine with
      | some want =>
        match machines.find? fun m => m.name == want with
        | some m => .ok m
        | none => .error ⟨first.nameSpan,
            s!"no machine named `{want}`; this description declares {names}", none⟩
      | none =>
        match others with
        | [] => .ok first
        | second :: _ =>
          .error ⟨second.nameSpan,
            s!"this description declares several machines ({names}); say which one to resolve",
            some (first.nameSpan, "the first one is declared here")⟩
  chosen.map fun m => (m, stmts.filter Stmt.isPrelude ++ m.body)

/-- Collect `template` declarations, rejecting duplicates. -/
def collectTemplates :
    List Stmt → List (String × Template) → Except Diagnostic (List (String × Template))
  | [], templates => .ok templates
  | .template name params body _ :: stmts, templates =>
    (literalName name "a template name").bind fun text =>
      match entry templates text with
      | some prev => .error ⟨name.span, s!"template `{text}` is declared twice",
          some (prev.nameSpan, "first declared here")⟩
      | none => collectTemplates stmts (setEntry templates text ⟨params, body, name.span⟩)
  | _ :: stmts, templates => collectTemplates stmts templates

/-- The declared parameters, each with its name, rejecting duplicates. -/
def declaredParams : List Stmt → List (String × ParamDecl) →
    Except Diagnostic (List (String × ParamDecl))
  | [], decls => .ok decls
  | .param p :: stmts, decls =>
    (literalName p.name "a parameter name").bind fun name =>
      match entry decls name with
      | some prev => .error ⟨p.name.span, s!"parameter `{name}` is declared twice",
          some (prev.name.span, "first declared here")⟩
      | none => declaredParams stmts (decls ++ [(name, p)])
  | _ :: stmts, decls => declaredParams stmts decls

/-- A declaration that a loop or a template body cannot repeat. -/
def nestedParam (body : List Stmt) : Except Diagnostic Unit :=
  let nested : Stmt → Option (Span × String)
    | .param p => some (p.span, "param")
    | .template _ _ _ span => some (span, "template")
    | _ => none
  match body.findSome? nested with
  | some (span, what) => .error ⟨span,
      s!"`{what}` must be declared at file scope or directly inside a `machine` block", none⟩
  | none => .ok ()

mutual

def rejectNestedParams : List Stmt → Except Diagnostic Unit
  | [] => .ok ()
  | stmt :: stmts => (rejectNested stmt).bind fun _ => rejectNestedParams stmts

def rejectNested : Stmt → Except Diagnostic Unit
  | .forStmt _ _ _ _ body _ => (nestedParam body).bind fun _ => rejectNestedParams body
  | .template _ _ body _ => (nestedParam body).bind fun _ => rejectNestedParams body
  | _ => .ok ()

end

/-- The expression a parameter is bound to: the last override, or its default. -/
def paramExpr (sc : Scalars) (o : Options) (name : String) (decl : ParamDecl) :
    Except Diagnostic Expr :=
  match (o.params.reverse.find? fun e => e.1 == name).map Prod.snd with
  | some text =>
    match valueExpr (sc.parse text) decl.name.span with
    | some e => .ok e
    | none => .error ⟨decl.name.span, s!"`-p {name}={text}` cannot be used as a value here", none⟩
  | none =>
    match decl.default with
    | some e => .ok e
    | none => .error ⟨decl.span,
        s!"parameter `{name}` has no default and was not given a value (pass `-p {name}=…`)", none⟩

def bindParams (sc : Scalars) (o : Options) :
    List (String × ParamDecl) → Frame → Except Diagnostic Frame
  | [], params => .ok params
  | (name, decl) :: decls, params =>
    (paramExpr sc o name decl).bind fun e =>
      bindParams sc o decls (setEntry params name (bindExpr e decl.name.span))

/-- Collect `param` declarations and apply the caller's overrides. -/
def collectParams (sc : Scalars) (o : Options) (file machine : List Stmt) :
    Except Diagnostic Frame :=
  (declaredParams (file ++ machine) []).bind fun decls =>
    (rejectNestedParams file).bind fun _ =>
      (rejectNestedParams machine).bind fun _ =>
        (bindParams sc o decls []).bind fun params =>
          match o.params.find? fun e => (entry params e.1).isNone with
          | some e =>
            .error ⟨(decls.head?.map fun d => d.2.span).getD (.point 0),
              s!"no parameter named `{e.1}`; this machine declares {listNames (decls.map Prod.fst)}",
              none⟩
          | none => .ok params

/-- The names declared so far. -/
abbrev Table := List (String × Decl × Span)

def article (what : String) : String :=
  match what.toList.head? with
  | some 'a' | some 'e' | some 'i' | some 'o' | some 'u' => s!"an {what}"
  | _ => s!"a {what}"

/-- The next number of each kind. -/
structure Counters where
  oscs : Nat
  spaces : Nat
  objects : Nat

/-- What a statement declares, and under which number. -/
def declares (c : Counters) : Stmt → Option (Name × Decl × Counters)
  | .osc d => some (d.name, .osc c.oscs, { c with oscs := c.oscs + 1 })
  | .space d => some (d.name, .space c.spaces, { c with spaces := c.spaces + 1 })
  | .object d => some (d.name, .object c.objects, { c with objects := c.objects + 1 })
  | _ => none

/-- One namespace for oscillators, spaces and objects, with duplicates rejected. -/
def buildTables (params : Frame) : List Scoped → Counters → Table → Except Diagnostic Table
  | [], _, table => .ok table
  | ⟨scope, stmt⟩ :: stmts, c, table =>
    match declares c stmt with
    | none => buildTables params stmts c table
    | some (n, decl, c) =>
      let name := n.asLiteral.getD ""
      let full := scope ++ name
      match entry params name with
      | some binding =>
        .error ⟨n.span, s!"`{name}` is ambiguous: it is declared both as a parameter and as " ++
          s!"{article decl.what} `{full}`", some (binding.span, "the parameter is declared here")⟩
      | none =>
        match entry table full with
        | some prev =>
          .error ⟨n.span, s!"`{full}` is declared twice, as {prev.1.what} and as {decl.what}",
            some (prev.2, "first declared here")⟩
        | none => buildTables params stmts c (table ++ [(full, decl, n.span)])

def outer (scope : List Char) : List Char := (scope.dropWhile (· == '.')).dropWhile (· != '.')

def enclosing : Nat → List Char → List (List Char)
  | 0, _ => []
  | n + 1, scope => if scope.isEmpty then [] else scope :: enclosing n (outer scope)

def scopes (scope : String) : List String :=
  (enclosing scope.length scope.toList.reverse).map (fun s => String.ofList s.reverse) ++ [""]

def lookup (table : Table) (scope name : String) : Option (String × Decl) :=
  (scopes scope).findSome? fun p => (entry table (p ++ name)).map fun d => (p ++ name, d.1)

def declSpan (table : Table) (name : String) : Option Span := (entry table name).map Prod.snd

def namesOf (table : Table) (want : Decl → Bool) : List String :=
  (table.filter fun d => want d.2.1).map Prod.fst

def Decl.isObject : Decl → Bool
  | .object _ => true
  | _ => false

def Decl.isSpace : Decl → Bool
  | .space _ => true
  | _ => false

def segmentTexts : List Name → Except Diagnostic (List String)
  | [] => .ok []
  | n :: ns =>
    match n.asLiteral with
    | none => .error ⟨n.span, "this name was never substituted", none⟩
    | some text => (segmentTexts ns).map fun texts => text :: texts

/-- One namespace and one length of the object's name, tried against the table. -/
def objectAt (table : Table) (segments : List String) (span : Span) (scope : String) (take : Nat) :
    Option (Except Diagnostic (Nat × Option String)) :=
  let candidate := scope ++ String.intercalate "." (segments.take take)
  match entry table candidate with
  | some (.object id, _) =>
    let rest := String.intercalate "." (segments.drop take)
    some (.ok (id, if rest.isEmpty then none else some rest))
  | some (other, declared) =>
    if take = segments.length then
      let written := String.intercalate "." segments
      some (.error ⟨span, s!"`{written}` is {article other.what} `{candidate}`, not an object",
        some (declared, "declared here")⟩)
    else none
  | none => none

/--
Split a dotted path into the object it names and whatever follows: the innermost namespace
first and, within one, the longest name first.
-/
def objectPath (table : Table) (p : Path) (scope : String) (wantPort : Bool) :
    Except Diagnostic (Nat × Option String) :=
  (segmentTexts p.segments).bind fun segments =>
    let limit := if wantPort then segments.length - 1 else segments.length
    let tries := (scopes scope).flatMap fun s =>
      ((List.range limit).reverse.map fun i => (s, i + 1))
    match tries.findSome? fun t => objectAt table segments p.span t.1 t.2 with
    | some r => r
    | none =>
      let missing := String.intercalate "." (segments.take (min (max limit 1) segments.length))
      .error ⟨p.span, s!"no object named `{missing}`; objects in scope are " ++
        listNames (namesOf table Decl.isObject), none⟩

/-- An identifier that has to name an address space. -/
def spaceNamed (table : Table) (name : String) (span : Span) (scope : String) :
    Except Diagnostic Nat :=
  match lookup table scope name with
  | some (_, .space id) => .ok id
  | some (full, other) =>
    .error ⟨span, s!"`{name}` is {article other.what} `{full}`, not an address space",
      some ((declSpan table full).getD span, "declared here")⟩
  | none =>
    .error ⟨span, s!"no address space named `{name}`; declared spaces are " ++
      listNames (namesOf table Decl.isSpace), none⟩

def spaceLink (table : Table) (e : Expr) (scope : String) : Except Diagnostic Nat :=
  match e with
  | .path p => spaceNamed table (p.asLiteral.getD "") p.span scope
  | _ => .error ⟨e.span, "`space` must name a declared address space", none⟩

/-- The pin a wire's end names. -/
def pin (table : Table) (p : Path) (scope : String) : Except Diagnostic Pin :=
  let missing : Diagnostic := ⟨p.span, "a wire endpoint must name a pin, as in `cpu.nmi`", none⟩
  if p.segments.length < 2 then .error missing
  else
    (objectPath table p scope true).bind fun r =>
      match r.2 with
      | none => .error missing
      | some port => .ok ⟨r.1, port, p.span⟩

/-- A dotted path as a link. -/
def dottedLink (table : Table) (p : Path) (text : String) (scope : String) :
    Except Diagnostic Value :=
  (objectPath table p scope false).bind fun r =>
    let name := ((table.find? fun d => d.2.1 == .object r.1).map Prod.fst).getD text
    match r.2 with
    | some rest => linkTo (name ++ "." ++ rest) p.span
    | none => linkTo name p.span

/-- The bare-identifier rule: a declared name is a link, anything else is a string. -/
def pathValue (table : Table) (p : Path) (scope : String) : Except Diagnostic Value :=
  match p.asLiteral with
  | none => .error ⟨p.span, "this name was never substituted", none⟩
  | some text =>
    if p.segments.length = 1 then
      match lookup table scope text with
      | some (full, _) => linkTo full p.span
      | none => .ok (.str text (writtenName p).isSome)
    else dottedLink table p text scope

section Evaluation

variable (table : Table) (scope : String)

mutual

/-- Evaluate one expression. -/
def value : Expr → Except Diagnostic Value
  | .num lit span => numValue lit span
  | .str text _ => .ok (.str text false)
  | .bool b _ => .ok (.bool b)
  | .path p => pathValue table p scope
  | .list items _ => (values items).map .list
  | .map entries _ => (propsFrom entries [] []).map fun r => .map r.1
  | .unary .neg operand span =>
    (value operand).bind fun v => arith .sub (.int 0) v span
  | .binary op lhs rhs span =>
    (value lhs).bind fun a => (value rhs).bind fun b => arith op a b span
  | .call callee _ span =>
    let name := callee.asLiteral.getD ""
    .error ⟨span, s!"`{name}(…)` is only meaningful as a `map` target", none⟩

def values : List Expr → Except Diagnostic (List Value)
  | [] => .ok []
  | e :: es => (value e).bind fun v => (values es).map fun vs => v :: vs

/-- The properties of a block, each once. -/
def propsFrom : List Property → Props → PropSpans → Except Diagnostic (Props × PropSpans)
  | [], out, spans => .ok (out, spans)
  | .mk n e _ :: ps, out, spans =>
    let name := n.asLiteral.getD ""
    match entry spans name with
    | some prev => .error ⟨n.span, s!"property `{name}` is set twice", some (prev, "first set here")⟩
    | none =>
      (value e).bind fun v => propsFrom ps (setEntry out name v) (setEntry spans name n.span)

end

def props (ps : List Property) : Except Diagnostic (Props × PropSpans) :=
  propsFrom table scope ps [] []

end Evaluation

end Rsemu.Machine
