import Rsemu.Base.Fallible
import Rsemu.Machine.Value

/-!
# Expansion

Parameters are bound, templates instantiated and loops unrolled. What comes out is a flat list
of declarations, each with the namespace it was expanded into, with the bound names in its
expressions replaced and its own names computed.

Substitution is charged against a budget of expression nodes and expansion against one of
statements, so a computation here carries two counters, and fails with a diagnostic.
-/

namespace Rsemu.Machine

open Fallible

/-- The resolver's options. -/
structure Options where
  /-- Parameter overrides, in command-line order. -/
  params : List (String × String)
  /-- Which `machine` block to resolve, when there are several. -/
  machine : Option String
  /-- How deep templates and loops may nest. -/
  maxDepth : Nat
  maxStatements : Nat
  maxIterations : Nat
  maxExprNodes : Nat

def Options.default : Options := ⟨[], none, 32, 65536, 4096, 1000000⟩

/-- What has been expanded so far, against the limits. -/
structure Counts where
  statements : Nat
  nodes : Nat

/-- An expansion: it counts, and can fail. -/
abbrev Expansion := Comp Diagnostic Counts

def saturatingAdd (a b : Nat) : Nat := min (a + b) (2 ^ 32 - 1)

/-- A name bound to an expression, where it was declared, and how many nodes it has. -/
structure Binding where
  expr : Expr
  span : Span
  nodes : Nat

mutual

/-- How many nodes an expression has. -/
def countNodes : Expr → Nat
  | .num _ _ | .str _ _ | .bool _ _ | .path _ => 1
  | .call _ args _ => countAll 1 args
  | .unary _ operand _ => saturatingAdd 1 (countNodes operand)
  | .binary _ lhs rhs _ => saturatingAdd (saturatingAdd 1 (countNodes lhs)) (countNodes rhs)
  | .list items _ => countAll 1 items
  | .map entries _ => countEntries 1 entries

def countAll (n : Nat) : List Expr → Nat
  | [] => n
  | e :: es => countAll (saturatingAdd n (countNodes e)) es

def countEntries (n : Nat) : List Property → Nat
  | [] => n
  | .mk _ value _ :: ps => countEntries (saturatingAdd n (countNodes value)) ps

end

def bindExpr (expr : Expr) (span : Span) : Binding := ⟨expr, span, countNodes expr⟩

/-- The bindings of one scope. -/
abbrev Frame := List (String × Binding)

/-- The bindings in scope: the innermost frame first, the parameters last. -/
structure Scope where
  frames : List Frame
  params : Frame

namespace Scope

def lookup (env : Scope) (name : String) : Option Binding :=
  (env.frames.findSome? fun frame => entry frame name).or (entry env.params name)

def push (env : Scope) (frame : Frame) : Scope := { env with frames := frame :: env.frames }

end Scope

def literalName (name : Name) (what : String) : Except Diagnostic String :=
  match name.asLiteral with
  | some text => .ok text
  | none => .error ⟨name.span, s!"{what} cannot contain a `$` substitution", none⟩

def listNames (names : List String) : String :=
  if names.isEmpty then "none"
  else
    let quoted := (names.take 8).map fun n => s!"`{n}`"
    String.intercalate ", " quoted ++ if 8 < names.length then ", …" else ""

def charge (o : Options) (n : Nat) (span : Span) : Expansion Unit := do
  let s ← get
  let total := saturatingAdd s.nodes n
  set { s with nodes := total }
  if o.maxExprNodes < total then
    throw ⟨span, s!"expansion produced more than {o.maxExprNodes} expression nodes", none⟩

def bareName (p : Path) : Option String :=
  match p.segments with
  | [segment] => segment.asLiteral
  | _ => none

def writtenName (p : Path) : Option String :=
  match p.segments with
  | [segment] => segment.written
  | _ => none

/-- What a substitution contributes to a name. -/
def nameText (e : Expr) : Except Diagnostic String :=
  let number : Except Diagnostic String :=
    e.evalRational.bind fun value =>
      match value.toInteger with
      | some n => .ok (toString n)
      | none => .error ⟨e.span,
          s!"`{value.num}/{value.den}` is not a whole number, so it cannot be part of a name", none⟩
  match e with
  | .str text _ => .ok text
  | .bool b _ => .ok (toString b)
  | .path p =>
    match p.asLiteral with
    | some text => .ok text
    | none => number
  | _ => number

def checkName (text : String) (span : Span) : Except Diagnostic String :=
  if text.isEmpty || !text.toList.all nameChar then
    .error ⟨span, s!"`{text}` is not a valid name once substituted", none⟩
  else .ok text

def lift {α : Type} (r : Except Diagnostic α) : Expansion α :=
  match r with
  | .ok a => pure a
  | .error e => throw e

section Substitution

variable (o : Options) (env : Scope)

mutual

/-- Replace bound bare identifiers with what they are bound to. -/
def substituteExpr : Expr → Expansion Expr
  | .num lit span => do
    charge o 1 span
    pure (.num lit span)
  | .str text span => do
    charge o 1 span
    pure (.str text span)
  | .bool b span => do
    charge o 1 span
    pure (.bool b span)
  | .path p => do
    charge o 1 p.span
    match (bareName p).bind env.lookup with
    | some binding => do
      charge o binding.nodes p.span
      pure binding.expr
    | none => do
      let p ← substitutePath p
      pure (.path p)
  | .call callee args span => do
    charge o 1 span
    let args ← substituteAll args
    let callee ← substitutePath callee
    pure (.call callee args span)
  | .unary op operand span => do
    charge o 1 span
    let operand ← substituteExpr operand
    pure (.unary op operand span)
  | .binary op lhs rhs span => do
    charge o 1 span
    let lhs ← substituteExpr lhs
    let rhs ← substituteExpr rhs
    pure (.binary op lhs rhs span)
  | .list items span => do
    charge o 1 span
    let items ← substituteAll items
    pure (.list items span)
  | .map entries span => do
    charge o 1 span
    let entries ← substituteProps entries
    pure (.map entries span)

def substituteAll : List Expr → Expansion (List Expr)
  | [] => pure []
  | e :: es => do
    let e ← substituteExpr e
    let es ← substituteAll es
    pure (e :: es)

def substituteProps : List Property → Expansion (List Property)
  | [] => pure []
  | p :: ps => do
    let p ← substituteProp p
    let ps ← substituteProps ps
    pure (p :: ps)

def substituteProp : Property → Expansion Property
  | .mk name value span => do
    let name ← expandedName name
    let value ← substituteExpr value
    pure (.mk name value span)

def substitutePath : Path → Expansion Path
  | .mk segments span => do
    let segments ← expandedNames segments
    pure (.mk segments span)

def expandedNames : List Name → Expansion (List Name)
  | [] => pure []
  | n :: ns => do
    let n ← expandedName n
    let ns ← expandedNames ns
    pure (n :: ns)

def expandedName : Name → Expansion Name
  | .mk parts span =>
    match (Name.mk parts span).asLiteral with
    | some _ => pure (.mk parts span)
    | none => do
      let text ← expandParts parts
      let text ← lift (checkName text span)
      pure (.mk [.literal text true] span)

def expandParts : List NamePart → Expansion String
  | [] => pure ""
  | p :: ps => do
    let text ← expandPart p
    let rest ← expandParts ps
    pure (text ++ rest)

def expandPart : NamePart → Expansion String
  | .literal text _ => pure text
  | .substitution expr => do
    let expr ← substituteExpr expr
    lift (nameText expr)

end

def expandName (n : Name) : Expansion String := do
  let n ← expandedName o env n
  pure (n.asLiteral.getD "")

/-- Substitute bindings through one declaration statement. -/
def substitute : Stmt → Expansion Stmt
  | .osc d => do
    let name ← expandedName o env d.name
    let freq ← substituteExpr o env d.freq
    pure (.osc { d with name := name, freq := freq })
  | .space d => do
    let name ← expandedName o env d.name
    let props ← substituteProps o env d.props
    pure (.space { d with name := name, props := props })
  | .object d => do
    let name ← expandedName o env d.name
    let props ← substituteProps o env d.props
    pure (.object { d with name := name, props := props })
  | .map d => do
    let space ← expandedName o env d.space
    let base ← substituteExpr o env d.base
    let size ← substituteExpr o env d.size
    let target ← substituteExpr o env d.target
    let props ← substituteProps o env d.props
    pure (.map ⟨space, base, size, target, props, d.span⟩)
  | .wire d => do
    let source ← substitutePath o env d.source
    let sink ← substitutePath o env d.sink
    let props ← substituteProps o env d.props
    pure (.wire ⟨source, sink, props, d.span⟩)
  | other => pure other

end Substitution

/-- Where a statement was written. -/
def Stmt.span : Stmt → Span
  | .machine _ _ _ span => span
  | .param p => p.span
  | .osc d => d.span
  | .space d => d.span
  | .object d => d.span
  | .map d => d.span
  | .wire d => d.span
  | .threading t => t.span
  | .template _ _ _ span => span
  | .instanceStmt i => i.span
  | .forStmt _ _ _ _ _ span => span

/-- A template's declaration. -/
structure Template where
  params : List TemplateParam
  body : List Stmt
  nameSpan : Span

/-- A statement and the template-instance namespace it was expanded into. -/
structure Scoped where
  scope : String
  stmt : Stmt

/-- The instances that are being expanded. -/
abbrev Trail := List (String × Span)

def cycleText (trail : List String) (name : String) : String :=
  String.join ((trail.dropWhile (· != name)).map fun n => s!"`{n}` → ") ++ s!"`{name}`"

section Instances

variable (o : Options) (templates : List (String × Template)) (params : Frame)

def constInt (env : Scope) (e : Expr) : Expansion Int64 := do
  let e ← substituteExpr o env e
  let value ← lift e.evalRational
  match value.toInteger.bind i64 with
  | some n => pure n
  | none => throw ⟨e.span, "a loop bound must be a whole number that fits in 64 bits", none⟩

/-- The template parameter an argument is for, and where that was said. -/
def argumentName (template : String) (t : Template) (a : Arg) (positional : Nat) :
    Except Diagnostic (String × Span × Nat) :=
  match a.name with
  | some n => (literalName n "an argument name").map fun name => (name, n.span, positional)
  | none =>
    match t.params[positional]? with
    | none => .error ⟨a.span, s!"template `{template}` takes {t.params.length} argument(s)", none⟩
    | some p =>
      (literalName p.name "a parameter name").map fun name => (name, a.span, positional + 1)

/-- Bind the arguments, in the caller's environment. -/
def bindArgs (template : String) (t : Template) (env : Scope) :
    List Arg → Nat → Frame → Expansion Frame
  | [], _, frame => pure frame
  | a :: args, positional, frame => do
    let (name, span, positional) ← lift (argumentName template t a positional)
    if !t.params.any fun p => p.name.asLiteral == some name then
      let known := listNames (t.params.filterMap fun p => p.name.asLiteral)
      throw ⟨span, s!"template `{template}` has no parameter `{name}`; it takes {known}", none⟩
    if (entry frame name).isSome then
      throw ⟨span, s!"argument `{name}` is given twice", none⟩
    let value ← substituteExpr o env a.value
    bindArgs template t env args positional (setEntry frame name (bindExpr value a.span))

/-- Bind what was not given to its default, evaluated in the template's own frame. -/
def bindDefaults (template : String) (env : Scope) (span : Span) :
    List TemplateParam → Frame → Expansion Frame
  | [], frame => pure frame
  | p :: ps, frame => do
    let name ← lift (literalName p.name "a parameter name")
    if (entry frame name).isSome then bindDefaults template env span ps frame
    else
      match p.default with
      | none =>
        throw ⟨span, s!"template `{template}` needs an argument for `{name}`, which has no default",
          none⟩
      | some default => do
        let value ← substituteExpr o (env.push frame) default
        bindDefaults template env span ps (setEntry frame name (bindExpr value p.span))

/-- How a template's body is expanded. -/
abbrev Body := List Stmt → String → Scope → Trail → Expansion (List Scoped)

/-- A loop's body once for every value. -/
def iterate (body : Body) (var : String) (varSpan : Span) (stmts : List Stmt) (scope : String)
    (env : Scope) (trail : Trail) : List Int → Expansion (List Scoped)
  | [] => pure []
  | value :: values => do
    let frame : Frame := [(var, bindExpr (intExpr (Int64.ofInt value) varSpan) varSpan)]
    let first ← body stmts scope (env.push frame) trail
    let rest ← iterate body var varSpan stmts scope env trail values
    pure (first ++ rest)

/-- Unroll a loop. -/
def expandFor (body : Body) (var : Name) (start stop : Expr) (inclusive : Bool)
    (stmts : List Stmt) (scope : String) (env : Scope) (trail : Trail) :
    Expansion (List Scoped) := do
  let name ← lift (literalName var "a loop variable")
  let first ← constInt o env start
  let bound ← constInt o env stop
  let last := bound.toInt - if inclusive then 0 else 1
  -- an empty range is not an error
  if last < first.toInt then pure []
  else
    let count := (last - first.toInt + 1).toNat
    if o.maxIterations < count then
      throw ⟨start.span.join stop.span,
        s!"this loop runs {count} times; the limit is {o.maxIterations}", none⟩
    iterate body name var.span stmts scope env trail
      ((List.range count).map fun (i : Nat) => first.toInt + i)

/-- Instantiate a template. -/
def expandInstance (body : Body) (i : InstanceStmt) (scope : String) (env : Scope)
    (trail : Trail) : Expansion (List Scoped) := do
  let template ← lift (literalName i.template "a template name")
  match entry templates template with
  | none =>
    let known := listNames ((templates.map Prod.fst).mergeSort fun a b => decide (a ≤ b))
    throw ⟨i.template.span,
      s!"no template named `{template}`; declared templates are {known}", none⟩
  | some t => do
    match trail.find? fun e => e.1 == template with
    | some e =>
      throw ⟨i.template.span, s!"template recursion: {cycleText (trail.map Prod.fst) template}",
        some (e.2, "the cycle starts here")⟩
    | none => pure ()
    let frame ← bindArgs o template t env i.args 0 []
    let frame ← bindDefaults o template env i.span t.params frame
    let name ← expandName o env i.name
    body t.body s!"{scope}{name}." (env.push frame) (trail ++ [(template, i.template.span)])

/-- One statement of a body. -/
def expandStmt (body : Body) (stmt : Stmt) (scope : String) (env : Scope) (trail : Trail) :
    Expansion (List Scoped) :=
  match stmt with
  | .param _ | .template _ _ _ _ => pure []
  | .machine _ _ _ span =>
    throw ⟨span, "a `machine` block cannot appear inside another statement", none⟩
  | .forStmt var start stop inclusive stmts _ =>
    expandFor o body var start stop inclusive stmts scope env trail
  | .instanceStmt i => expandInstance o templates body i scope env trail
  | other => do
    let s ← get
    let produced := saturatingAdd s.statements 1
    set { s with statements := produced }
    if o.maxStatements < produced then
      throw ⟨other.span, s!"expansion produced more than {o.maxStatements} statements", none⟩
    let stmt ← substitute o env other
    pure [⟨scope, stmt⟩]

def expandStmts (body : Body) : List Stmt → String → Scope → Trail → Expansion (List Scoped)
  | [], _, _, _ => pure []
  | stmt :: stmts, scope, env, trail => do
    let first ← expandStmt o templates body stmt scope env trail
    let rest ← expandStmts body stmts scope env trail
    pure (first ++ rest)

def expand : Nat → Body
  | 0, stmts, _, _, _ =>
    throw ⟨(stmts.head?.map Stmt.span).getD (.point 0),
      s!"`template` and `for` nest more than {o.maxDepth} levels deep", none⟩
  | levels + 1, stmts, scope, env, trail =>
    expandStmts o templates (expand levels) stmts scope env trail

end Instances

end Rsemu.Machine
