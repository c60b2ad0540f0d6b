import Rsemu.Machine.Resolver

/-!
# Values and links

The last stage of the resolver: every expanded statement becomes an entry of the resolved
machine. Declarations come before links, since a link may name an object declared later.

`clock` and `space` on an object belong to the machine and not to the device, so `object`
takes them out of the property block before the rest of it is evaluated.
-/

namespace Rsemu.Machine

open Fallible

def clockName (p : Path) : String :=
  let segments := p.segments.map fun n => n.asLiteral.getD ""
  let segments :=
    if segments.getLast? = some "clock" ∧ 1 < segments.length then segments.dropLast else segments
  String.intercalate "." segments

/-- The domain a path names, as the parent of a clock. -/
def clockParent (table : Table) (p : Path) (scope : String) :
    Except Diagnostic (Option ClockParent × Rational) :=
  let name := clockName p
  match lookup table scope name with
  | some (_, .osc id) => .ok (some (.osc id), Rational.fromInt 1)
  | some (_, .object id) => .ok (some (.object id), Rational.fromInt 1)
  | some (full, .space _) => .error ⟨p.span, s!"`{full}` is an address space, not a clock", none⟩
  | none =>
    .error ⟨p.span, s!"no oscillator or object named `{name}`; in scope are " ++
      listNames (namesOf table fun d => !d.isSpace), none⟩

/-- The scale of two clock expressions under an operator; `none` is out of range. -/
def clockScale (op : BinOp) (l r : Option ClockParent × Rational) (e rhs : Expr) (span : Span) :
    Except Diagnostic (Option ClockParent × Rational) :=
  let parent := l.1.or r.1
  let scaled (scale : Option Rational) : Except Diagnostic (Option ClockParent × Rational) :=
    match scale with
    | some scale => .ok (parent, scale)
    | none => .error ⟨span, "this clock ratio is out of range", none⟩
  match op with
  | .mul => scaled (l.2.checkedMul r.2)
  | .div =>
    if r.2 = Rational.zero then .error ⟨rhs.span, "division by zero", none⟩
    else if r.1.isSome then
      .error ⟨span, "a clock cannot be divided *by* another domain; write `parent / 12`", none⟩
    else scaled (l.2.checkedDiv r.2)
  | .add | .sub | .rem =>
    if parent.isNone then e.evalRational.map fun r => (none, r)
    else
      .error ⟨span, s!"`{op.asStr}` cannot be applied to a clock; a domain is its parent " ++
        "multiplied and divided by whole numbers", none⟩

/-- The parent and the scale of a clock expression; no parent is a pure number so far. -/
def clockParts (table : Table) (scope : String) :
    Expr → Except Diagnostic (Option ClockParent × Rational)
  | .path p => clockParent table p scope
  | .num lit span => (Expr.num lit span).evalRational.map fun r => (none, r)
  | .unary op operand span => (Expr.unary op operand span).evalRational.map fun r => (none, r)
  | .binary op lhs rhs span =>
    (clockParts table scope lhs).bind fun l =>
      (clockParts table scope rhs).bind fun r =>
        if l.1.isSome && r.1.isSome then
          .error ⟨span, "a clock may reference only one oscillator or domain", none⟩
        else clockScale op l r (.binary op lhs rhs span) rhs span
  | other => .error ⟨other.span,
      "a `clock` must be a declared oscillator or domain, optionally scaled", none⟩

/-- `clock = master / 12`: one oscillator or domain, exactly scaled. -/
def clock (table : Table) (e : Expr) (scope : String) : Except Diagnostic Clock :=
  (clockParts table scope e).bind fun r =>
    match r.1 with
    | none => .error ⟨e.span, "a `clock` must be derived from a declared oscillator, as in " ++
        "`master / 12`; a bare frequency needs an `osc` declaration of its own", none⟩
    | some parent =>
      if r.2.num ≤ 0 then .error ⟨e.span, "a clock scale must be greater than zero", none⟩
      else
        match u64 r.2.num, u64 r.2.den with
        | some mul, some div => .ok ⟨parent, mul, div, e.span⟩
        | _, _ => .error ⟨e.span, "this clock ratio does not fit in 64 bits", none⟩

def oscillator (d : OscDecl) (scope : String) : Except Diagnostic Oscillator :=
  d.frequencyHz.bind fun hz =>
    if hz.num ≤ 0 then
      .error ⟨d.freq.span, "an oscillator's frequency must be greater than zero", none⟩
    else .ok ⟨scope ++ d.name.asLiteral.getD "", hz, d.name.span, d.span⟩

def spaceDecl (table : Table) (d : SpaceDecl) (scope : String) : Except Diagnostic Space :=
  (props table scope d.props).map fun r =>
    ⟨scope ++ d.name.asLiteral.getD "", r.1, r.2, d.name.span, d.span⟩

/-- What is lifted out of an object's block, and the rest of the block in order. -/
structure Lifted where
  clock : Option Clock
  space : Option Nat
  rest : List Property

/-- Lift `clock` and `space` out of a property block; a later one replaces an earlier one. -/
def liftStructural (table : Table) (scope : String) :
    List Property → Lifted → Except Diagnostic Lifted
  | [], l => .ok l
  | p :: ps, l =>
    match p.name.asLiteral with
    | some "clock" =>
      (clock table p.value scope).bind fun c =>
        liftStructural table scope ps { l with clock := some c }
    | some "space" =>
      (spaceLink table p.value scope).bind fun s =>
        liftStructural table scope ps { l with space := some s }
    | _ => liftStructural table scope ps { l with rest := l.rest ++ [p] }

/-- An object from its declaration. -/
def object (table : Table) (d : ObjectDecl) (scope : String) : Except Diagnostic Object :=
  (liftStructural table scope d.props ⟨none, none, []⟩).bind fun l =>
    (props table scope l.rest).map fun r =>
      { name := scope ++ d.name.asLiteral.getD "", className := d.className, clock := l.clock,
        space := l.space, props := r.1, propSpans := r.2, classSpan := d.classSpan,
        nameSpan := d.name.span, span := d.span }

def aliasOffset (sc : Scalars) (table : Table) (e : Expr) (scope : String) :
    Except Diagnostic UInt64 :=
  (value table scope e).bind fun v =>
    (sc.toUnsigned v "alias offset" "address").mapError fun m => ⟨e.span, m, none⟩

/-- A `map` target, with as many levels of nesting left. -/
def mapTarget (sc : Scalars) (table : Table) (scope : String) :
    Nat → Expr → Except Diagnostic MapTarget
  | 0, e => .error ⟨e.span, "a `map` target nests more than 8 levels deep", none⟩
  | _ + 1, .path p =>
    (objectPath table p scope false).map fun r => .region r.1 r.2 p.span
  | levels + 1, .call callee args span =>
    match callee.asLiteral.getD "", args with
    | "mirror", [inner] =>
      (mapTarget sc table scope levels inner).map fun t => .mirror t span
    | "mirror", _ => .error ⟨span, "`mirror` takes exactly one argument: `mirror(wram)`", none⟩
    | "alias", [inner] =>
      (mapTarget sc table scope levels inner).map fun t => .alias t 0 span
    | "alias", [inner, off] =>
      (aliasOffset sc table off scope).bind fun offset =>
        (mapTarget sc table scope levels inner).map fun t => .alias t offset span
    | "alias", _ =>
      .error ⟨span, "`alias` takes a target and an optional offset: `alias(rom, 0x4000)`", none⟩
    | "split", [reads, writes] =>
      (mapTarget sc table scope levels reads).bind fun r =>
        (mapTarget sc table scope levels writes).map fun w => .split r w span
    | "split", _ => .error ⟨span, "`split` takes the read side and the write side: " ++
        "`split(ports.port2, apu.frame)`", none⟩
    | other, _ => .error ⟨callee.span, s!"no map function named `{other}`; the map functions are " ++
        "`mirror`, `alias` and `split`", none⟩
  | _ + 1, e => .error ⟨e.span, "a `map` target must name an object, a region, or " ++
      "`mirror(…)`/`alias(…)`/`split(…)`", none⟩

/-- A mapping from its statement. -/
def mapping (sc : Scalars) (table : Table) (m : MapStmt) (scope : String) :
    Except Diagnostic Mapping :=
  (spaceNamed table (m.space.asLiteral.getD "") m.space.span scope).bind fun space =>
    (value table scope m.base).bind fun v =>
      ((sc.toUnsigned v "map base" "address").mapError fun t => ⟨m.base.span, t, none⟩).bind
        fun base =>
      (value table scope m.size).bind fun v =>
        ((sc.toUnsigned v "map size" "size").mapError fun t => ⟨m.size.span, t, none⟩).bind
          fun size =>
        if size = 0 then
          .error ⟨m.size.span, "a mapping's size must be greater than zero", none⟩
        else if 2 ^ 64 ≤ base.toNat + size.toNat then
          .error ⟨m.base.span.join m.size.span,
            "this mapping runs past the end of a 64-bit address space", none⟩
        else
          (mapTarget sc table scope 9 m.target).bind fun target =>
            (props table scope m.props).map fun r =>
              { space := space, base := base, size := size, target := target, props := r.1,
                propSpans := r.2, baseSpan := m.base.span, sizeSpan := m.size.span, span := m.span }

def wire (table : Table) (w : WireStmt) (scope : String) : Except Diagnostic Wire :=
  (props table scope w.props).bind fun r =>
    (pin table w.source scope).bind fun source =>
      (pin table w.sink scope).map fun sink => ⟨source, sink, r.1, r.2, w.span⟩

/-- One `threading` statement; two that agree are allowed. -/
def threading (t : ThreadingStmt) (out : Resolved) : Except Diagnostic Resolved :=
  let declare (mode : ThreadingMode) : Except Diagnostic Resolved :=
    match out.threading with
    | some first =>
      if first ≠ mode then
        .error ⟨t.modeSpan, s!"this machine already declared `threading {first.asStr}`, and " ++
          s!"`threading {mode.asStr}` here contradicts it", none⟩
      else .ok { out with threading := some mode, threadingSpan := some t.span }
    | none => .ok { out with threading := some mode, threadingSpan := some t.span }
  match t.mode with
  | "deterministic" => declare .deterministic
  | "parallel" => declare .parallel
  | "accel" => .error ⟨t.modeSpan, "`threading accel` is not a property of a board: it says the " ++
      "host's own silicon is executing the guest, which `rsemu run … --accel <backend>` selects. " ++
      "A board can only say whether its processors are concurrent", none⟩
  | other => .error ⟨t.modeSpan, s!"`threading {other}` is not a mode; expected `deterministic` or " ++
      "`parallel`", none⟩

/-- The complaint about a loop of clocks. -/
def cycleError (objects : List Object) (path : List Nat) (again : Nat) (o : Object) : Diagnostic :=
  let start := path.idxOf again
  let nameOf (i : Nat) : String := ((objects[i]?).map Object.name).getD "?"
  let names := (path.drop start).map fun i => s!"`{nameOf i}` → "
  let head := (path[start]?).bind fun i => objects[i]?
  let span := (head.map fun h => (h.clock.map Clock.span).getD h.span).getD o.span
  ⟨span, s!"clock cycle: {String.join names}`{o.name}`; every domain must descend from an `osc`",
    none⟩

/--
Follow the clock parents from one object: 0 is unvisited, 1 on this path, 2 done. Every step
marks an unvisited object, so as many steps as there are objects and one more are enough.
-/
def walkClock (objects : List Object) :
    Nat → List Nat → Nat → List Nat → Except Diagnostic (List Nat × List Nat)
  | 0, state, _, path => .ok (state, path)
  | steps + 1, state, i, path =>
    match state[i]?, objects[i]? with
    | some mark, some o =>
      if mark = 1 then .error (cycleError objects path i o)
      else if mark = 2 then .ok (state, path)
      else
        let state := state.set i 1
        let path := path ++ [i]
        match o.clock.map Clock.parent with
        | some (.object next) => walkClock objects steps state next path
        | _ => .ok (state, path)
    | _, _ => .ok (state, path)

/-- The walk up the clocks from each object. -/
def checkFrom (objects : List Object) : List Nat → List Nat → Except Diagnostic Unit
  | [], _ => .ok ()
  | start :: starts, state =>
    if state[start]? ≠ some 0 then checkFrom objects starts state
    else
      (walkClock objects (objects.length + 1) state start []).bind fun r =>
        checkFrom objects starts (r.2.foldl (fun s i => s.set i 2) r.1)

def checkClockCycles (out : Resolved) : Except Diagnostic Unit :=
  checkFrom out.objects (List.range out.objects.length) (List.replicate out.objects.length 0)

def paramValues (table : Table) : Frame → Props → Except Diagnostic Props
  | [], out => .ok out
  | (name, binding) :: params, out =>
    (value table "" binding.expr).bind fun v => paramValues table params (setEntry out name v)

/-- The first pass: what a declaration adds. -/
def declare (table : Table) (out : Resolved) (s : Scoped) : Except Diagnostic Resolved :=
  match s.stmt with
  | .osc d => (oscillator d s.scope).map fun x => { out with oscillators := out.oscillators ++ [x] }
  | .space d => (spaceDecl table d s.scope).map fun x => { out with spaces := out.spaces ++ [x] }
  | _ => .ok out

def declareObject (table : Table) (out : Resolved) (s : Scoped) : Except Diagnostic Resolved :=
  match s.stmt with
  | .object d => (object table d s.scope).map fun x => { out with objects := out.objects ++ [x] }
  | _ => .ok out

/-- The second pass: what refers to declarations. -/
def linkUp (sc : Scalars) (table : Table) (out : Resolved) (s : Scoped) :
    Except Diagnostic Resolved :=
  match s.stmt with
  | .map m => (mapping sc table m s.scope).map fun x => { out with maps := out.maps ++ [x] }
  | .wire w => (wire table w s.scope).map fun x => { out with wires := out.wires ++ [x] }
  | .threading t => threading t out
  | _ => .ok out

/-- Every expanded statement becomes an entry of the machine. -/
def finish (sc : Scalars) (table : Table) (params : Frame) (m : MachineDecl) (stmts : List Scoped) :
    Except Diagnostic Resolved :=
  (paramValues table params []).bind fun values =>
    let out : Resolved :=
      { name := m.name, params := values, paramSpans := params.map fun p => (p.1, p.2.span),
        oscillators := [], spaces := [], objects := [], maps := [], wires := [],
        nameSpan := m.nameSpan, threading := none, threadingSpan := none, span := m.span }
    (stmts.foldlM (declare table) out).bind fun out =>
      (stmts.foldlM (declareObject table) out).bind fun out =>
        (stmts.foldlM (linkUp sc table) out).bind fun out =>
          (checkClockCycles out).map fun _ => out

/-- A machine's statements, with every template expanded. -/
structure Expanded where
  machine : MachineDecl
  params : Frame
  stmts : List Scoped

/-- A file's statements, expanded. -/
def expandFile (sc : Scalars) (o : Options) (stmts : List Stmt) : Except Diagnostic Expanded :=
  (selectMachine o stmts).bind fun chosen =>
    (collectTemplates stmts []).bind fun templates =>
      (collectTemplates chosen.1.body templates).bind fun templates =>
        (collectParams sc o stmts chosen.1.body).bind fun params =>
          (exec (expand o templates (o.maxDepth + 1) chosen.2 "" ⟨[], params⟩ []) ⟨0, 0⟩).1.map
            fun expanded => ⟨chosen.1, params, expanded⟩

def resolve (sc : Scalars) (o : Options) (stmts : List Stmt) : Except Diagnostic Resolved :=
  (expandFile sc o stmts).bind fun x =>
    (buildTables x.params x.stmts ⟨0, 0, 0⟩ []).bind fun table =>
      finish sc table x.params x.machine x.stmts

end Rsemu.Machine
