import Rsemu.Base.Forest
import Rsemu.Clock.Rational

/-!
# The oscillator forest

The data model and every operation of `core::clock`'s `ClockForest`, as the source computes
them.

A forest is two tables. `domains` holds the clock domains, each with its parent, its children
and its counter; `oscillators` holds one crystal per tree. A domain's count is not stored: it
is derived from `(baseTicks, baseUnit, unitsPerTick)` and from where the domain stands on its
tree's unit counter.

Operations pass the forest explicitly and return it beside their result, because the source
mutates in place and a refused call may or may not have touched something. Arithmetic the
source checks answers an error here; arithmetic it does not check wraps, as a release build
does.
-/

namespace Rsemu.Clock

open Word

/-- A domain's index. -/
abbrev DomainId := Nat

/-- An oscillator's index. -/
abbrev OscillatorId := Nat

/-- Why a call is refused. -/
inductive ClockError where
  | zeroDenominator
  | zeroRate (what : String)
  | unknownDomain (id : DomainId)
  | unknownOscillator (id : OscillatorId)
  | lcmUnavailable (domains : List String)
  | overflow (what : String) (domains : List String)
  | cycle (name : String)
  | notApplicable (message : String)
  | crossTree (a b : DomainId)
  | gated (name : String)
  deriving DecidableEq

/-- How a call can fail to return a value: an error, or a panic. -/
inductive Fault where
  | err (e : ClockError)
  | panic (message : String)
  deriving DecidableEq

/-- What a call answers. -/
abbrev ClockResult (α : Type) := Except Fault α

def okOr {α : Type} (e : ClockError) : Option α → ClockResult α
  | none => .error (.err e)
  | some a => .ok a

/-- One clock domain: `parent × mul / div`, with its own tick counter. -/
structure ClockDomain where
  name : String
  parent : Option DomainId
  mul : UInt64
  div : UInt64
  children : List DomainId
  root : OscillatorId
  ratio : Rational
  unitsPerTick : Nat
  baseUnit : Nat
  baseTicks : Nat
  gated : Bool
  /-- Where the domain has got to on its own, when that is ahead of its tree. -/
  own : Nat
  deriving Inhabited, DecidableEq

namespace ClockDomain

def position (d : ClockDomain) (tree : Nat) : Nat := max tree d.own

def ticksAt (d : ClockDomain) (units : Nat) : Nat :=
  if d.gated then d.baseTicks
  else wrappingAdd 64 d.baseTicks (wrappingSub 64 units d.baseUnit / d.unitsPerTick)

end ClockDomain

/-- One oscillator: a declared crystal and the root of one tree. -/
structure Oscillator where
  name : String
  freq : Rational
  root : DomainId
  unitMul : Nat
  unitRate : Rational
  units : Nat
  baseUnits : Nat
  baseTime : Nat
  step : Nat
  rem : Nat
  time : Nat
  residual : Nat
  active : Bool
  deriving Inhabited, DecidableEq

/-- 192 bits, in three words. -/
structure U192 where
  hi : Nat
  mid : Nat
  lo : Nat

namespace U192

def mulU128U64 (a b : Nat) : U192 :=
  let lo := a % 2 ^ 64 * b
  let hi := a / 2 ^ 64 * b + lo / 2 ^ 64
  ⟨hi / 2 ^ 64 % 2 ^ 64, hi % 2 ^ 64, lo % 2 ^ 64⟩

def divU64 (a : U192) (d : Nat) : U192 × Nat :=
  let r0 := a.hi % d
  let c1 := r0 * 2 ^ 64 + a.mid
  let c2 := c1 % d * 2 ^ 64 + a.lo
  (⟨a.hi / d, c1 / d % 2 ^ 64, c2 / d % 2 ^ 64⟩, c2 % d)

def toU128 (a : U192) : Option Nat := if a.hi ≠ 0 then none else some (a.mid * 2 ^ 64 + a.lo)

def shr64 (a : U192) : U192 := ⟨0, a.hi, a.mid⟩

def dec (a : U192) : U192 :=
  if a.lo ≠ 0 then ⟨a.hi, a.mid, a.lo - 1⟩
  else if a.mid ≠ 0 then ⟨a.hi, a.mid - 1, 2 ^ 64 - 1⟩
  else if a.hi ≠ 0 then ⟨a.hi - 1, 2 ^ 64 - 1, 2 ^ 64 - 1⟩
  else ⟨2 ^ 64 - 1, 2 ^ 64 - 1, 2 ^ 64 - 1⟩

end U192

namespace Oscillator

def overflow (o : Oscillator) (what : String) : Fault := .err (.overflow what [o.name])

def recomputeConversion (o : Oscillator) : Oscillator :=
  let scaled := o.unitRate.den * 2 ^ 64
  { o with step := scaled / o.unitRate.num, rem := scaled % o.unitRate.num }

/-- Advance the timeline by `units` unit ticks, keeping the residual exact. -/
def accumulate (o : Oscillator) (units : Nat) : ClockResult Oscillator :=
  match checkedMul 128 units o.step with
  | none => .error (o.overflow "global timeline")
  | some add =>
  match checkedMul 128 units o.rem with
  | none => .error (o.overflow "global timeline")
  | some carryIn =>
  match checkedAdd 128 o.time add with
  | none => .error (o.overflow "global timeline")
  | some time =>
  match checkedAdd 128 o.residual carryIn with
  | none => .error (o.overflow "global timeline")
  | some residual =>
  if o.unitRate.num ≤ residual then
    match checkedAdd 128 time (residual / o.unitRate.num) with
    | none => .error (o.overflow "global timeline")
    | some time => .ok { o with time := time, residual := residual % o.unitRate.num }
  else .ok { o with time := time, residual := residual }

/-- The closed form of the same computation: the exact floor, from scratch. -/
def timeForUnits (o : Oscillator) (units : Nat) : ClockResult Nat :=
  if units ≤ o.baseUnits then .ok o.baseTime
  else
    let n := units - o.baseUnits
    match checkedMul 128 n o.step with
    | none => .error (o.overflow "global timeline")
    | some whole =>
    match checkedMul 128 n o.rem with
    | none => .error (o.overflow "global timeline")
    | some prod =>
    match checkedAdd 128 o.baseTime whole with
    | none => .error (o.overflow "global timeline")
    | some t =>
    match checkedAdd 128 t (prod / o.unitRate.num) with
    | none => .error (o.overflow "global timeline")
    | some t => .ok t

/-- The largest unit position whose timeline instant is at or before `t`. -/
def unitsAt (o : Oscillator) (t : Nat) : ClockResult Nat :=
  if t ≤ o.baseTime then .ok o.baseUnits
  else
    let dt := t - o.baseTime
    let numerator := (U192.mulU128U64 (saturatingAdd 128 dt 1) o.unitRate.num).dec
    let q := (numerator.divU64 o.unitRate.den).1
    match q.shr64.toU128 with
    | none => .error (o.overflow "unit position")
    | some v =>
      if 2 ^ 64 ≤ v then .error (o.overflow "unit position")
      else
        match checkedAdd 64 o.baseUnits v with
        | none => .error (o.overflow "unit position")
        | some u => .ok u

end Oscillator

/-- One domain's new rate. -/
structure RateRequest where
  domain : DomainId
  mul : UInt64
  div : UInt64

/-- A forest of clock domains: one tree per physical oscillator. -/
structure ClockForest where
  domains : List ClockDomain
  oscillators : List Oscillator
  deriving DecidableEq

namespace ClockForest

def new : ClockForest := ⟨[], []⟩

def dom (f : ClockForest) (id : DomainId) : ClockDomain := f.domains.getD id default

def osc (f : ClockForest) (id : OscillatorId) : Oscillator := f.oscillators.getD id default

def parent (f : ClockForest) (id : DomainId) : Option DomainId := (f.dom id).parent

def children (f : ClockForest) (id : DomainId) : List DomainId := (f.dom id).children

def treeUnits (f : ClockForest) (id : DomainId) : Nat := (f.osc (f.dom id).root).units

def modDom (f : ClockForest) (id : DomainId) (g : ClockDomain → ClockDomain) : ClockForest :=
  { f with domains := f.domains.modify id g }

def modOsc (f : ClockForest) (id : OscillatorId) (g : Oscillator → Oscillator) : ClockForest :=
  { f with oscillators := f.oscillators.modify id g }

def modEach (f : ClockForest) : List (DomainId × (ClockDomain → ClockDomain)) → ClockForest
  | [] => f
  | (id, g) :: rest => (f.modDom id g).modEach rest

def checkDomain (f : ClockForest) (id : DomainId) : ClockResult Unit :=
  if f.domains.length ≤ id then .error (.err (.unknownDomain id)) else .ok ()

def checkOsc (f : ClockForest) (id : OscillatorId) : ClockResult Unit :=
  if f.oscillators.length ≤ id then .error (.err (.unknownOscillator id)) else .ok ()

def subtree (f : ClockForest) (id : DomainId) : List DomainId :=
  Forest.bfs f.children f.domains.length id

def isAncestor (f : ClockForest) (maybeAncestor of : DomainId) : Bool :=
  Forest.climb f.parent maybeAncestor f.domains.length (some of)

def treeNames (f : ClockForest) (order : List DomainId) : List String :=
  order.map fun id => (f.dom id).name

/-- Each domain's ratio to the root, in one pass over the breadth-first order. -/
def ratiosLoop (f : ClockForest) (order : List DomainId) :
    List DomainId → List Rational → ClockResult (List Rational)
  | [], ratios => .ok ratios
  | id :: rest, ratios =>
    match (f.dom id).parent with
    | none => ratiosLoop f order rest (ratios ++ [Rational.one])
    | some p =>
      match order.findIdx? (· == p) with
      | none => .error (.panic "BFS order lists a parent before its children")
      | some pi =>
        match ratios[pi]? with
        | none => .error (.panic "index out of bounds")
        | some r =>
          match r.checkedScale (f.dom id).mul (f.dom id).div with
          | none => .error (.err (.lcmUnavailable (f.treeNames order)))
          | some r' => ratiosLoop f order rest (ratios ++ [r'])

def lcmLoop (names : List String) : List Rational → Nat → ClockResult Nat
  | [], a => .ok a
  | r :: rest, a =>
    match checkedLcm a r.num with
    | none => .error (.err (.lcmUnavailable names))
    | some a' => lcmLoop names rest a'

/-- One tick of each domain in unit ticks: `(a / num) × den`. -/
def ksLoop (names : List String) (a : Nat) : List Rational → ClockResult (List Nat)
  | [] => .ok []
  | r :: rest =>
    match checkedMul 64 (a / r.num) r.den with
    | none => .error (.err (.lcmUnavailable names))
    | some k =>
      match ksLoop names a rest with
      | .error e => .error e
      | .ok ks => .ok (k :: ks)

/-- `(baseUnit, own)` of each domain, rescaled. -/
def basesLoop (f : ClockForest) (names : List String) (fac : Nat) :
    List DomainId → ClockResult (List (Nat × Nat))
  | [] => .ok []
  | id :: rest =>
    match checkedMul 64 (f.dom id).baseUnit fac with
    | none => .error (.err (.overflow "unit position rescale" names))
    | some b =>
      match checkedMul 64 (f.dom id).own fac with
      | none => .error (.err (.overflow "unit position rescale" names))
      | some o =>
        match basesLoop f names fac rest with
        | .error e => .error e
        | .ok bs => .ok ((b, o) :: bs)

/-- What a recomputation finds for one domain. -/
structure Derived where
  ratio : Rational
  unitsPerTick : Nat
  base : Nat × Nat

def commitDomain (v : Derived) (d : ClockDomain) : ClockDomain :=
  { d with ratio := v.ratio, unitsPerTick := v.unitsPerTick, baseUnit := v.base.1, own := v.base.2 }

def commitAll (vs : List (DomainId × Derived)) (f : ClockForest) : ClockForest :=
  f.modEach (vs.map fun v => (v.1, commitDomain v.2))

def commitOsc (units unitMul : Nat) (unitRate : Rational) (o : Oscillator) : Oscillator :=
  { o with
    units := units, unitMul := unitMul, unitRate := unitRate,
    baseUnits := units, baseTime := o.time, residual := 0 }.recomputeConversion

def derived (order : List DomainId) (ratios : List Rational) (ks : List Nat)
    (bases : List (Nat × Nat)) : List (DomainId × Derived) :=
  order.zip ((ratios.zip (ks.zip bases)).map fun v => ⟨v.1, v.2.1, v.2.2⟩)

/--
Recompute a tree's ratios, unit tick and per-domain `units_per_tick`.

Everything is computed first and committed only once all of it has succeeded.
-/
def recomputeTree (f : ClockForest) (id : OscillatorId) : ClockResult ClockForest := do
  let order := f.subtree (f.osc id).root
  let names := f.treeNames order
  let ratios ← f.ratiosLoop order order []
  let oldA := (f.osc id).unitMul
  let a ← lcmLoop names ratios oldA
  let ks ← ksLoop names a ratios
  let fac := a / oldA
  let newUnits ← okOr (.overflow "unit position rescale" names)
    (checkedMul 64 (f.osc id).units fac)
  let bases ← f.basesLoop names fac order
  let unitRate ← okOr (.lcmUnavailable names)
    ((f.osc id).freq.checkedMul (Rational.integer (UInt64.ofNat a)))
  .ok ((commitAll (derived order ratios ks bases) f).modOsc id (commitOsc newUnits a unitRate))

def commitOr (backup before : ClockForest) {α : Type} (value : α) :
    ClockResult ClockForest → ClockForest × ClockResult α
  | .ok after => (after, .ok value)
  | .error (.err e) => (backup, .error (.err e))
  | .error (.panic m) => (before, .error (.panic m))

/-- A crystal with the root domain of its tree. -/
def addOscillator (f : ClockForest) (name : String) (freq : Rational) :
    ClockForest × ClockResult DomainId :=
  if freq.isZero then (f, .error (.err (.zeroRate name)))
  else
    let root := f.domains.length
    let d : ClockDomain :=
      { name := name, parent := none, mul := 1, div := 1, children := [],
        root := f.oscillators.length, ratio := Rational.one, unitsPerTick := 1, baseUnit := 0,
        baseTicks := 0, gated := false, own := 0 }
    let o : Oscillator :=
      { name := name, freq := freq, root := root, unitMul := 1, unitRate := freq, units := 0,
        baseUnits := 0, baseTime := 0, step := 0, rem := 0, time := 0, residual := 0,
        active := true }
    (⟨f.domains ++ [d], f.oscillators ++ [o.recomputeConversion]⟩, .ok root)

/-- A domain that starts counting where its tree stands. -/
def freshDomain (f : ClockForest) (name : String) (parent : DomainId) (mul div : UInt64) :
    ClockDomain :=
  { name := name, parent := some parent, mul := mul, div := div, children := [],
    root := (f.dom parent).root, ratio := Rational.one, unitsPerTick := 1,
    baseUnit := f.treeUnits parent, baseTicks := 0, gated := false, own := 0 }

def linkDomain (f : ClockForest) (name : String) (parent : DomainId) (mul div : UInt64) :
    ClockForest :=
  ({ f with domains := f.domains ++ [f.freshDomain name parent mul div] } : ClockForest).modDom
    parent fun p => { p with children := p.children ++ [f.domains.length] }

/-- A domain below another, at a ratio to it. -/
def addDomain (f : ClockForest) (name : String) (parent : DomainId) (mul div : UInt64) :
    ClockForest × ClockResult DomainId :=
  match f.checkDomain parent with
  | .error e => (f, .error e)
  | .ok () =>
    if mul = 0 ∨ div = 0 then (f, .error (.err (.zeroRate name)))
    else
      let linked := f.linkDomain name parent mul div
      commitOr f linked f.domains.length (linked.recomputeTree (f.dom parent).root)

def ticks (f : ClockForest) (id : DomainId) : ClockResult Nat :=
  match f.checkDomain id with
  | .error e => .error e
  | .ok () => .ok ((f.dom id).ticksAt ((f.dom id).position (f.treeUnits id)))

def ticksAtUnits (f : ClockForest) (id : DomainId) (units : Nat) : ClockResult Nat :=
  match f.checkDomain id with
  | .error e => .error e
  | .ok () => .ok ((f.dom id).ticksAt ((f.dom id).position (max units (f.treeUnits id))))

/-- `ticksAtUnits` as a line: `(whole, rem, per)`. -/
def tickLine (f : ClockForest) (id : DomainId) (units : Nat) : ClockResult (Nat × Nat × Nat) :=
  match f.checkDomain id with
  | .error e => .error e
  | .ok () =>
    let d := f.dom id
    let at' := d.position (max units (f.treeUnits id))
    if d.gated || at' != units then .ok (d.ticksAt at', 0, 0)
    else
      let from' := at' - d.baseUnit
      .ok (wrappingAdd 64 d.baseTicks (from' / d.unitsPerTick), from' % d.unitsPerTick,
        d.unitsPerTick)

def unitPosition (f : ClockForest) (id : OscillatorId) : ClockResult Nat :=
  match f.checkOsc id with
  | .error e => .error e
  | .ok () => .ok (f.osc id).units

/-- Convert a tick count of `src` into ticks of `dst`, exactly. -/
def convertTicks (f : ClockForest) (src dst : DomainId) (ticks : Nat) : ClockResult Nat :=
  match f.checkDomain src with
  | .error e => .error e
  | .ok () =>
  match f.checkDomain dst with
  | .error e => .error e
  | .ok () =>
    if (f.dom src).root ≠ (f.dom dst).root then .error (.err (.crossTree src dst))
    else
      match checkedMul 64 ticks (f.dom src).unitsPerTick with
      | none => .error (.err (.overflow "tick conversion" [(f.dom src).name, (f.dom dst).name]))
      | some units => .ok (units / (f.dom dst).unitsPerTick)

/-- Advance a tree by a number of its own unit ticks. -/
def advanceUnits (f : ClockForest) (id : OscillatorId) (units : Nat) :
    ClockForest × ClockResult Unit :=
  match f.checkOsc id with
  | .error e => (f, .error e)
  | .ok () =>
    match checkedAdd 64 (f.osc id).units units with
    | none => (f, .error ((f.osc id).overflow "unit position"))
    | some newUnits =>
      match (f.osc id).accumulate units with
      | .error e => (f, .error e)
      | .ok o => (f.modOsc id fun _ => { o with units := newUnits }, .ok ())

/-- Advance the tree by `ticks` ticks of a domain. -/
def advanceDomain (f : ClockForest) (id : DomainId) (ticks : Nat) :
    ClockForest × ClockResult Unit :=
  match f.checkDomain id with
  | .error e => (f, .error e)
  | .ok () =>
    if (f.dom id).gated then (f, .error (.err (.gated (f.dom id).name)))
    else
      match checkedMul 64 ticks (f.dom id).unitsPerTick with
      | none => (f, .error (.err (.overflow "unit position" [(f.dom id).name])))
      | some delta => f.advanceUnits (f.dom id).root delta

/-- Advance one domain by `ticks` of its own, leaving its tree where it is. -/
def advanceAlone (f : ClockForest) (id : DomainId) (ticks : Nat) :
    ClockForest × ClockResult Unit :=
  match f.checkDomain id with
  | .error e => (f, .error e)
  | .ok () =>
    if (f.dom id).gated then (f, .error (.err (.gated (f.dom id).name)))
    else
      let here := (f.dom id).position (f.treeUnits id)
      match (checkedMul 64 ticks (f.dom id).unitsPerTick).bind (checkedAdd 64 here) with
      | none => (f, .error (.err (.overflow "unit position" [(f.dom id).name])))
      | some own => (f.modDom id fun d => { d with own := own }, .ok ())

def advanceTreeTo (f : ClockForest) (id : OscillatorId) (units : Nat) :
    ClockForest × ClockResult Unit :=
  match f.checkOsc id with
  | .error e => (f, .error e)
  | .ok () =>
    if (f.osc id).units < units then f.advanceUnits id (units - (f.osc id).units)
    else (f, .ok ())

def globalTime (f : ClockForest) (id : OscillatorId) : ClockResult Nat :=
  match f.checkOsc id with
  | .error e => .error e
  | .ok () => .ok (f.osc id).time

def globalTimeOfUnits (f : ClockForest) (id : OscillatorId) (units : Nat) : ClockResult Nat :=
  match f.checkOsc id with
  | .error e => .error e
  | .ok () => (f.osc id).timeForUnits units

/-- Advance a tree so that its position is at or after an instant. -/
def advanceToGlobal (f : ClockForest) (id : OscillatorId) (at' : Nat) :
    ClockForest × ClockResult Nat :=
  match f.checkOsc id with
  | .error e => (f, .error e)
  | .ok () =>
    match (f.osc id).unitsAt at' with
    | .error e => (f, .error e)
    | .ok target =>
      if target ≤ (f.osc id).units then (f, .ok 0)
      else
        let delta := target - (f.osc id).units
        match f.advanceUnits id delta with
        | (f', .error e) => (f', .error e)
        | (f', .ok ()) => (f', .ok delta)

def rebaseDomain (units : Nat) (d : ClockDomain) : ClockDomain :=
  { d with baseTicks := d.ticksAt (d.position units), baseUnit := d.position units }

def rebaseSubtree (f : ClockForest) (id : DomainId) : ClockForest :=
  f.modEach ((f.subtree id).map fun m => (m, rebaseDomain (f.treeUnits id)))

def rootMessage (name : String) : String :=
  "`" ++ name ++ "` is an oscillator root; set its frequency instead"

/-- Whether a rate may be asked for there. -/
def checkRequest (f : ClockForest) (r : RateRequest) : ClockResult Unit :=
  match f.checkDomain r.domain with
  | .error e => .error e
  | .ok () =>
    if (f.dom r.domain).parent = none then
      .error (.err (.notApplicable (rootMessage (f.dom r.domain).name)))
    else if r.mul = 0 ∨ r.div = 0 then .error (.err (.zeroRate (f.dom r.domain).name))
    else .ok ()

def checkRequests (f : ClockForest) : List RateRequest → ClockResult Unit
  | [] => .ok ()
  | r :: rest =>
    match f.checkRequest r with
    | .error e => .error e
    | .ok () => checkRequests f rest

def rebaseRequests : List RateRequest → ClockForest → ClockForest
  | [], f => f
  | r :: rest, f => rebaseRequests rest (f.rebaseSubtree r.domain)

def rateDomain (mul div : UInt64) (d : ClockDomain) : ClockDomain :=
  { d with mul := mul, div := div }

def applyRequests (changes : List RateRequest) (f : ClockForest) : ClockForest :=
  f.modEach (changes.map fun r => (r.domain, rateDomain r.mul r.div))

def touchedTrees (f : ClockForest) : List RateRequest → List OscillatorId → List OscillatorId
  | [], trees => trees
  | r :: rest, trees =>
    let id := (f.dom r.domain).root
    touchedTrees f rest (if id ∈ trees then trees else trees ++ [id])

def recomputeTrees : List OscillatorId → ClockForest → ClockResult ClockForest
  | [], f => .ok f
  | id :: rest, f =>
    match f.recomputeTree id with
    | .error e => .error e
    | .ok f' => recomputeTrees rest f'

/-- Re-rate several domains together, recomputing each affected tree once. -/
def setRatings (f : ClockForest) (changes : List RateRequest) : ClockForest × ClockResult Unit :=
  if changes = [] then (f, .ok ())
  else
    match f.checkRequests changes with
    | .error e => (f, .error e)
    | .ok () =>
      let rebased := rebaseRequests changes f
      let rated := applyRequests changes rebased
      commitOr f rated () (recomputeTrees (rebased.touchedTrees changes []) rated)

/-- Re-rate a domain to `parent × mul / div`. -/
def setRating (f : ClockForest) (id : DomainId) (mul div : UInt64) :
    ClockForest × ClockResult Unit :=
  match f.checkDomain id with
  | .error e => (f, .error e)
  | .ok () =>
    if (f.dom id).parent = none then
      (f, .error (.err (.notApplicable (rootMessage (f.dom id).name))))
    else if mul = 0 ∨ div = 0 then (f, .error (.err (.zeroRate (f.dom id).name)))
    else f.setRatings [⟨id, mul, div⟩]

/-- Re-rate an oscillator. -/
def setFrequency (f : ClockForest) (id : OscillatorId) (freq : Rational) :
    ClockForest × ClockResult Unit :=
  match f.checkOsc id with
  | .error e => (f, .error e)
  | .ok () =>
    if freq.isZero then (f, .error (.err (.zeroRate (f.osc id).name)))
    else
      let rated := f.modOsc id fun o => { o with freq := freq }
      commitOr f rated () (rated.recomputeTree id)

def unlink (f : ClockForest) (id : DomainId) : ClockForest :=
  match (f.dom id).parent with
  | some p => f.modDom p fun d => { d with children := d.children.filter (· != id) }
  | none => f.modOsc (f.dom id).root fun o => { o with active := false }

def relink (f : ClockForest) (id newParent : DomainId) (mul div : UInt64) : ClockForest :=
  (f.modDom id fun d => { d with parent := some newParent, mul := mul, div := div }).modDom
    newParent fun d => { d with children := d.children ++ [id] }

def moveDomain (newOsc : OscillatorId) (units : Nat) (d : ClockDomain) : ClockDomain :=
  { d with root := newOsc, baseUnit := units, own := 0 }

/-- A domain hung elsewhere, with everything below it. -/
def moved (f : ClockForest) (id newParent : DomainId) (mul div : UInt64) : ClockForest :=
  let oldOsc := (f.dom id).root
  let newOsc := (f.dom newParent).root
  let linked := ((f.rebaseSubtree id).unlink id).relink id newParent mul div
  if oldOsc ≠ newOsc then
    linked.modEach
      ((linked.subtree id).map fun m => (m, moveDomain newOsc (linked.osc newOsc).units))
  else linked

/-- Move a domain, and everything below it, under a new parent. -/
def reparent (f : ClockForest) (id newParent : DomainId) (mul div : UInt64) :
    ClockForest × ClockResult Unit :=
  match f.checkDomain id with
  | .error e => (f, .error e)
  | .ok () =>
  match f.checkDomain newParent with
  | .error e => (f, .error e)
  | .ok () =>
    if mul = 0 ∨ div = 0 then (f, .error (.err (.zeroRate (f.dom id).name)))
    else if id = newParent ∨ f.isAncestor id newParent then
      (f, .error (.err (.cycle (f.dom id).name)))
    else
      let oldOsc := (f.dom id).root
      let newOsc := (f.dom newParent).root
      let after := f.moved id newParent mul div
      let oldTreeSurvives :=
        oldOsc ≠ newOsc ∧ (after.dom (after.osc oldOsc).root).root = oldOsc
      commitOr f after ()
        (match after.recomputeTree newOsc with
          | .error e => .error e
          | .ok f' => if oldTreeSurvives then f'.recomputeTree oldOsc else .ok f')

def lockOscillator (f : ClockForest) (id : OscillatorId) (parent : DomainId) (mul div : UInt64) :
    ClockForest × ClockResult Unit :=
  match f.checkOsc id with
  | .error e => (f, .error e)
  | .ok () => f.reparent (f.osc id).root parent mul div

/-- Gate (stop) or ungate a domain. -/
def setGated (f : ClockForest) (id : DomainId) (gated : Bool) : ClockForest × ClockResult Unit :=
  match f.checkDomain id with
  | .error e => (f, .error e)
  | .ok () =>
    if (f.dom id).gated = gated then (f, .ok ())
    else
      let units := f.treeUnits id
      (f.modDom id fun d =>
        { d with
          baseTicks := d.ticksAt (d.position units), baseUnit := units, own := 0, gated := gated },
        .ok ())

/-- Restore a tree's unit position, recomputing its timeline from it. -/
def restoreUnitPosition (f : ClockForest) (id : OscillatorId) (units : Nat) :
    ClockForest × ClockResult Unit :=
  match f.checkOsc id with
  | .error e => (f, .error e)
  | .ok () =>
    let cleared : ClockForest :=
      { f with domains := f.domains.map fun d => if d.root = id then { d with own := 0 } else d }
    let o : Oscillator := { f.osc id with baseUnits := 0, baseTime := 0, units := units }
    -- the position is already overwritten when the closed form is asked for the instant
    match o.timeForUnits units with
    | .error e => (cleared.modOsc id fun _ => o, .error e)
    | .ok time =>
      match checkedMul 128 units o.rem with
      | none => (cleared.modOsc id fun _ => { o with time := time },
          .error (o.overflow "global timeline"))
      | some prod =>
        (cleared.modOsc id fun _ =>
          { o with time := time, residual := prod % o.unitRate.num }, .ok ())

/-- A count put back, anchored where the tree stands. -/
def restoreTicks (f : ClockForest) (id : DomainId) (ticks : Nat) : ClockForest × ClockResult Unit :=
  match f.checkDomain id with
  | .error e => (f, .error e)
  | .ok () =>
    let units := f.treeUnits id
    (f.modDom id fun d =>
      { d with baseTicks := ticks, baseUnit := units - units % d.unitsPerTick, own := 0 }, .ok ())

/-- Put a domain `lead` units ahead of its tree, keeping its tick count. -/
def restoreLead (f : ClockForest) (id : DomainId) (lead : Nat) : ClockForest × ClockResult Unit :=
  match f.checkDomain id with
  | .error e => (f, .error e)
  | .ok () =>
    match checkedAdd 64 (f.treeUnits id) lead with
    | none => (f, .error (.err (.overflow "unit position" [(f.dom id).name])))
    | some own =>
      (f.modDom id fun d =>
        { d with baseUnit := own - own % d.unitsPerTick, own := own }, .ok ())

end ClockForest

/-- The calls that change a forest. -/
inductive Call where
  | addOscillator (name : String) (freq : Rational)
  | addDomain (name : String) (parent : DomainId) (mul div : UInt64)
  | setRating (id : DomainId) (mul div : UInt64)
  | setRatings (changes : List RateRequest)
  | setFrequency (osc : OscillatorId) (freq : Rational)
  | reparent (id newParent : DomainId) (mul div : UInt64)
  | lockOscillator (osc : OscillatorId) (parent : DomainId) (mul div : UInt64)
  | setGated (id : DomainId) (gated : Bool)
  | advanceDomain (id : DomainId) (ticks : UInt64)
  | advanceAlone (id : DomainId) (ticks : UInt64)
  | advanceTreeTo (osc : OscillatorId) (units : UInt64)
  | advanceUnits (osc : OscillatorId) (units : UInt64)
  | advanceToGlobal (osc : OscillatorId) (instant : BitVec 128)
  | restoreUnitPosition (osc : OscillatorId) (units : UInt64)
  | restoreTicks (id : DomainId) (ticks : UInt64)
  | restoreLead (id : DomainId) (lead : UInt64)

namespace Call

def unit {α : Type} (r : ClockForest × ClockResult α) : ClockForest × ClockResult Unit :=
  (r.1, r.2.map fun _ => ())

/-- Make a call. -/
def apply (f : ClockForest) : Call → ClockForest × ClockResult Unit
  | addOscillator name freq => unit (f.addOscillator name freq)
  | addDomain name parent mul div => unit (f.addDomain name parent mul div)
  | setRating id mul div => f.setRating id mul div
  | setRatings changes => f.setRatings changes
  | setFrequency osc freq => f.setFrequency osc freq
  | reparent id newParent mul div => f.reparent id newParent mul div
  | lockOscillator osc parent mul div => f.lockOscillator osc parent mul div
  | setGated id gated => f.setGated id gated
  | advanceDomain id ticks => f.advanceDomain id ticks.toNat
  | advanceAlone id ticks => f.advanceAlone id ticks.toNat
  | advanceTreeTo osc units => f.advanceTreeTo osc units.toNat
  | advanceUnits osc units => f.advanceUnits osc units.toNat
  | advanceToGlobal osc instant => unit (f.advanceToGlobal osc instant.toNat)
  | restoreUnitPosition osc units => f.restoreUnitPosition osc units.toNat
  | restoreTicks id ticks => f.restoreTicks id ticks.toNat
  | restoreLead id lead => f.restoreLead id lead.toNat

/-- The snapshot-restore entry points. -/
def IsRestore : Call → Prop
  | restoreUnitPosition .. | restoreTicks .. | restoreLead .. => True
  | _ => False

/-- The calls that move time forward. -/
def IsAdvance : Call → Prop
  | advanceDomain .. | advanceAlone .. | advanceTreeTo .. | advanceUnits ..
  | advanceToGlobal .. => True
  | _ => False

/-- The call returns an error. -/
def Refused (f : ClockForest) (c : Call) : Prop := ∃ e, (c.apply f).2 = .error (.err e)

/-- The call returns normally. -/
def Succeeds (f : ClockForest) (c : Call) : Prop := (c.apply f).2 = .ok ()

end Call

/-- The forests a run of calls reaches from the empty one, every call meeting `ok` where it is made. -/
inductive Reaches (ok : ClockForest → Call → Prop) : ClockForest → Prop where
  | init : Reaches ok ClockForest.new
  | tail {f : ClockForest} (c : Call) : Reaches ok f → ok f c → Reaches ok (c.apply f).1

end Rsemu.Clock
