import Mathlib.Data.List.Nodup
import Rsemu.Machine.Finish

/-!
# A property set twice

`props` refuses a block in which a property name occurs twice, and every block and every nested
map value is evaluated by it or by something that refuses maps altogether. One kind of block is
not evaluated whole: `object` lifts `clock` and `space` out of its block first, each occurrence
replacing the one before, and hands only the rest to `props`.

So an accepted machine has distinct property names everywhere exactly when no object sets one of
those two twice (`settings_distinct_iff`).
-/

namespace Rsemu.Machine

open Fallible

def Property.key (p : Property) : String := p.name.asLiteral.getD ""

mutual

/-- No map value in the expression sets a name twice. -/
def Expr.Distinct : Expr → Prop
  | .num _ _ | .str _ _ | .bool _ _ | .path _ => True
  | .call _ args _ => AllDistinct args
  | .unary _ operand _ => operand.Distinct
  | .binary _ lhs rhs _ => lhs.Distinct ∧ rhs.Distinct
  | .list items _ => AllDistinct items
  | .map entries _ => (entries.map Property.key).Nodup ∧ ValuesDistinct entries

/-- No expression of the list sets a key twice. -/
def AllDistinct : List Expr → Prop
  | [] => True
  | e :: es => e.Distinct ∧ AllDistinct es

/-- No property's value sets a key twice. -/
def ValuesDistinct : List Property → Prop
  | [] => True
  | .mk _ value _ :: ps => value.Distinct ∧ ValuesDistinct ps

end

/-- A property block in which no name is set twice, nor in a map value of it. -/
structure BlockDistinct (ps : List Property) : Prop where
  names : (ps.map Property.key).Nodup
  values : ValuesDistinct ps

/-- The same of everything in a declaration that is evaluated. -/
def Stmt.Distinct : Stmt → Prop
  | .osc d => d.freq.Distinct
  | .space d => BlockDistinct d.props
  | .object d => BlockDistinct d.props
  | .map m => m.base.Distinct ∧ m.size.Distinct ∧ m.target.Distinct ∧ BlockDistinct m.props
  | .wire w => BlockDistinct w.props
  | _ => True

def Stmt.blockNames : Stmt → List String
  | .space d => d.props.map Property.key
  | .object d => d.props.map Property.key
  | .map m => m.props.map Property.key
  | .wire w => w.props.map Property.key
  | _ => []

theorem Stmt.Distinct.blockNames_nodup {s : Stmt} (h : s.Distinct) : s.blockNames.Nodup := by
  cases s with
  | space d => exact h.names
  | object d => exact h.names
  | map m => exact h.2.2.2.names
  | wire w => exact h.names
  | _ => exact List.nodup_nil

/-- Neither of the properties lifted out of the block is set twice. -/
structure ObjectDecl.StructuralOnce (d : ObjectDecl) : Prop where
  clock : (d.props.map Property.key).count "clock" ≤ 1
  space : (d.props.map Property.key).count "space" ≤ 1

theorem evalRational_distinct : ∀ (e : Expr) {r : Rational}, e.evalRational = .ok r → e.Distinct
  | .num _ _, _, _ => True.intro
  | .str _ _, _, _ => True.intro
  | .bool _ _, _, _ => True.intro
  | .path _, _, _ => True.intro
  | .unary .neg operand _, _, h => by
    obtain ⟨v, hv, -⟩ := ok_of_bind h
    exact evalRational_distinct operand hv
  | .binary _ lhs rhs _, _, h => by
    obtain ⟨a, ha, h⟩ := ok_of_bind h
    obtain ⟨b, hb, -⟩ := ok_of_bind h
    exact ⟨evalRational_distinct lhs ha, evalRational_distinct rhs hb⟩
  | .call _ _ _, _, h => by cases h
  | .list _ _, _, h => by cases h
  | .map _ _, _, h => by cases h

section Evaluation

variable {table : Table} {scope : String}

mutual

theorem value_distinct : ∀ (e : Expr) {v : Value}, value table scope e = .ok v → e.Distinct
  | .num _ _, _, _ => True.intro
  | .str _ _, _, _ => True.intro
  | .bool _ _, _, _ => True.intro
  | .path _, _, _ => True.intro
  | .list items _, _, h => by
    rw [value] at h
    obtain ⟨vs, hvs, -⟩ := ok_of_map h
    exact values_distinct items hvs
  | .map entries _, _, h => by
    rw [value] at h
    obtain ⟨r, hr, -⟩ := ok_of_map h
    obtain ⟨hnodup, hvalues, -⟩ := propsFrom_distinct entries hr
    exact ⟨hnodup, hvalues⟩
  | .unary .neg operand _, _, h => by
    rw [value] at h
    obtain ⟨v, hv, -⟩ := ok_of_bind h
    exact value_distinct operand hv
  | .binary _ lhs rhs _, _, h => by
    rw [value] at h
    obtain ⟨a, ha, h⟩ := ok_of_bind h
    obtain ⟨b, hb, -⟩ := ok_of_bind h
    exact ⟨value_distinct lhs ha, value_distinct rhs hb⟩
  | .call _ _ _, _, h => by cases h

theorem values_distinct : ∀ (es : List Expr) {vs : List Value},
    values table scope es = .ok vs → AllDistinct es
  | [], _, _ => True.intro
  | e :: es, _, h => by
    rw [values] at h
    obtain ⟨v, hv, h⟩ := ok_of_bind h
    obtain ⟨vs, hvs, -⟩ := ok_of_map h
    exact ⟨value_distinct e hv, values_distinct es hvs⟩

theorem propsFrom_distinct : ∀ (ps : List Property) {out : Props} {spans : PropSpans}
    {r : Props × PropSpans}, propsFrom table scope ps out spans = .ok r →
    (ps.map Property.key).Nodup ∧ ValuesDistinct ps ∧ ∀ p ∈ ps, entry spans p.key = none
  | [], _, _, _, _ => ⟨List.nodup_nil, True.intro, fun p hp => absurd hp List.not_mem_nil⟩
  | .mk n e span :: ps, out, spans, r, h => by
    rw [propsFrom] at h
    split at h
    · cases h
    · rename_i hnew
      obtain ⟨v, hv, h⟩ := ok_of_bind h
      obtain ⟨hnodup, hvalues, hfresh⟩ := propsFrom_distinct ps h
      have hkey : (Property.mk n e span).key = n.asLiteral.getD "" := rfl
      refine ⟨?_, ⟨value_distinct e hv, hvalues⟩, ?_⟩
      · rw [List.map_cons, List.nodup_cons]
        refine ⟨fun hmem => ?_, hnodup⟩
        obtain ⟨p, hp, hpkey⟩ := List.mem_map.mp hmem
        exact (entry_setEntry_none (hfresh p hp)).2 hpkey
      · intro p hp
        rcases List.mem_cons.mp hp with rfl | hp
        · exact hnew
        · exact (entry_setEntry_none (hfresh p hp)).1

end

theorem props_distinct {ps : List Property} {r : Props × PropSpans}
    (h : props table scope ps = .ok r) : BlockDistinct ps := by
  obtain ⟨hnodup, hvalues, -⟩ := propsFrom_distinct ps h
  exact ⟨hnodup, hvalues⟩

end Evaluation

section Lifting

variable {table : Table} {scope : String}

theorem clockParts_distinct : ∀ (e : Expr) {r : Option ClockParent × Rational},
    clockParts table scope e = .ok r → e.Distinct
  | .path _, _, _ => True.intro
  | .num _ _, _, _ => True.intro
  | .str _ _, _, _ => True.intro
  | .bool _ _, _, _ => True.intro
  | .unary op operand span, _, h => by
    obtain ⟨r, hr, -⟩ := ok_of_map h
    exact evalRational_distinct (.unary op operand span) hr
  | .binary _ lhs rhs _, _, h => by
    rw [clockParts] at h
    obtain ⟨l, hl, h⟩ := ok_of_bind h
    obtain ⟨r, hr, -⟩ := ok_of_bind h
    exact ⟨clockParts_distinct lhs hl, clockParts_distinct rhs hr⟩
  | .call _ _ _, _, h => by cases h
  | .list _ _, _, h => by cases h
  | .map _ _, _, h => by cases h

theorem spaceLink_distinct {e : Expr} {id : Nat} (h : spaceLink table e scope = .ok id) :
    e.Distinct := by
  cases e with
  | path p => exact True.intro
  | _ => cases h

def Property.structural (p : Property) : Bool := p.key == "clock" || p.key == "space"

theorem Property.key_of_literal {p : Property} {text : String}
    (h : p.name.asLiteral = some text) : p.key = text := by
  rw [Property.key, h, Option.getD_some]

theorem liftStructural_spec : ∀ (ps : List Property) {l l' : Lifted},
    liftStructural table scope ps l = .ok l' →
    l'.rest = l.rest ++ ps.filter (fun p => !p.structural) ∧
      ∀ p ∈ ps, p.structural = true → p.value.Distinct
  | [], _, _, h => by
    cases h
    exact ⟨(List.append_nil _).symm, fun p hp => absurd hp List.not_mem_nil⟩
  | p :: ps, l, l', h => by
    rw [liftStructural] at h
    split at h
    · rename_i hname
      obtain ⟨c, hc, h⟩ := ok_of_bind h
      obtain ⟨hrest, hvalues⟩ := liftStructural_spec ps h
      obtain ⟨r, hr, -⟩ := ok_of_bind hc
      have hkey : p.structural = true := by
        simp [Property.structural, Property.key_of_literal hname]
      rw [List.filter_cons_of_neg (by simp [hkey])]
      exact ⟨hrest, List.forall_mem_cons.mpr ⟨fun _ => clockParts_distinct _ hr, hvalues⟩⟩
    · rename_i hname
      obtain ⟨s, hs, h⟩ := ok_of_bind h
      obtain ⟨hrest, hvalues⟩ := liftStructural_spec ps h
      have hkey : p.structural = true := by
        simp [Property.structural, Property.key_of_literal hname]
      rw [List.filter_cons_of_neg (by simp [hkey])]
      exact ⟨hrest, List.forall_mem_cons.mpr ⟨fun _ => spaceLink_distinct hs, hvalues⟩⟩
    · rename_i hclock hspace
      obtain ⟨hrest, hvalues⟩ := liftStructural_spec ps h
      have hkey : p.structural = false := by
        unfold Property.structural Property.key
        cases hlit : p.name.asLiteral with
        | none => rfl
        | some text =>
          simp only [Option.getD_some, Bool.or_eq_false_iff, beq_eq_false_iff_ne, ne_eq]
          exact ⟨fun h => hclock (h ▸ hlit), fun h => hspace (h ▸ hlit)⟩
      rw [List.filter_cons_of_pos (by simp [hkey])]
      refine ⟨?_, List.forall_mem_cons.mpr ⟨fun h => ?_, hvalues⟩⟩
      · rw [hrest, List.append_assoc, List.singleton_append]
      · rw [hkey] at h
        exact absurd h (by decide)

theorem valuesDistinct_iff {ps : List Property} :
    ValuesDistinct ps ↔ ∀ p ∈ ps, p.value.Distinct := by
  induction ps with
  | nil => exact iff_of_true True.intro fun p hp => absurd hp List.not_mem_nil
  | cons p ps ih =>
    cases p with
    | mk n e span =>
      rw [List.forall_mem_cons, ValuesDistinct, ih]
      rfl

theorem count_rest {ps : List Property} {name : String} (hclock : name ≠ "clock")
    (hspace : name ≠ "space") :
    ((ps.filter fun p => !p.structural).map Property.key).count name =
      (ps.map Property.key).count name := by
  rw [List.count_eq_countP, List.count_eq_countP, List.countP_map, List.countP_map,
    List.countP_filter]
  refine List.countP_congr fun p _ => ?_
  simp only [Function.comp_apply, Bool.and_eq_true, beq_iff_eq]
  refine and_iff_left_of_imp fun hkey => ?_
  simp [Property.structural, hkey, hclock, hspace]

theorem object_distinct_iff {d : ObjectDecl} {x : Object} (h : object table d scope = .ok x) :
    BlockDistinct d.props ↔ d.StructuralOnce := by
  obtain ⟨l, hl, h⟩ := ok_of_bind h
  obtain ⟨r, hr, -⟩ := ok_of_map h
  obtain ⟨hrest, hvalues⟩ := liftStructural_spec d.props hl
  have hblock := props_distinct hr
  rw [hrest] at hblock
  constructor
  · intro hd
    have hcount := List.nodup_iff_count_le_one.mp hd.names
    exact ⟨hcount "clock", hcount "space"⟩
  · intro honce
    refine ⟨List.nodup_iff_count_le_one.mpr fun name => ?_, valuesDistinct_iff.mpr fun p hp => ?_⟩
    · by_cases hclock : name = "clock"
      · exact hclock ▸ honce.clock
      · by_cases hspace : name = "space"
        · exact hspace ▸ honce.space
        · rw [← count_rest hclock hspace]
          exact List.nodup_iff_count_le_one.mp hblock.names name
    · cases hs : p.structural with
      | true => exact hvalues p hp hs
      | false =>
        refine valuesDistinct_iff.mp hblock.values p (List.mem_filter.mpr ⟨hp, ?_⟩)
        rw [hs]
        rfl

end Lifting

section Machines

variable {sc : Scalars} {table : Table} {scope : String}

theorem mapTarget_distinct : ∀ (levels : Nat) {e : Expr} {t : MapTarget},
    mapTarget sc table scope levels e = .ok t → e.Distinct
  | 0, _, _, h => by cases h
  | levels + 1, e, t, h => by
    cases e with
    | path p => exact True.intro
    | call callee args span =>
      unfold mapTarget at h
      split at h
      · obtain ⟨i, hi, -⟩ := ok_of_map h
        exact ⟨mapTarget_distinct levels hi, True.intro⟩
      · cases h
      · obtain ⟨i, hi, -⟩ := ok_of_map h
        exact ⟨mapTarget_distinct levels hi, True.intro⟩
      · obtain ⟨off, hoff, h⟩ := ok_of_bind h
        obtain ⟨i, hi, -⟩ := ok_of_map h
        obtain ⟨v, hv, -⟩ := ok_of_bind hoff
        exact ⟨mapTarget_distinct levels hi, value_distinct _ hv, True.intro⟩
      · cases h
      · obtain ⟨r, hr, h⟩ := ok_of_bind h
        obtain ⟨w, hw, -⟩ := ok_of_map h
        exact ⟨mapTarget_distinct levels hr, mapTarget_distinct levels hw, True.intro⟩
      · cases h
      · cases h
    | _ => cases h

theorem mapping_distinct {m : MapStmt} {x : Mapping} (h : mapping sc table m scope = .ok x) :
    Stmt.Distinct (.map m) := by
  obtain ⟨space, -, h⟩ := ok_of_bind h
  obtain ⟨base, hbase, h⟩ := ok_of_bind h
  obtain ⟨baseAddr, -, h⟩ := ok_of_bind h
  obtain ⟨size, hsize, h⟩ := ok_of_bind h
  obtain ⟨bytes, -, h⟩ := ok_of_bind h
  split at h
  · cases h
  · split at h
    · cases h
    · obtain ⟨target, htarget, h⟩ := ok_of_bind h
      obtain ⟨r, hr, -⟩ := ok_of_map h
      exact ⟨value_distinct _ hbase, value_distinct _ hsize, mapTarget_distinct 9 htarget,
        props_distinct hr⟩

theorem paramValues_distinct : ∀ {params : Frame} {out r : Props},
    paramValues table params out = .ok r → ∀ p ∈ params, p.2.expr.Distinct
  | [], _, _, _ => fun p hp => absurd hp List.not_mem_nil
  | (name, binding) :: params, _, _, h => by
    rw [paramValues] at h
    obtain ⟨v, hv, h⟩ := ok_of_bind h
    exact List.forall_mem_cons.mpr ⟨value_distinct _ hv, paramValues_distinct h⟩

theorem finish_distinct {params : Frame} {m : MachineDecl} {stmts : List Scoped} {r : Resolved}
    (h : finish sc table params m stmts = .ok r) :
    (∀ s ∈ stmts, s.stmt.Distinct ↔ ∀ d, s.stmt = .object d → d.StructuralOnce) ∧
      ∀ p ∈ params, p.2.expr.Distinct := by
  obtain ⟨values, hvalues, h⟩ := ok_of_bind h
  obtain ⟨out₁, hdecls, h⟩ := ok_of_bind h
  obtain ⟨out₂, hobjects, h⟩ := ok_of_bind h
  obtain ⟨out₃, hlinks, -⟩ := ok_of_bind h
  refine ⟨fun s hs => ?_, paramValues_distinct hvalues⟩
  obtain ⟨c₁, c₁', h₁⟩ := foldlM_steps hdecls s hs
  obtain ⟨c₂, c₂', h₂⟩ := foldlM_steps hobjects s hs
  obtain ⟨c₃, c₃', h₃⟩ := foldlM_steps hlinks s hs
  obtain ⟨scope, stmt⟩ := s
  cases stmt with
  | osc d =>
    obtain ⟨x, hx, -⟩ := ok_of_map h₁
    obtain ⟨hz, hhz, -⟩ := ok_of_bind hx
    obtain ⟨base, hbase, -⟩ := ok_of_bind hhz
    exact iff_of_true (evalRational_distinct _ hbase) fun d hd => by cases hd
  | space d =>
    obtain ⟨x, hx, -⟩ := ok_of_map h₁
    obtain ⟨p, hp, -⟩ := ok_of_map hx
    exact iff_of_true (props_distinct hp) fun d hd => by cases hd
  | object d =>
    obtain ⟨x, hx, -⟩ := ok_of_map h₂
    refine (object_distinct_iff hx).trans ⟨fun h d' hd' => ?_, fun h => h d rfl⟩
    cases hd'
    exact h
  | map d =>
    obtain ⟨x, hx, -⟩ := ok_of_map h₃
    exact iff_of_true (mapping_distinct hx) fun d hd => by cases hd
  | wire d =>
    obtain ⟨x, hx, -⟩ := ok_of_map h₃
    obtain ⟨p, hp, -⟩ := ok_of_bind hx
    exact iff_of_true (props_distinct hp) fun d hd => by cases hd
  | _ => exact iff_of_true True.intro fun d hd => by cases hd

end Machines

/--
**A property set twice is refused, but for the two that are lifted out.** In an accepted machine
no property name is set twice, in any block of the expanded statements, in any map value in one
or in a parameter's value, if and only if no object sets `clock` twice or `space` twice.
-/
theorem settings_distinct_iff {sc : Scalars} {o : Options} {stmts : List Stmt} {m : Resolved}
    (h : resolve sc o stmts = .ok m) :
    ∃ x, expandFile sc o stmts = .ok x ∧
      (((∀ s ∈ x.stmts, s.stmt.Distinct) ∧ ∀ p ∈ x.params, p.2.expr.Distinct) ↔
        ∀ s ∈ x.stmts, ∀ d, s.stmt = .object d → d.StructuralOnce) := by
  obtain ⟨x, hx, h⟩ := ok_of_bind h
  obtain ⟨table, -, h⟩ := ok_of_bind h
  obtain ⟨hstmts, hparams⟩ := finish_distinct h
  refine ⟨x, hx, ?_⟩
  rw [and_iff_left hparams]
  exact forall₂_congr hstmts

def plainScalars : Scalars := ⟨fun text => .str text false, Value.kind⟩

def plainName (text : String) : Name := .mk [.literal text false] (.point 0)

def plainPath (text : String) : Expr := .path (.mk [plainName text] (.point 0))

def plainOsc (name : String) (hz : UInt64) : Stmt :=
  .osc ⟨plainName name, literal hz .none (.point 0), .hz, .point 0, .point 0⟩

/-- A machine with two crystals, and a processor of some properties. -/
def clocked (props : List (String × String)) : List Stmt :=
  let cpu : ObjectDecl :=
    { name := plainName "cpu", className := "mos6502", classSpan := .point 0,
      props := props.map fun p => .mk (plainName p.1) (plainPath p.2) (.point 0), span := .point 0 }
  [.machine "m" (.point 0) [plainOsc "x" 100, plainOsc "y" 200, .object cpu] (.point 0)]

theorem settings_distinct_one_clock :
    ∃ m x, resolve plainScalars .default (clocked [("clock", "x"), ("reset", "y")]) = .ok m ∧
      expandFile plainScalars .default (clocked [("clock", "x"), ("reset", "y")]) = .ok x ∧
      (∀ s ∈ x.stmts, s.stmt.Distinct) ∧ ∀ p ∈ x.params, p.2.expr.Distinct := by
  have haccepted : ((resolve plainScalars .default
      (clocked [("clock", "x"), ("reset", "y")])).toOption.map Resolved.name) = some "m" := by
    decide +kernel
  have hnames : ((expandFile plainScalars .default
      (clocked [("clock", "x"), ("reset", "y")])).toOption.map fun x =>
        x.stmts.map fun s => s.stmt.blockNames) = some [[], [], ["clock", "reset"]] := by
    decide +kernel
  obtain ⟨m, hm, -⟩ := ok_of_toOption_map haccepted
  obtain ⟨x, hx, hiff⟩ := settings_distinct_iff hm
  refine ⟨m, x, hm, hx, hiff.mpr fun s hs d hd => ?_⟩
  rw [hx] at hnames
  have hblock : d.props.map Property.key ∈ x.stmts.map fun s => s.stmt.blockNames :=
    List.mem_map.mpr ⟨s, hs, by rw [hd]; rfl⟩
  rw [show x.stmts.map (fun s => s.stmt.blockNames) = _ from Option.some.inj hnames] at hblock
  have honce : ∀ names ∈ [[], [], ["clock", "reset"]],
      names.count "clock" ≤ 1 ∧ names.count "space" ≤ 1 := by decide
  exact ⟨(honce _ hblock).1, (honce _ hblock).2⟩

def twoClocks : List Stmt := clocked [("clock", "x"), ("clock", "y")]

/-- **Two clocks are accepted, and the object runs from the second.** -/
theorem clock_set_twice :
    ∃ m x, resolve plainScalars .default twoClocks = .ok m ∧
      expandFile plainScalars .default twoClocks = .ok x ∧
      ¬ (∀ s ∈ x.stmts, s.stmt.Distinct) ∧
      m.objects.map (fun o => o.clock.map Clock.parent) = [some (.osc 1)] := by
  have hclocks : ((resolve plainScalars .default twoClocks).toOption.map fun m =>
      m.objects.map fun o => o.clock.map Clock.parent) = some [some (.osc 1)] := by
    decide +kernel
  have hnames : ((expandFile plainScalars .default twoClocks).toOption.map fun x =>
      x.stmts.map fun s => s.stmt.blockNames) = some [[], [], ["clock", "clock"]] := by
    decide +kernel
  obtain ⟨m, hm, hobjects⟩ := ok_of_toOption_map hclocks
  obtain ⟨x, hx, hblocks⟩ := ok_of_toOption_map hnames
  refine ⟨m, x, hm, hx, fun hdistinct => ?_, hobjects⟩
  have hmem : ["clock", "clock"] ∈ x.stmts.map fun s => s.stmt.blockNames := by
    rw [hblocks]
    exact List.mem_cons_of_mem _ (List.mem_cons_of_mem _ List.mem_cons_self)
  obtain ⟨s, hs, hblock⟩ := List.mem_map.mp hmem
  have hnodup := (hdistinct s hs).blockNames_nodup
  rw [hblock] at hnodup
  exact absurd hnodup (by decide)

end Rsemu.Machine
