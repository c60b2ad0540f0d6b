import Mathlib.Data.List.Forall2
import Rsemu.Machine.Expand

/-!
# Lexical scope

What expansion is for: every declaration comes out once for every way it stands in the file,
with the bare identifiers that are bound there replaced by what they are bound to. Which names
are bound is a matter of where the declaration stands: a loop binds its variable in its body, an
instance binds a template's parameters in the template's, and the innermost binding wins.

`Replaced` says what a substituted expression is and `StandsIn` where a statement stands.
`expand_lexical` says that what is expanded is just that, whatever the budgets allow.
-/

namespace Rsemu.Machine

open Fallible

mutual

/--
`e'` is `e` with every identifier that is bound replaced by what it is bound to. An identifier is
what was written as one; whether a computed name is looked up too is left open.
-/
def Expr.Replaced (env : Scope) : Expr → Expr → Prop
  | .path p, e' =>
    match (writtenName p).bind env.lookup with
    | some b => e' = b.expr
    | none => (∃ p', e' = .path p' ∧ ∀ q, writtenName p' = some q → writtenName p = some q) ∨
        ∃ n b, writtenName p = none ∧ env.lookup n = some b ∧ e' = b.expr
  | .call _ args span, e' =>
    ∃ callee args', e' = .call callee args' span ∧ AllReplaced env args args'
  | .unary op operand span, e' =>
    ∃ operand', e' = .unary op operand' span ∧ operand.Replaced env operand'
  | .binary op lhs rhs span, e' =>
    ∃ lhs' rhs', e' = .binary op lhs' rhs' span ∧ lhs.Replaced env lhs' ∧ rhs.Replaced env rhs'
  | .list items span, e' => ∃ items', e' = .list items' span ∧ AllReplaced env items items'
  | .map entries span, e' => ∃ entries', e' = .map entries' span ∧ PropsReplaced env entries entries'
  | e, e' => e' = e

/-- Each expression is replaced, in order. -/
def AllReplaced (env : Scope) : List Expr → List Expr → Prop
  | [], es' => es' = []
  | e :: es, es' => ∃ x xs, es' = x :: xs ∧ e.Replaced env x ∧ AllReplaced env es xs

/-- Each property's value is replaced and its name kept. -/
def PropsReplaced (env : Scope) : List Property → List Property → Prop
  | [], ps' => ps' = []
  | .mk _ value span :: ps, ps' =>
    ∃ n x xs, ps' = .mk n x span :: xs ∧ value.Replaced env x ∧ PropsReplaced env ps xs

end

/-- The same of a declaration, in every place where an expression may stand. -/
def Stmt.Replaced (env : Scope) : Stmt → Stmt → Prop
  | .osc d, s' => ∃ n freq, s' = .osc { d with name := n, freq := freq } ∧ d.freq.Replaced env freq
  | .space d, s' =>
    ∃ n ps, s' = .space { d with name := n, props := ps } ∧ PropsReplaced env d.props ps
  | .object d, s' =>
    ∃ n ps, s' = .object { d with name := n, props := ps } ∧ PropsReplaced env d.props ps
  | .map d, s' =>
    ∃ n base size target ps, s' = .map ⟨n, base, size, target, ps, d.span⟩ ∧
      d.base.Replaced env base ∧ d.size.Replaced env size ∧ d.target.Replaced env target ∧
      PropsReplaced env d.props ps
  | .wire d, s' =>
    ∃ source sink ps, s' = .wire ⟨source, sink, ps, d.span⟩ ∧ PropsReplaced env d.props ps
  | s, s' => s' = s

/--
The frame of an instance: what the arguments come to where the instance stands, and what the
defaults come to under the parameters that are bound before them.
-/
inductive Instantiates (env : Scope) (t : Template) (args : List Arg) : Frame → Prop
  | nothing : Instantiates env t args []
  | argument {frame : Frame} {a : Arg} {template name : String} {span : Span} {k k' : Nat}
      {e : Expr} (before : Instantiates env t args frame) (given : a ∈ args)
      (named : argumentName template t a k = .ok (name, span, k'))
      (replaced : a.value.Replaced env e) :
      Instantiates env t args (setEntry frame name (bindExpr e a.span))
  | default {frame : Frame} {p : TemplateParam} {name : String} {d e : Expr}
      (before : Instantiates env t args frame) (declared : p ∈ t.params)
      (named : p.name.asLiteral = some name) (left : entry frame name = none)
      (default : p.default = some d) (replaced : d.Replaced (env.push frame) e) :
      Instantiates env t args (setEntry frame name (bindExpr e p.span))

/-- The frame binds every parameter of the template. -/
def Template.BoundBy (t : Template) (frame : Frame) : Prop :=
  ∀ p ∈ t.params, ∃ name, p.name.asLiteral = some name ∧ entry frame name ≠ none

/-- Where a statement stands under a body, and what is in scope there. -/
inductive StandsIn (templates : List (String × Template)) :
    List Stmt → Scope → Stmt → Scope → Prop
  | here {stmts : List Stmt} {env : Scope} {stmt : Stmt} (mem : stmt ∈ stmts) :
      StandsIn templates stmts env stmt env
  | loop {stmts body : List Stmt} {env env' : Scope} {stmt : Stmt} {var : Name} {start stop : Expr}
      {inclusive : Bool} {span : Span} {name : String} (value : Int64)
      (mem : .forStmt var start stop inclusive body span ∈ stmts)
      (named : var.asLiteral = some name)
      (inside : StandsIn templates body
        (env.push [(name, bindExpr (intExpr value var.span) var.span)]) stmt env') :
      StandsIn templates stmts env stmt env'
  | template {stmts : List Stmt} {env env' : Scope} {stmt : Stmt} {i : InstanceStmt} {name : String}
      {t : Template} {frame : Frame} (mem : .instanceStmt i ∈ stmts)
      (named : i.template.asLiteral = some name) (declared : entry templates name = some t)
      (instantiated : Instantiates env t i.args frame) (bound : t.BoundBy frame)
      (inside : StandsIn templates t.body (env.push frame) stmt env') :
      StandsIn templates stmts env stmt env'

section Substitution

variable (o : Options) (env : Scope)

/-- Whatever the second writes out, the first does. -/
def Name.WrittenAs (n n' : Name) : Prop := ∀ q, n'.written = some q → n.written = some q

theorem expandedName_written (n : Name) : Ensures (expandedName o env n) n.WrittenAs := by
  obtain ⟨parts, span⟩ := n
  rw [expandedName]
  split
  · exact Ensures.pure fun q hq => hq
  · exact Ensures.bind (Ensures.trivial _) fun text _ =>
      Ensures.bind (Ensures.trivial _) fun text _ => Ensures.pure fun q hq => by cases hq

theorem expandedNames_written : ∀ ns : List Name,
    Ensures (expandedNames o env ns) (List.Forall₂ Name.WrittenAs ns)
  | [] => by
    rw [expandedNames]
    exact Ensures.pure List.Forall₂.nil
  | n :: ns => by
    rw [expandedNames]
    exact Ensures.bind (expandedName_written o env n) fun m hm =>
      Ensures.bind (expandedNames_written ns) fun ms hms =>
        Ensures.pure (List.Forall₂.cons hm hms)

theorem substitutePath_written (p : Path) :
    Ensures (substitutePath o env p) fun p' => ∀ q, writtenName p' = some q →
      writtenName p = some q := by
  obtain ⟨segments, span⟩ := p
  rw [substitutePath]
  refine Ensures.bind (expandedNames_written o env segments) fun ms hms => Ensures.pure ?_
  intro q hq
  cases hms with
  | nil => exact hq
  | cons hhead htail =>
    cases htail with
    | nil => exact hhead q hq
    | cons _ _ => cases hq

theorem bareName_of_written {p : Path} {q : String} (h : writtenName p = some q) :
    bareName p = some q := by
  unfold writtenName at h
  unfold bareName
  split at h
  · unfold Name.written at h
    unfold Name.asLiteral
    split at h
    · rename_i text hparts
      rw [hparts]
      exact h
    · cases h
  · cases h

mutual

theorem substituteExpr_replaced : ∀ e : Expr,
    Ensures (substituteExpr o env e) (e.Replaced env)
  | .num _ _ => by
    rw [substituteExpr]
    exact Ensures.bind (Ensures.trivial _) fun _ _ => Ensures.pure rfl
  | .str _ _ => by
    rw [substituteExpr]
    exact Ensures.bind (Ensures.trivial _) fun _ _ => Ensures.pure rfl
  | .bool _ _ => by
    rw [substituteExpr]
    exact Ensures.bind (Ensures.trivial _) fun _ _ => Ensures.pure rfl
  | .path p => by
    rw [substituteExpr]
    refine Ensures.bind (Ensures.trivial _) fun _ _ => ?_
    split
    · rename_i binding hbinding
      refine Ensures.bind (Ensures.trivial _) fun _ _ => Ensures.pure ?_
      rw [Expr.Replaced]
      cases hwritten : writtenName p with
      | some q =>
        rw [bareName_of_written hwritten, Option.bind_some] at hbinding
        rw [Option.bind_some, hbinding]
      | none =>
        obtain ⟨n, -, hn⟩ := Option.bind_eq_some_iff.mp hbinding
        exact Or.inr ⟨n, binding, rfl, hn, rfl⟩
    · rename_i hunbound
      refine Ensures.bind (substitutePath_written o env p) fun p' hp' => Ensures.pure ?_
      rw [Expr.Replaced]
      cases hwritten : writtenName p with
      | some q =>
        rw [bareName_of_written hwritten, Option.bind_some] at hunbound
        rw [Option.bind_some, hunbound]
        exact Or.inl ⟨p', rfl, fun q' hq' => hwritten ▸ hp' q' hq'⟩
      | none => exact Or.inl ⟨p', rfl, fun q' hq' => hwritten ▸ hp' q' hq'⟩
  | .call _ args _ => by
    rw [substituteExpr]
    exact Ensures.bind (Ensures.trivial _) fun _ _ =>
      Ensures.bind (substituteAll_replaced args) fun args' hargs =>
        Ensures.bind (Ensures.trivial _) fun callee _ => Ensures.pure ⟨callee, args', rfl, hargs⟩
  | .unary _ operand _ => by
    rw [substituteExpr]
    exact Ensures.bind (Ensures.trivial _) fun _ _ =>
      Ensures.bind (substituteExpr_replaced operand) fun e he => Ensures.pure ⟨e, rfl, he⟩
  | .binary _ lhs rhs _ => by
    rw [substituteExpr]
    exact Ensures.bind (Ensures.trivial _) fun _ _ =>
      Ensures.bind (substituteExpr_replaced lhs) fun l hl =>
        Ensures.bind (substituteExpr_replaced rhs) fun r hr =>
          Ensures.pure ⟨l, r, rfl, hl, hr⟩
  | .list items _ => by
    rw [substituteExpr]
    exact Ensures.bind (Ensures.trivial _) fun _ _ =>
      Ensures.bind (substituteAll_replaced items) fun items' hitems =>
        Ensures.pure ⟨items', rfl, hitems⟩
  | .map entries _ => by
    rw [substituteExpr]
    exact Ensures.bind (Ensures.trivial _) fun _ _ =>
      Ensures.bind (substituteProps_replaced entries) fun ps hps => Ensures.pure ⟨ps, rfl, hps⟩

theorem substituteAll_replaced : ∀ es : List Expr,
    Ensures (substituteAll o env es) (AllReplaced env es)
  | [] => by
    rw [substituteAll]
    exact Ensures.pure rfl
  | e :: es => by
    rw [substituteAll]
    exact Ensures.bind (substituteExpr_replaced e) fun e' he =>
      Ensures.bind (substituteAll_replaced es) fun es' hes =>
        Ensures.pure ⟨e', es', rfl, he, hes⟩

theorem substituteProps_replaced : ∀ ps : List Property,
    Ensures (substituteProps o env ps) (PropsReplaced env ps)
  | [] => by
    rw [substituteProps]
    exact Ensures.pure rfl
  | .mk name value span :: ps => by
    rw [substituteProps, substituteProp]
    refine Ensures.bind (P := fun p => ∃ n x, p = .mk n x span ∧ value.Replaced env x) ?_ ?_
    · exact Ensures.bind (Ensures.trivial _) fun n _ =>
        Ensures.bind (substituteExpr_replaced value) fun x hx => Ensures.pure ⟨n, x, rfl, hx⟩
    · intro p hp
      obtain ⟨n, x, rfl, hx⟩ := hp
      exact Ensures.bind (substituteProps_replaced ps) fun ps' hps =>
        Ensures.pure ⟨n, x, ps', rfl, hx, hps⟩

end

theorem substitute_replaced (s : Stmt) : Ensures (substitute o env s) (s.Replaced env) := by
  cases s with
  | osc d =>
    exact Ensures.bind (Ensures.trivial _) fun n _ =>
      Ensures.bind (substituteExpr_replaced o env d.freq) fun freq hfreq =>
        Ensures.pure ⟨n, freq, rfl, hfreq⟩
  | space d =>
    exact Ensures.bind (Ensures.trivial _) fun n _ =>
      Ensures.bind (substituteProps_replaced o env d.props) fun ps hps =>
        Ensures.pure ⟨n, ps, rfl, hps⟩
  | object d =>
    exact Ensures.bind (Ensures.trivial _) fun n _ =>
      Ensures.bind (substituteProps_replaced o env d.props) fun ps hps =>
        Ensures.pure ⟨n, ps, rfl, hps⟩
  | map d =>
    refine Ensures.bind (Ensures.trivial _) fun n _ => ?_
    refine Ensures.bind (substituteExpr_replaced o env d.base) fun base hbase => ?_
    refine Ensures.bind (substituteExpr_replaced o env d.size) fun size hsize => ?_
    refine Ensures.bind (substituteExpr_replaced o env d.target) fun target htarget => ?_
    refine Ensures.bind (substituteProps_replaced o env d.props) fun ps hps => Ensures.pure ?_
    exact ⟨n, base, size, target, ps, rfl, hbase, hsize, htarget, hps⟩
  | wire d =>
    exact Ensures.bind (Ensures.trivial _) fun source _ =>
      Ensures.bind (Ensures.trivial _) fun sink _ =>
        Ensures.bind (substituteProps_replaced o env d.props) fun ps hps =>
          Ensures.pure ⟨source, sink, ps, rfl, hps⟩
  | _ => exact Ensures.pure rfl

end Substitution

section Expansion

variable (o : Options) (templates : List (String × Template)) {env : Scope}

theorem lift_ok {α : Type} (r : Except Diagnostic α) : Ensures (lift r) fun a => r = .ok a := by
  cases r with
  | ok a => exact Ensures.pure rfl
  | error e => exact Ensures.throw

theorem literalName_ok {name : Name} {what text : String} (h : literalName name what = .ok text) :
    name.asLiteral = some text := by
  unfold literalName at h
  split at h
  · rename_i text' htext
    cases h
    exact htext
  · cases h

theorem entry_setEntry_ne_none {α : Type} {entries : List (String × α)} {n m : String} {a : α}
    (h : m = n ∨ entry entries m ≠ none) : entry (setEntry entries n a) m ≠ none := by
  intro hnone
  obtain ⟨hentry, hne⟩ := entry_setEntry_none hnone
  rcases h with h | h
  · exact hne h
  · exact h hentry

/-- What a step of binding an instance's parameters comes to. -/
structure Bound (env : Scope) (t : Template) (args : List Arg) (frame frame' : Frame) : Prop where
  instantiated : Instantiates env t args frame'
  /-- What was bound still is. -/
  kept : ∀ n, entry frame n ≠ none → entry frame' n ≠ none

theorem bindArgs_bound (template : String) (t : Template) {all : List Arg} : ∀ (args : List Arg)
    (positional : Nat) {frame : Frame}, (∀ a ∈ args, a ∈ all) → Instantiates env t all frame →
    Ensures (bindArgs o template t env args positional frame) (Bound env t all frame)
  | [], _, _, _, hframe => by
    rw [bindArgs]
    exact Ensures.pure ⟨hframe, fun _ h => h⟩
  | a :: args, positional, frame, hall, hframe => by
    rw [bindArgs]
    refine Ensures.bind (lift_ok _) fun r hr => ?_
    obtain ⟨name, span, positional'⟩ := r
    dsimp only
    split
    · exact Ensures.throw_bind
    · split
      · exact Ensures.throw_bind
      · refine Ensures.bind (substituteExpr_replaced o env a.value) fun e he => ?_
        have hframe' := hframe.argument (hall a List.mem_cons_self) hr he
        have hrest := bindArgs_bound template t args positional'
          (fun b hb => hall b (List.mem_cons_of_mem _ hb)) hframe'
        exact hrest.mono fun f hf =>
          ⟨hf.instantiated, fun n hn => hf.kept n (entry_setEntry_ne_none (Or.inr hn))⟩

theorem bindDefaults_bound (template : String) (t : Template) {all : List Arg} (span : Span) :
    ∀ (ps : List TemplateParam) {frame : Frame}, (∀ p ∈ ps, p ∈ t.params) →
    Instantiates env t all frame →
    Ensures (bindDefaults o template env span ps frame) fun frame' =>
      Bound env t all frame frame' ∧
        ∀ p ∈ ps, ∃ name, p.name.asLiteral = some name ∧ entry frame' name ≠ none
  | [], _, _, hframe => by
    rw [bindDefaults]
    exact Ensures.pure ⟨⟨hframe, fun _ h => h⟩, List.forall_mem_nil _⟩
  | p :: ps, frame, hall, hframe => by
    rw [bindDefaults]
    refine Ensures.bind (lift_ok _) fun name hname => ?_
    have hliteral := literalName_ok hname
    have hps : ∀ q ∈ ps, q ∈ t.params := fun q hq => hall q (List.mem_cons_of_mem _ hq)
    split
    · rename_i hsome
      refine (bindDefaults_bound template t span ps hps hframe).mono fun f hf => ⟨hf.1, ?_⟩
      refine List.forall_mem_cons.mpr ⟨⟨name, hliteral, hf.1.kept name ?_⟩, hf.2⟩
      exact Option.isSome_iff_ne_none.mp hsome
    · rename_i hnone
      split
      · exact Ensures.throw
      · rename_i default hdefault
        refine Ensures.bind (substituteExpr_replaced o (env.push frame) default) fun e he => ?_
        have hleft : entry frame name = none := Option.not_isSome_iff_eq_none.mp hnone
        have hframe' := hframe.default (hall p List.mem_cons_self) hliteral hleft hdefault he
        refine (bindDefaults_bound template t span ps hps hframe').mono fun f hf => ⟨⟨?_, ?_⟩, ?_⟩
        · exact hf.1.instantiated
        · exact fun n hn => hf.1.kept n (entry_setEntry_ne_none (Or.inr hn))
        · refine List.forall_mem_cons.mpr ⟨⟨name, hliteral, hf.1.kept name ?_⟩, hf.2⟩
          exact entry_setEntry_ne_none (Or.inl rfl)

/-- The scope of the root, or one with a dot in its name. -/
def Namespace (scope : String) : Prop := scope = "" ∨ '.' ∈ scope.toList

/-- A declaration as it stands in a body, with what is bound there replaced. -/
def Lexical (stmts : List Stmt) (env : Scope) (out : List Scoped) : Prop :=
  ∀ s ∈ out, Namespace s.scope ∧
    ∃ decl env', StandsIn templates stmts env decl env' ∧ decl.Replaced env' s.stmt

/-- **What a body expands to are its declarations as they stand in it.** -/
def Body.Faithful (body : Body) : Prop :=
  ∀ stmts scope env trail, Namespace scope →
    Ensures (body stmts scope env trail) (Lexical templates stmts env)

variable {templates}

variable {all : List Stmt} {body : Body}

theorem iterate_lexical (hbody : body.Faithful templates) {var : Name} {name : String}
    (hname : var.asLiteral = some name) {start stop : Expr} {inclusive : Bool} {span : Span}
    {stmts : List Stmt} (hmem : .forStmt var start stop inclusive stmts span ∈ all) {scope : String}
    (hscope : Namespace scope) (trail : Trail) : ∀ values : List Int,
    Ensures (iterate body name var.span stmts scope env trail values) (Lexical templates all env)
  | [] => by
    rw [iterate]
    exact Ensures.pure (List.forall_mem_nil _)
  | value :: values => by
    rw [iterate]
    refine Ensures.bind (hbody stmts scope _ trail hscope) fun first hfirst => ?_
    refine Ensures.bind (iterate_lexical hbody hname hmem hscope trail values) fun rest hrest => ?_
    refine Ensures.pure (List.forall_mem_append.mpr ⟨fun s hs => ?_, hrest⟩)
    obtain ⟨hns, decl, env', hstands, hreplaced⟩ := hfirst s hs
    exact ⟨hns, decl, env', .loop (Int64.ofInt value) hmem hname hstands, hreplaced⟩

theorem expandFor_lexical (hbody : body.Faithful templates) {var : Name} {start stop : Expr}
    {inclusive : Bool} {span : Span} {stmts : List Stmt}
    (hmem : .forStmt var start stop inclusive stmts span ∈ all) {scope : String}
    (hscope : Namespace scope) (trail : Trail) :
    Ensures (expandFor o body var start stop inclusive stmts scope env trail)
      (Lexical templates all env) := by
  refine Ensures.bind (lift_ok _) fun name hname => ?_
  refine Ensures.bind (Ensures.trivial _) fun first _ => ?_
  refine Ensures.bind (Ensures.trivial _) fun bound _ => ?_
  generalize bound.toInt - (if inclusive then 0 else 1) = last
  dsimp only
  split
  · exact Ensures.pure (List.forall_mem_nil _)
  · split
    · exact Ensures.throw_bind
    · exact iterate_lexical hbody (literalName_ok hname) hmem hscope trail _

theorem namespace_instance (scope name : String) : Namespace s!"{scope}{name}." := by
  refine Or.inr ?_
  rw [String.toList_append]
  exact List.mem_append_right _ List.mem_cons_self

theorem expandInstance_lexical (hbody : body.Faithful templates) {i : InstanceStmt}
    (hmem : .instanceStmt i ∈ all) (scope : String) (trail : Trail) :
    Ensures (expandInstance o templates body i scope env trail) (Lexical templates all env) := by
  refine Ensures.bind (lift_ok _) fun template htemplate => ?_
  split
  · exact Ensures.throw
  · rename_i t ht
    split
    · exact Ensures.throw_bind
    · refine Ensures.bind (bindArgs_bound o template t i.args 0 (fun a ha => ha) .nothing) ?_
      intro given hgiven
      refine Ensures.bind (bindDefaults_bound o template t i.span t.params (fun p hp => hp)
        hgiven.instantiated) fun frame hframe => ?_
      refine Ensures.bind (Ensures.trivial _) fun name _ => ?_
      refine (hbody t.body _ _ _ (namespace_instance scope name)).mono fun out hout s hs => ?_
      obtain ⟨hns, decl, env', hstands, hreplaced⟩ := hout s hs
      exact ⟨hns, decl, env', .template hmem (literalName_ok htemplate) ht hframe.1.instantiated
        hframe.2 hstands, hreplaced⟩

theorem expandStmt_lexical (hbody : body.Faithful templates) {stmt : Stmt} (hmem : stmt ∈ all)
    {scope : String} (hscope : Namespace scope) (trail : Trail) :
    Ensures (expandStmt o templates body stmt scope env trail) (Lexical templates all env) := by
  unfold expandStmt
  split
  · exact Ensures.pure (List.forall_mem_nil _)
  · exact Ensures.pure (List.forall_mem_nil _)
  · exact Ensures.throw
  · exact expandFor_lexical o hbody hmem hscope trail
  · exact expandInstance_lexical o hbody hmem scope trail
  · refine Ensures.bind (Ensures.trivial _) fun s _ => ?_
    refine Ensures.bind (Ensures.trivial _) fun _ _ => ?_
    split
    · exact Ensures.throw_bind
    · refine Ensures.bind (substitute_replaced o env stmt) fun stmt' hstmt => Ensures.pure ?_
      exact List.forall_mem_singleton.mpr ⟨hscope, stmt, env, .here hmem, hstmt⟩

theorem expandStmts_lexical (hbody : body.Faithful templates) {scope : String}
    (hscope : Namespace scope) (trail : Trail) : ∀ stmts : List Stmt,
    (∀ s ∈ stmts, s ∈ all) →
    Ensures (expandStmts o templates body stmts scope env trail) (Lexical templates all env)
  | [], _ => by
    rw [expandStmts]
    exact Ensures.pure (List.forall_mem_nil _)
  | stmt :: stmts, hall => by
    rw [expandStmts]
    obtain ⟨hmem, hrest⟩ := List.forall_mem_cons.mp hall
    exact Ensures.bind (expandStmt_lexical o hbody hmem hscope trail) fun first hfirst =>
      Ensures.bind (expandStmts_lexical hbody hscope trail stmts hrest) fun rest hrest =>
        Ensures.pure (List.forall_mem_append.mpr ⟨hfirst, hrest⟩)

theorem expand_lexical : ∀ levels : Nat, Body.Faithful templates (expand o templates levels)
  | 0 => fun _ _ _ _ _ => Ensures.throw
  | levels + 1 => fun stmts _ _ trail hscope =>
    expandStmts_lexical o (expand_lexical levels) hscope trail stmts fun _ hs => hs

end Expansion

end Rsemu.Machine
