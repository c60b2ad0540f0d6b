import Rsemu.Machine.Distinct
import Rsemu.Machine.Lexical

/-!
# Bindings and bare words

A bare identifier is a parameter's or a template's or a loop's name when one is in scope, a
link when it names a declaration, and otherwise a string. The first rule is a pass of its own
over the statements, so what it leaves is decided by the second and the third.

Arguments, template defaults and loop variables are substituted before they are bound, but a
parameter's default is bound as it was written and nothing looks at it again. So a machine has
a string spelling a parameter's name, written as a bare identifier, exactly when the default
of some parameter mentions one (`bindings_win_iff`).
-/

namespace Rsemu.Machine

open Fallible

/-! ## Bare words -/

mutual

def Expr.words : Expr → List String
  | .num _ _ | .str _ _ | .bool _ _ => []
  | .path p => (writtenName p).toList
  | .call _ args _ => allWords args
  | .unary _ operand _ => operand.words
  | .binary _ lhs rhs _ => lhs.words ++ rhs.words
  | .list items _ => allWords items
  | .map entries _ => propWords entries

def allWords : List Expr → List String
  | [] => []
  | e :: es => e.words ++ allWords es

def propWords : List Property → List String
  | [] => []
  | .mk _ value _ :: ps => value.words ++ propWords ps

end

theorem propWords_cons (p : Property) (ps : List Property) :
    propWords (p :: ps) = p.value.words ++ propWords ps := by
  cases p
  rfl

def Stmt.words : Stmt → List String
  | .osc d => d.freq.words
  | .space d => propWords d.props
  | .object d => propWords d.props
  | .map m => m.base.words ++ m.size.words ++ m.target.words ++ propWords m.props
  | .wire w => propWords w.props
  | _ => []

mutual

def Value.words : Value → List String
  | .str text true => [text]
  | .list items => listWords items
  | .map entries => entryWords entries
  | _ => []

def listWords : List Value → List String
  | [] => []
  | v :: vs => v.words ++ listWords vs

def entryWords : List (String × Value) → List String
  | [] => []
  | e :: es => pairWords e ++ entryWords es

def pairWords : String × Value → List String
  | (_, v) => v.words

end

theorem mem_entryWords {q : String} : ∀ {es : Props},
    q ∈ entryWords es ↔ ∃ e ∈ es, q ∈ e.2.words
  | [] => by simp [entryWords]
  | (n, v) :: es => by
    rw [entryWords, List.mem_append, mem_entryWords, List.exists_mem_cons_iff]
    rfl

/-! ## What substitution leaves -/

namespace Scope

/-- Expansion leaves the word in the text: unbound, or brought in by a binding. -/
def Leaves (env : Scope) (q : String) : Prop :=
  env.lookup q = none ∨ ∃ n b, env.lookup n = some b ∧ q ∈ b.expr.words

theorem lookup_push (env : Scope) (frame : Frame) (n : String) :
    (env.push frame).lookup n = (entry frame n).or (env.lookup n) := by
  unfold lookup push
  rw [List.findSome?_cons]
  cases entry frame n <;> rfl

end Scope

mutual

theorem Expr.Replaced.words {env : Scope} : ∀ {e e' : Expr}, e.Replaced env e' →
    ∀ q ∈ e'.words, env.Leaves q
  | .num _ _, _, h => by
    cases h
    exact List.forall_mem_nil _
  | .str _ _, _, h => by
    cases h
    exact List.forall_mem_nil _
  | .bool _ _, _, h => by
    cases h
    exact List.forall_mem_nil _
  | .path p, _, h => by
    rw [Expr.Replaced] at h
    intro q hq
    split at h
    · rename_i b hb
      obtain ⟨n, -, hn⟩ := Option.bind_eq_some_iff.mp hb
      exact Or.inr ⟨n, b, hn, h ▸ hq⟩
    · rename_i hunbound
      rcases h with ⟨p', rfl, hp'⟩ | ⟨n, b, -, hn, rfl⟩
      · have hwritten := hp' q (Option.mem_toList.mp hq)
        rw [hwritten] at hunbound
        exact Or.inl hunbound
      · exact Or.inr ⟨n, b, hn, hq⟩
  | .call _ _ _, _, h => by
    obtain ⟨callee, args', rfl, hargs⟩ := h
    exact AllReplaced.words hargs
  | .unary _ _ _, _, h => by
    obtain ⟨operand', rfl, hoperand⟩ := h
    intro q (hq : q ∈ operand'.words)
    exact Expr.Replaced.words hoperand q hq
  | .binary _ _ _ _, _, h => by
    obtain ⟨lhs', rhs', rfl, hlhs, hrhs⟩ := h
    exact List.forall_mem_append.mpr ⟨Expr.Replaced.words hlhs, Expr.Replaced.words hrhs⟩
  | .list _ _, _, h => by
    obtain ⟨items', rfl, hitems⟩ := h
    exact AllReplaced.words hitems
  | .map _ _, _, h => by
    obtain ⟨entries', rfl, hentries⟩ := h
    exact PropsReplaced.words hentries

theorem AllReplaced.words {env : Scope} : ∀ {es es' : List Expr}, AllReplaced env es es' →
    ∀ q ∈ allWords es', env.Leaves q
  | [], _, h => by
    cases h
    exact List.forall_mem_nil _
  | _ :: _, _, h => by
    obtain ⟨x, xs, rfl, hx, hxs⟩ := h
    exact List.forall_mem_append.mpr ⟨Expr.Replaced.words hx, AllReplaced.words hxs⟩

theorem PropsReplaced.words {env : Scope} : ∀ {ps ps' : List Property}, PropsReplaced env ps ps' →
    ∀ q ∈ propWords ps', env.Leaves q
  | [], _, h => by
    cases h
    exact List.forall_mem_nil _
  | .mk _ _ _ :: _, _, h => by
    obtain ⟨n, x, xs, rfl, hx, hxs⟩ := h
    exact List.forall_mem_append.mpr ⟨Expr.Replaced.words hx, PropsReplaced.words hxs⟩

end

variable {env : Scope} {v : Value}

theorem Stmt.Replaced.words {s s' : Stmt} (h : s.Replaced env s') :
    ∀ q ∈ s'.words, env.Leaves q := by
  cases s with
  | osc d =>
    obtain ⟨n, freq, rfl, hfreq⟩ := h
    intro q (hq : q ∈ freq.words)
    exact hfreq.words q hq
  | space d =>
    obtain ⟨n, ps, rfl, hps⟩ := h
    exact hps.words
  | object d =>
    obtain ⟨n, ps, rfl, hps⟩ := h
    exact hps.words
  | map d =>
    obtain ⟨n, base, size, target, ps, rfl, hbase, hsize, htarget, hps⟩ := h
    exact List.forall_mem_append.mpr ⟨List.forall_mem_append.mpr
      ⟨List.forall_mem_append.mpr ⟨hbase.words, hsize.words⟩, htarget.words⟩, hps.words⟩
  | wire d =>
    obtain ⟨source, sink, ps, rfl, hps⟩ := h
    exact hps.words
  | _ =>
    cases h
    exact List.forall_mem_nil _

/-! ## What a scope leaves -/

/-- Expansion left every word of the frame's values. -/
def Frame.LeftBy (env : Scope) (frame : Frame) : Prop :=
  ∀ b ∈ frame, ∀ q ∈ b.2.expr.words, env.Leaves q

theorem Frame.LeftBy.leaves {frame : Frame} (h : frame.LeftBy env) {q : String}
    (hq : (env.push frame).Leaves q) : env.Leaves q := by
  rcases hq with hq | ⟨n, b, hb, hq⟩
  · rw [Scope.lookup_push, Option.or_eq_none_iff] at hq
    exact Or.inl hq.2
  · rw [Scope.lookup_push, Option.or_eq_some_iff] at hb
    rcases hb with hb | ⟨-, hb⟩
    · exact h (n, b) (mem_of_entry hb) q hq
    · exact Or.inr ⟨n, b, hb, hq⟩

theorem Frame.LeftBy.setEntry {frame : Frame} (h : frame.LeftBy env) {n : String} {b : Binding}
    (hb : ∀ q ∈ b.expr.words, env.Leaves q) : Frame.LeftBy env (setEntry frame n b) := by
  intro e he
  rcases eq_or_mem_of_mem_setEntry he with rfl | he
  · exact hb
  · exact h e he

theorem Instantiates.leftBy {t : Template} {args : List Arg} {frame : Frame}
    (h : Instantiates env t args frame) : frame.LeftBy env := by
  induction h with
  | nothing => exact List.forall_mem_nil _
  | argument _ _ _ replaced ih => exact ih.setEntry replaced.words
  | default _ _ _ _ _ replaced ih =>
    exact ih.setEntry fun q hq => ih.leaves (replaced.words q hq)

theorem intExpr_words (i : Int64) (span : Span) : (intExpr i span).words = [] := by
  unfold intExpr
  split <;> rfl

theorem StandsIn.leaves {templates : List (String × Template)} {stmts : List Stmt} {env' : Scope}
    {stmt : Stmt} (h : StandsIn templates stmts env stmt env') {q : String} (hq : env'.Leaves q) :
    env.Leaves q := by
  induction h with
  | here => exact hq
  | loop value _ _ _ ih =>
    refine Frame.LeftBy.leaves (fun b hb q hq => ?_) (ih hq)
    rw [List.mem_singleton.mp hb] at hq
    cases intExpr_words _ _ ▸ hq
  | template _ _ _ instantiated _ _ ih => exact instantiated.leftBy.leaves (ih hq)

/-! ## What evaluation leaves -/

theorem fromNanos_words {nanos : UInt64} (h : Value.fromNanos nanos = some v) : v.words = [] := by
  unfold Value.fromNanos at h
  split at h
  · cases h
    rfl
  · cases h

theorem numValue_words {lit : NumLit} {span : Span} (h : numValue lit span = .ok v) :
    v.words = [] := by
  unfold numValue at h
  split at h
  · cases h
    rfl
  · split at h
    · rename_i hnanos
      cases h
      exact fromNanos_words hnanos
    · cases h
  · split at h <;>
    · cases h
      rfl

theorem linkTo_words {path : String} {span : Span} (h : linkTo path span = .ok v) :
    v.words = [] := by
  unfold linkTo at h
  split at h
  · cases h
  · split at h
    · cases h
    · cases h
      rfl

theorem Value.words_of_numeric {x : Int} (h : v.numeric = some x) : v.words = [] := by
  cases v <;> first | rfl | cases h

theorem ofRank_words {rank : Nat} {out : Int} {first : Value} {span : Span}
    (h : ofRank rank out first span = .ok v) : v.words = [] := by
  unfold ofRank at h
  split at h
  · split at h
    · cases hi : i64 out with
      | none =>
        rw [hi] at h
        cases h
      | some i =>
        rw [hi] at h
        cases h
        rfl
    · cases hu : u64 out with
      | none =>
        rw [hu] at h
        cases h
      | some u =>
        rw [hu] at h
        cases h
        rfl
  · split at h
    · cases h
    · rename_i n hn
      split at h
      · cases h
        rfl
      · split at h
        · cases h
          rfl
        · cases hnanos : Value.fromNanos n with
          | none =>
            rw [hnanos] at h
            cases h
          | some v' =>
            rw [hnanos] at h
            cases h
            exact fromNanos_words hnanos

theorem arith_words {op : BinOp} {a b : Value} {span : Span} (h : arith op a b span = .ok v) :
    a.words = [] ∧ b.words = [] ∧ v.words = [] := by
  unfold arith at h
  split at h
  · rename_i x y hx hy
    dsimp only at h
    split at h
    · cases h
    · obtain ⟨out, -, h⟩ := ok_of_bind h
      cases out with
      | none => cases h
      | some out => exact ⟨Value.words_of_numeric hx, Value.words_of_numeric hy, ofRank_words h⟩
  · cases h

section Evaluation

variable {table : Table} {scope : String}

theorem path_word {p : Path} {q : String} (h : q ∈ (Expr.path p).words) :
    p.segments.length = 1 ∧ p.asLiteral = some q ∧ (writtenName p).isSome = true := by
  have hwritten : writtenName p = some q := Option.mem_toList.mp h
  have hbare := bareName_of_written hwritten
  refine ⟨?_, ?_, by rw [hwritten]; rfl⟩
  · unfold writtenName at hwritten
    split at hwritten
    · rename_i segment hsegment
      rw [hsegment]
      rfl
    · cases hwritten
  · unfold bareName at hbare
    split at hbare
    · rename_i segment hsegment
      unfold Path.asLiteral
      rw [hsegment, List.mapM_cons, hbare]
      rfl
    · cases hbare

theorem pathValue_words {p : Path} (h : pathValue table p scope = .ok v) :
    ∀ q ∈ v.words, q ∈ (Expr.path p).words := by
  unfold pathValue at h
  split at h
  · cases h
  · rename_i text htext
    split at h
    · split at h
      · rw [linkTo_words h]
        exact List.forall_mem_nil _
      · cases h
        intro q hq
        cases hwritten : writtenName p with
        | none =>
          rw [hwritten] at hq
          cases hq
        | some name =>
          rw [hwritten] at hq
          have hname := (path_word (Option.mem_toList.mpr hwritten)).2.1
          rw [htext] at hname
          cases hname
          exact Option.mem_toList.mpr (hwritten.trans (List.mem_singleton.mp hq ▸ rfl))
    · obtain ⟨r, -, h⟩ := ok_of_bind h
      have hnone : v.words = [] := by
        split at h <;> exact linkTo_words h
      rw [hnone]
      exact List.forall_mem_nil _

theorem mem_pathValue {p : Path} (h : pathValue table p scope = .ok v) {q : String}
    (hq : q ∈ (Expr.path p).words) (hfree : lookup table scope q = none) : q ∈ v.words := by
  obtain ⟨hlength, htext, hwritten⟩ := path_word hq
  unfold pathValue at h
  rw [htext] at h
  dsimp only at h
  rw [if_pos hlength, hfree, hwritten] at h
  cases h
  exact List.mem_singleton.mpr rfl

mutual

theorem value_words : ∀ (e : Expr) {v : Value}, value table scope e = .ok v →
    ∀ q ∈ v.words, q ∈ e.words
  | .num _ _, _, h => by
    rw [value] at h
    rw [numValue_words h]
    exact List.forall_mem_nil _
  | .str _ _, _, h => by
    cases h
    exact List.forall_mem_nil _
  | .bool _ _, _, h => by
    cases h
    exact List.forall_mem_nil _
  | .path p, _, h => by
    rw [value] at h
    exact pathValue_words h
  | .list items _, _, h => by
    rw [value] at h
    obtain ⟨vs, hvs, rfl⟩ := ok_of_map h
    exact values_words items hvs
  | .map entries _, _, h => by
    rw [value] at h
    obtain ⟨r, hr, rfl⟩ := ok_of_map h
    intro q hq
    rcases propsFrom_words entries hr q hq with hq | hq
    · exact absurd hq List.not_mem_nil
    · exact hq
  | .unary .neg operand _, _, h => by
    rw [value] at h
    obtain ⟨v, -, h⟩ := ok_of_bind h
    rw [(arith_words h).2.2]
    exact List.forall_mem_nil _
  | .binary _ lhs rhs _, _, h => by
    rw [value] at h
    obtain ⟨a, -, h⟩ := ok_of_bind h
    obtain ⟨b, -, h⟩ := ok_of_bind h
    rw [(arith_words h).2.2]
    exact List.forall_mem_nil _
  | .call _ _ _, _, h => by cases h

theorem values_words : ∀ (es : List Expr) {vs : List Value}, values table scope es = .ok vs →
    ∀ q ∈ listWords vs, q ∈ allWords es
  | [], _, h => by
    cases h
    exact List.forall_mem_nil _
  | e :: es, _, h => by
    rw [values] at h
    obtain ⟨v, hv, h⟩ := ok_of_bind h
    obtain ⟨vs, hvs, rfl⟩ := ok_of_map h
    exact List.forall_mem_append.mpr ⟨fun q hq => List.mem_append_left _ (value_words e hv q hq),
      fun q hq => List.mem_append_right _ (values_words es hvs q hq)⟩

theorem propsFrom_words : ∀ (ps : List Property) {out : Props} {spans : PropSpans}
    {r : Props × PropSpans}, propsFrom table scope ps out spans = .ok r →
    ∀ q ∈ entryWords r.1, q ∈ entryWords out ∨ q ∈ propWords ps
  | [], _, _, _, h => by
    cases h
    exact fun q hq => Or.inl hq
  | .mk n e span :: ps, out, spans, r, h => by
    rw [propsFrom] at h
    split at h
    · cases h
    · obtain ⟨v, hv, h⟩ := ok_of_bind h
      intro q hq
      rcases propsFrom_words ps h q hq with hq | hq
      · obtain ⟨b, hb, hq⟩ := mem_entryWords.mp hq
        rcases eq_or_mem_of_mem_setEntry hb with rfl | hb
        · exact Or.inr (List.mem_append_left _ (value_words e hv q hq))
        · exact Or.inl (mem_entryWords.mpr ⟨b, hb, hq⟩)
      · exact Or.inr (List.mem_append_right _ hq)

end

theorem entryWords_setEntry_new {out : Props} {name : String} (v : Value)
    (h : entry out name = none) : entryWords (setEntry out name v) = entryWords out ++ v.words := by
  rw [setEntry_new v h]
  clear h
  induction out with
  | nil => exact List.append_nil _
  | cons e es ih =>
    rw [List.cons_append, entryWords, ih, entryWords, List.append_assoc]

mutual

theorem mem_value {q : String} (hfree : lookup table scope q = none) : ∀ (e : Expr) {v : Value},
    value table scope e = .ok v → q ∈ e.words → q ∈ v.words
  | .num _ _, _, _, hq => absurd hq List.not_mem_nil
  | .str _ _, _, _, hq => absurd hq List.not_mem_nil
  | .bool _ _, _, _, hq => absurd hq List.not_mem_nil
  | .path p, _, h, hq => by
    rw [value] at h
    exact mem_pathValue h hq hfree
  | .list items _, _, h, hq => by
    rw [value] at h
    obtain ⟨vs, hvs, rfl⟩ := ok_of_map h
    exact mem_values hfree items hvs hq
  | .map entries _, _, h, hq => by
    rw [value] at h
    obtain ⟨r, hr, rfl⟩ := ok_of_map h
    exact mem_propsFrom hfree entries hr (fun _ _ => rfl) (Or.inr hq)
  | .unary .neg operand _, _, h, hq => by
    rw [value] at h
    obtain ⟨v, hv, h⟩ := ok_of_bind h
    have hwords := mem_value hfree operand hv hq
    rw [(arith_words h).2.1] at hwords
    exact absurd hwords List.not_mem_nil
  | .binary _ lhs rhs _, _, h, hq => by
    rw [value] at h
    obtain ⟨a, ha, h⟩ := ok_of_bind h
    obtain ⟨b, hb, h⟩ := ok_of_bind h
    rcases List.mem_append.mp hq with hq | hq
    · have hwords := mem_value hfree lhs ha hq
      rw [(arith_words h).1] at hwords
      exact absurd hwords List.not_mem_nil
    · have hwords := mem_value hfree rhs hb hq
      rw [(arith_words h).2.1] at hwords
      exact absurd hwords List.not_mem_nil
  | .call _ _ _, _, h, _ => by cases h

theorem mem_values {q : String} (hfree : lookup table scope q = none) : ∀ (es : List Expr)
    {vs : List Value}, values table scope es = .ok vs → q ∈ allWords es → q ∈ listWords vs
  | [], _, _, hq => absurd hq List.not_mem_nil
  | e :: es, _, h, hq => by
    rw [values] at h
    obtain ⟨v, hv, h⟩ := ok_of_bind h
    obtain ⟨vs, hvs, rfl⟩ := ok_of_map h
    rcases List.mem_append.mp hq with hq | hq
    · exact List.mem_append_left _ (mem_value hfree e hv hq)
    · exact List.mem_append_right _ (mem_values hfree es hvs hq)

theorem mem_propsFrom {q : String} (hfree : lookup table scope q = none) : ∀ (ps : List Property)
    {out : Props} {spans : PropSpans} {r : Props × PropSpans},
    propsFrom table scope ps out spans = .ok r →
    (∀ name, entry spans name = none → entry out name = none) →
    q ∈ entryWords out ∨ q ∈ propWords ps → q ∈ entryWords r.1
  | [], _, _, _, h, _, hq => by
    cases h
    exact hq.resolve_right List.not_mem_nil
  | .mk n e span :: ps, out, spans, r, h, hkeys, hq => by
    rw [propsFrom] at h
    split at h
    · cases h
    · rename_i hnew
      obtain ⟨v, hv, h⟩ := ok_of_bind h
      refine mem_propsFrom hfree ps h (fun name hname => ?_) ?_
      · obtain ⟨hspans, hne⟩ := entry_setEntry_none hname
        rw [entry_eq_none_iff]
        intro b hb
        rcases eq_or_mem_of_mem_setEntry hb with rfl | hb
        · exact hne.symm
        · exact entry_eq_none_iff.mp (hkeys name hspans) b hb
      · rw [entryWords_setEntry_new v (hkeys _ hnew), List.mem_append]
        rw [propWords, List.mem_append] at hq
        rcases hq with hq | hq | hq
        · exact Or.inl (Or.inl hq)
        · exact Or.inl (Or.inr (mem_value hfree e hv hq))
        · exact Or.inr hq

end

theorem props_words {ps : List Property} {r : Props × PropSpans}
    (h : props table scope ps = .ok r) : ∀ q ∈ entryWords r.1, q ∈ propWords ps :=
  fun q hq => (propsFrom_words ps h q hq).resolve_left List.not_mem_nil

end Evaluation

/-! ## Parameters -/

def Stmt.param? : Stmt → Option ParamDecl
  | .param p => some p
  | _ => none

def ParamDecl.key (p : ParamDecl) : String := p.name.asLiteral.getD ""

section Parameters

variable {sc : Scalars} {o : Options}

theorem declaredParams_eq : ∀ (stmts : List Stmt) {decls r : List (String × ParamDecl)},
    declaredParams stmts decls = .ok r → (decls.map Prod.fst).Nodup →
    r = decls ++ (stmts.filterMap Stmt.param?).map (fun p => (p.key, p)) ∧
      (r.map Prod.fst).Nodup
  | [], decls, r, h, hnodup => by
    cases h
    exact ⟨(List.append_nil _).symm, hnodup⟩
  | stmt :: stmts, decls, r, h, hnodup => by
    cases stmt with
    | param p =>
      rw [declaredParams] at h
      obtain ⟨name, hname, h⟩ := ok_of_bind h
      split at h
      · cases h
      · rename_i hnew
        have hkey : p.key = name := by
          rw [ParamDecl.key, literalName_ok hname, Option.getD_some]
        obtain ⟨rfl, hr⟩ := declaredParams_eq stmts h (by
          rw [List.map_append]
          refine List.Nodup.append hnodup (List.nodup_singleton name) ?_
          intro n hn hn'
          obtain ⟨d, hd, rfl⟩ := List.mem_map.mp hn
          exact entry_eq_none_iff.mp hnew d hd (List.mem_singleton.mp hn'))
        refine ⟨?_, hr⟩
        rw [List.append_assoc, ← hkey]
        rfl
    | _ => exact declaredParams_eq stmts h hnodup

theorem bindParams_eq : ∀ (decls : List (String × ParamDecl)) {params r : Frame},
    bindParams sc o decls params = .ok r → (params.map Prod.fst ++ decls.map Prod.fst).Nodup →
    ∃ bound : Frame, r = params ++ bound ∧ List.Forall₂
      (fun d b => b.1 = d.1 ∧ paramExpr sc o d.1 d.2 = .ok b.2.expr) decls bound
  | [], params, r, h, _ => by
    cases h
    exact ⟨[], (List.append_nil _).symm, .nil⟩
  | (name, decl) :: decls, params, r, h, hnodup => by
    rw [bindParams] at h
    obtain ⟨e, he, h⟩ := ok_of_bind h
    have hnew : entry params name = none := by
      rw [entry_eq_none_iff]
      intro b hb hname
      exact (List.disjoint_of_nodup_append hnodup) (List.mem_map.mpr ⟨b, hb, hname⟩)
        List.mem_cons_self
    rw [setEntry_new _ hnew] at h
    obtain ⟨bound, rfl, hbound⟩ := bindParams_eq decls h (by
      rw [List.map_append, List.append_assoc]
      exact hnodup)
    exact ⟨(name, bindExpr e decl.name.span) :: bound, List.append_assoc _ _ _,
      .cons ⟨rfl, he⟩ hbound⟩

theorem keys_eq {decls : List ParamDecl} {params : Frame}
    (h : List.Forall₂ (fun p b => b.1 = p.key ∧ paramExpr sc o p.key p = .ok b.2.expr)
      decls params) : params.map Prod.fst = decls.map ParamDecl.key := by
  induction h with
  | nil => rfl
  | cons hhead _ ih => rw [List.map_cons, List.map_cons, hhead.1, ih]

theorem collectParams_spec {file machine : List Stmt} {params : Frame}
    (h : collectParams sc o file machine = .ok params) :
    List.Forall₂ (fun p b => b.1 = p.key ∧ paramExpr sc o p.key p = .ok b.2.expr)
        ((file ++ machine).filterMap Stmt.param?) params ∧
      (params.map Prod.fst).Nodup := by
  obtain ⟨decls, hdecls, h⟩ := ok_of_bind h
  obtain ⟨-, -, h⟩ := ok_of_bind h
  obtain ⟨-, -, h⟩ := ok_of_bind h
  obtain ⟨params', hparams, h⟩ := ok_of_bind h
  split at h
  · cases h
  · cases h
    obtain ⟨rfl, hnodup⟩ := declaredParams_eq _ hdecls List.nodup_nil
    obtain ⟨bound, rfl, hbound⟩ := bindParams_eq _ hparams hnodup
    rw [List.nil_append, List.forall₂_map_left_iff] at hbound
    rw [List.nil_append, List.map_map] at hnodup
    exact ⟨hbound, (keys_eq hbound) ▸ hnodup⟩

theorem mem_right_of_forall₂ {α β : Type} {R : α → β → Prop} {xs : List α} {ys : List β}
    (h : List.Forall₂ R xs ys) : ∀ x ∈ xs, ∃ y ∈ ys, R x y := by
  induction h with
  | nil => exact List.forall_mem_nil _
  | cons hhead _ ih =>
    refine List.forall_mem_cons.mpr ⟨⟨_, List.mem_cons_self, hhead⟩, fun x hx => ?_⟩
    obtain ⟨y, hy, hxy⟩ := ih x hx
    exact ⟨y, List.mem_cons_of_mem _ hy, hxy⟩

theorem valueExpr_words {span : Span} {e : Expr} (h : valueExpr v span = some e) :
    e.words = [] := by
  unfold valueExpr at h
  cases v with
  | int i =>
    dsimp only at h
    split at h <;>
    · cases h
      rfl
  | duration picos =>
    dsimp only at h
    split at h
    · cases h
    · cases h
      rfl
  | list items => cases h
  | map entries => cases h
  | link path => cases h
  | media name => cases h
  | _ =>
    cases h
    rfl

theorem paramExpr_words {p : ParamDecl} {e : Expr} (h : paramExpr sc o p.key p = .ok e) :
    (e.words = [] ∧ ∃ x ∈ o.params, x.1 = p.key) ∨
      (∀ x ∈ o.params, x.1 ≠ p.key) ∧ p.default = some e := by
  unfold paramExpr at h
  split at h
  · rename_i text htext
    refine Or.inl ⟨?_, ?_⟩
    · split at h
      · rename_i e' he
        cases h
        exact valueExpr_words he
      · cases h
    · obtain ⟨x, hx, -⟩ := Option.map_eq_some_iff.mp htext
      refine ⟨x, List.mem_reverse.mp (List.mem_of_find?_eq_some hx), ?_⟩
      simpa using List.find?_some hx
  · rename_i hnone
    refine Or.inr ⟨fun x hx => ?_, ?_⟩
    · rw [Option.map_eq_none_iff, List.find?_eq_none] at hnone
      simpa using hnone x (List.mem_reverse.mpr hx)
    · split at h
      · rename_i e' he
        cases h
        exact he
      · cases h

/-- No default of a parameter that is left at it mentions a parameter. -/
def DefaultsClosed (o : Options) (decls : List ParamDecl) : Prop :=
  ∀ p ∈ decls, (∀ x ∈ o.params, x.1 ≠ p.key) → ∀ e, p.default = some e →
    ∀ q ∈ decls, q.key ∉ e.words

theorem defaultsClosed_iff {decls : List ParamDecl} {params : Frame}
    (h : List.Forall₂ (fun p b => b.1 = p.key ∧ paramExpr sc o p.key p = .ok b.2.expr)
      decls params) :
    DefaultsClosed o decls ↔ ∀ b ∈ params, ∀ q ∈ decls, q.key ∉ b.2.expr.words := by
  constructor
  · intro hclosed b hb q hq
    obtain ⟨p, hp, -, he⟩ := mem_right_of_forall₂ h.flip b hb
    rcases paramExpr_words he with ⟨hwords, -⟩ | ⟨hleft, hdefault⟩
    · rw [hwords]
      exact List.not_mem_nil
    · exact hclosed p hp hleft _ hdefault q hq
  · intro hparams p hp hleft e hdefault q hq
    obtain ⟨b, hb, -, he⟩ := mem_right_of_forall₂ h p hp
    rcases paramExpr_words he with ⟨-, x, hx, hname⟩ | ⟨-, hdefault'⟩
    · exact absurd hname (hleft x hx)
    · rw [hdefault] at hdefault'
      cases hdefault'
      exact hparams b hb q hq

end Parameters

/-! ## Names and declarations -/

theorem buildTables_spec {params : Frame} : ∀ (stmts : List Scoped) {c : Counters}
    {table r : Table}, buildTables params stmts c table = .ok r →
    ∀ d ∈ r, d ∈ table ∨ ∃ s ∈ stmts, ∃ name, d.1 = s.scope ++ name ∧ entry params name = none
  | [], _, _, _, h => by
    cases h
    exact fun d hd => Or.inl hd
  | ⟨scope, stmt⟩ :: stmts, c, table, r, h => by
    have hlater : ∀ {d : String × Decl × Span}, (∃ s ∈ stmts, ∃ name, d.1 = s.scope ++ name ∧
        entry params name = none) → ∃ s ∈ (⟨scope, stmt⟩ : Scoped) :: stmts, ∃ name,
          d.1 = s.scope ++ name ∧ entry params name = none := by
      intro d h
      obtain ⟨s, hs, hname⟩ := h
      exact ⟨s, List.mem_cons_of_mem _ hs, hname⟩
    rw [buildTables] at h
    split at h
    · exact fun d hd => (buildTables_spec stmts h d hd).imp_right hlater
    · rename_i n decl c' _
      dsimp only at h
      split at h
      · cases h
      · rename_i hfree
        split at h
        · cases h
        · intro d hd
          rcases buildTables_spec stmts h d hd with hd | hd
          · rcases List.mem_append.mp hd with hd | hd
            · exact Or.inl hd
            · rw [List.mem_singleton.mp hd]
              exact Or.inr ⟨_, List.mem_cons_self, _, rfl, hfree⟩
          · exact Or.inr (hlater hd)

theorem lookup_param {params : Frame} {stmts : List Scoped} {table : Table}
    (h : buildTables params stmts ⟨0, 0, 0⟩ [] = .ok table)
    (hscopes : ∀ s ∈ stmts, Namespace s.scope) {q : String} (hdot : '.' ∉ q.toList)
    (hq : entry params q ≠ none) : lookup table "" q = none := by
  have hnone : entry table q = none := by
    rw [entry_eq_none_iff]
    intro d hd hname
    rcases buildTables_spec stmts h d hd with hd | ⟨s, hs, name, hfull, hfree⟩
    · cases hd
    · rw [hfull] at hname
      rcases hscopes s hs with hscope | hscope
      · rw [hscope, String.empty_append] at hname
        exact hq (hname ▸ hfree)
      · apply hdot
        rw [← hname, String.toList_append]
        exact List.mem_append_left _ hscope
  have hscopes : scopes "" = [""] := rfl
  unfold lookup
  rw [hscopes, List.findSome?_cons, String.empty_append, hnone]
  rfl

/-! ## Whole machines -/

def Resolved.bags (m : Resolved) : List Props :=
  m.params :: (m.spaces.map Space.props ++ m.objects.map Object.props ++ m.maps.map Mapping.props ++
    m.wires.map Wire.props)

section Machines

variable {sc : Scalars} {table : Table}

theorem mem_propWords {q : String} : ∀ {ps : List Property},
    q ∈ propWords ps ↔ ∃ p ∈ ps, q ∈ p.value.words
  | [] => by simp [propWords]
  | p :: ps => by rw [propWords_cons, List.mem_append, mem_propWords, List.exists_mem_cons_iff]

theorem object_words {d : ObjectDecl} {scope : String} {x : Object}
    (h : object table d scope = .ok x) : ∀ q ∈ entryWords x.props, q ∈ propWords d.props := by
  obtain ⟨l, hl, h⟩ := ok_of_bind h
  obtain ⟨r, hr, rfl⟩ := ok_of_map h
  intro q hq
  obtain ⟨p, hp, hqp⟩ := mem_propWords.mp (props_words hr q hq)
  rw [(liftStructural_spec d.props hl).1, List.nil_append] at hp
  exact mem_propWords.mpr ⟨p, (List.mem_filter.mp hp).1, hqp⟩

theorem mapping_words {d : MapStmt} {scope : String} {x : Mapping}
    (h : mapping sc table d scope = .ok x) : ∀ q ∈ entryWords x.props, q ∈ propWords d.props := by
  obtain ⟨space, -, h⟩ := ok_of_bind h
  obtain ⟨base, -, h⟩ := ok_of_bind h
  obtain ⟨baseAddr, -, h⟩ := ok_of_bind h
  obtain ⟨size, -, h⟩ := ok_of_bind h
  obtain ⟨bytes, -, h⟩ := ok_of_bind h
  split at h
  · cases h
  · split at h
    · cases h
    · obtain ⟨target, -, h⟩ := ok_of_bind h
      obtain ⟨r, hr, rfl⟩ := ok_of_map h
      exact props_words hr

theorem wire_words {d : WireStmt} {scope : String} {x : Wire} (h : wire table d scope = .ok x) :
    ∀ q ∈ entryWords x.props, q ∈ propWords d.props := by
  obtain ⟨r, hr, h⟩ := ok_of_bind h
  obtain ⟨source, -, h⟩ := ok_of_bind h
  obtain ⟨sink, -, rfl⟩ := ok_of_map h
  exact props_words hr

theorem paramValues_words : ∀ {params : Frame} {out r : Props},
    paramValues table params out = .ok r → ∀ q ∈ entryWords r,
      q ∈ entryWords out ∨ ∃ b ∈ params, q ∈ b.2.expr.words
  | [], _, _, h => by
    cases h
    exact fun q hq => Or.inl hq
  | (name, binding) :: params, out, r, h => by
    rw [paramValues] at h
    obtain ⟨v, hv, h⟩ := ok_of_bind h
    intro q hq
    rcases paramValues_words h q hq with hq | ⟨b, hb, hq⟩
    · obtain ⟨e, he, hq⟩ := mem_entryWords.mp hq
      rcases eq_or_mem_of_mem_setEntry he with rfl | he
      · exact Or.inr ⟨_, List.mem_cons_self, value_words _ hv q hq⟩
      · exact Or.inl (mem_entryWords.mpr ⟨e, he, hq⟩)
    · exact Or.inr ⟨b, List.mem_cons_of_mem _ hb, hq⟩

theorem mem_paramValues {q : String} (hfree : lookup table "" q = none) :
    ∀ {params : Frame} {out r : Props}, paramValues table params out = .ok r →
    (params.map Prod.fst).Nodup → (∀ b ∈ params, entry out b.1 = none) →
    (q ∈ entryWords out ∨ ∃ b ∈ params, q ∈ b.2.expr.words) → q ∈ entryWords r
  | [], _, _, h, _, _, hq => by
    cases h
    rcases hq with hq | ⟨b, hb, -⟩
    · exact hq
    · exact absurd hb List.not_mem_nil
  | (name, binding) :: params, out, r, h, hnodup, hnew, hq => by
    rw [paramValues] at h
    obtain ⟨v, hv, h⟩ := ok_of_bind h
    rw [List.map_cons, List.nodup_cons] at hnodup
    obtain ⟨hname, hlater⟩ := List.forall_mem_cons.mp hnew
    refine mem_paramValues hfree h hnodup.2 (fun b hb => ?_) ?_
    · rw [entry_eq_none_iff]
      intro e he
      rcases eq_or_mem_of_mem_setEntry he with rfl | he
      · exact fun heq => hnodup.1 (List.mem_map.mpr ⟨b, hb, heq.symm⟩)
      · exact entry_eq_none_iff.mp (hlater b hb) e he
    · rw [entryWords_setEntry_new v hname, List.mem_append]
      rcases hq with hq | ⟨b, hb, hq⟩
      · exact Or.inl (Or.inl hq)
      · rcases List.mem_cons.mp hb with rfl | hb
        · exact Or.inl (Or.inr (mem_value hfree _ hv hq))
        · exact Or.inr ⟨b, hb, hq⟩

/-- A machine whose parameters are these, and whose other words are all accounted for. -/
structure Carried (values : Props) (known : String → Prop) (m : Resolved) : Prop where
  params : m.params = values
  spaces : ∀ x ∈ m.spaces, ∀ q ∈ entryWords x.props, known q
  objects : ∀ x ∈ m.objects, ∀ q ∈ entryWords x.props, known q
  maps : ∀ x ∈ m.maps, ∀ q ∈ entryWords x.props, known q
  wires : ∀ x ∈ m.wires, ∀ q ∈ entryWords x.props, known q

theorem threading_carried {values : Props} {known : String → Prop} {t : ThreadingStmt}
    {m m' : Resolved} (hm : Carried values known m) (h : threading t m = .ok m') :
    Carried values known m' := by
  unfold threading at h
  dsimp only at h
  split at h
  iterate 2
    · split at h
      · split at h
        · cases h
        · cases h
          exact { hm with }
      · cases h
        exact { hm with }
  · cases h
  · cases h

theorem finish_carried {params : Frame} {d : MachineDecl} {stmts : List Scoped} {m : Resolved}
    (h : finish sc table params d stmts = .ok m) :
    ∃ values, paramValues table params [] = .ok values ∧
      Carried values (fun q => ∃ s ∈ stmts, q ∈ s.stmt.words) m := by
  obtain ⟨values, hvalues, h⟩ := ok_of_bind h
  obtain ⟨out₁, hdecls, h⟩ := ok_of_bind h
  obtain ⟨out₂, hobjects, h⟩ := ok_of_bind h
  obtain ⟨out₃, hlinks, h⟩ := ok_of_bind h
  obtain ⟨-, -, rfl⟩ := ok_of_map h
  refine ⟨values, hvalues, ?_⟩
  have hstart := foldlM_invariant (Carried values fun q => ∃ s ∈ stmts, q ∈ s.stmt.words) hdecls
    ⟨rfl, List.forall_mem_nil _, List.forall_mem_nil _, List.forall_mem_nil _,
      List.forall_mem_nil _⟩ ?_
  · have hmiddle := foldlM_invariant _ hobjects hstart ?_
    · refine foldlM_invariant _ hlinks hmiddle ?_
      intro s hs c c' hc hstep
      obtain ⟨scope, stmt⟩ := s
      cases stmt with
      | map d =>
        obtain ⟨x, hx, rfl⟩ := ok_of_map hstep
        have hnew := fun q hq => (⟨_, hs, List.mem_append_right _ (mapping_words hx q hq)⟩ :
          ∃ s ∈ stmts, q ∈ s.stmt.words)
        exact { hc with
          maps := List.forall_mem_append.mpr ⟨hc.maps, List.forall_mem_singleton.mpr hnew⟩ }
      | wire d =>
        obtain ⟨x, hx, rfl⟩ := ok_of_map hstep
        have hnew := fun q hq => (⟨_, hs, wire_words hx q hq⟩ :
          ∃ s ∈ stmts, q ∈ s.stmt.words)
        exact { hc with
          wires := List.forall_mem_append.mpr ⟨hc.wires, List.forall_mem_singleton.mpr hnew⟩ }
      | threading t => exact threading_carried hc hstep
      | _ =>
        cases hstep
        exact hc
    · intro s hs c c' hc hstep
      obtain ⟨scope, stmt⟩ := s
      cases stmt with
      | object d =>
        obtain ⟨x, hx, rfl⟩ := ok_of_map hstep
        have hnew := fun q hq => (⟨_, hs, object_words hx q hq⟩ :
          ∃ s ∈ stmts, q ∈ s.stmt.words)
        exact { hc with
          objects := List.forall_mem_append.mpr
            ⟨hc.objects, List.forall_mem_singleton.mpr hnew⟩ }
      | _ =>
        cases hstep
        exact hc
  · intro s hs c c' hc hstep
    obtain ⟨scope, stmt⟩ := s
    cases stmt with
    | osc d =>
      obtain ⟨x, hx, rfl⟩ := ok_of_map hstep
      exact { hc with }
    | space d =>
      obtain ⟨x, hx, rfl⟩ := ok_of_map hstep
      obtain ⟨r, hr, rfl⟩ := ok_of_map hx
      have hnew := fun q hq => (⟨_, hs, props_words hr q hq⟩ :
        ∃ s ∈ stmts, q ∈ s.stmt.words)
      exact { hc with
        spaces := List.forall_mem_append.mpr ⟨hc.spaces, List.forall_mem_singleton.mpr hnew⟩ }
    | _ =>
      cases hstep
      exact hc

theorem expandFile_spec {o : Options} {stmts : List Stmt} {x : Expanded}
    (h : expandFile sc o stmts = .ok x) :
    ∃ chosen templates, selectMachine o stmts = .ok chosen ∧
      ((collectTemplates stmts []).bind (collectTemplates chosen.1.body)) = .ok templates ∧
      collectParams sc o stmts chosen.1.body = .ok x.params ∧
      Lexical templates chosen.2 ⟨[], x.params⟩ x.stmts := by
  obtain ⟨chosen, hchosen, h⟩ := ok_of_bind h
  obtain ⟨shared, hshared, h⟩ := ok_of_bind h
  obtain ⟨templates, htemplates, h⟩ := ok_of_bind h
  obtain ⟨params, hparams, h⟩ := ok_of_bind h
  obtain ⟨expanded, hexpanded, rfl⟩ := ok_of_map h
  refine ⟨chosen, templates, hchosen, ?_, hparams, ?_⟩
  · rw [hshared]
    exact htemplates
  · exact expand_lexical o (o.maxDepth + 1) chosen.2 "" ⟨[], params⟩ [] (Or.inl rfl) ⟨0, 0⟩ expanded
      _ (Prod.ext hexpanded rfl)

end Machines

/-! ## Bindings win -/

def declaredIn (o : Options) (stmts : List Stmt) : List ParamDecl :=
  match selectMachine o stmts with
  | .ok chosen => (stmts ++ chosen.1.body).filterMap Stmt.param?
  | .error _ => []

/-- What the rule that a binding wins promises of a machine. -/
structure BindingsWin (sc : Scalars) (o : Options) (stmts : List Stmt) (m : Resolved) : Prop where
  /-- Where a declaration stands, what is bound there is replaced. -/
  lexical : ∃ chosen templates x, selectMachine o stmts = .ok chosen ∧
    ((collectTemplates stmts []).bind (collectTemplates chosen.1.body)) = .ok templates ∧
    expandFile sc o stmts = .ok x ∧ ∀ s ∈ x.stmts, ∃ decl env,
      StandsIn templates chosen.2 ⟨[], x.params⟩ decl env ∧ decl.Replaced env s.stmt
  /-- So it is in a default that a parameter is left at. -/
  defaults : ∃ x, expandFile sc o stmts = .ok x ∧ ∀ p ∈ declaredIn o stmts,
    (∀ y ∈ o.params, y.1 ≠ p.key) → ∀ e, p.default = some e →
      ∃ b ∈ x.params, b.1 = p.key ∧ e.Replaced ⟨[], x.params⟩ b.2.expr
  /-- No value is a string that was written as a parameter's name. -/
  values : ∀ p ∈ declaredIn o stmts, ∀ bag ∈ m.bags, p.key ∉ entryWords bag

mutual

theorem Expr.Replaced.self : ∀ {e : Expr}, (∀ q ∈ e.words, env.lookup q = none) →
    e.Replaced env e
  | .num _ _, _ => rfl
  | .str _ _, _ => rfl
  | .bool _ _, _ => rfl
  | .path p, h => by
    rw [Expr.Replaced]
    cases hwritten : writtenName p with
    | none => exact Or.inl ⟨p, rfl, fun q hq => hwritten ▸ hq⟩
    | some q =>
      rw [Option.bind_some, h q (Option.mem_toList.mpr hwritten)]
      exact Or.inl ⟨p, rfl, fun q hq => hwritten ▸ hq⟩
  | .call callee args _, h => ⟨callee, args, rfl, AllReplaced.self h⟩
  | .unary _ operand _, h => ⟨operand, rfl, Expr.Replaced.self (e := operand) h⟩
  | .binary _ lhs rhs _, h =>
    ⟨lhs, rhs, rfl, Expr.Replaced.self fun q hq => h q (List.mem_append_left _ hq),
      Expr.Replaced.self fun q hq => h q (List.mem_append_right _ hq)⟩
  | .list items _, h => ⟨items, rfl, AllReplaced.self h⟩
  | .map entries _, h => ⟨entries, rfl, PropsReplaced.self h⟩

theorem AllReplaced.self : ∀ {es : List Expr},
    (∀ q ∈ allWords es, env.lookup q = none) → AllReplaced env es es
  | [], _ => rfl
  | e :: es, h => ⟨e, es, rfl, Expr.Replaced.self fun q hq => h q (List.mem_append_left _ hq),
      AllReplaced.self fun q hq => h q (List.mem_append_right _ hq)⟩

theorem PropsReplaced.self : ∀ {ps : List Property},
    (∀ q ∈ propWords ps, env.lookup q = none) → PropsReplaced env ps ps
  | [], _ => rfl
  | .mk n value _ :: ps, h =>
    ⟨n, value, ps, rfl, Expr.Replaced.self fun q hq => h q (List.mem_append_left _ hq),
      PropsReplaced.self fun q hq => h q (List.mem_append_right _ hq)⟩

end

theorem lookup_params (params : Frame) (q : String) :
    (⟨[], params⟩ : Scope).lookup q = entry params q := rfl

/-- A machine with a parameter, and a processor with a property that is set to it. -/
def paramUsed : List Stmt :=
  let a : ParamDecl := ⟨plainName "a", some (literal 1 .none (.point 0)), .point 0⟩
  let cpu : ObjectDecl :=
    { name := plainName "cpu", className := "mos6502", classSpan := .point 0,
      props := [.mk (plainName "speed") (plainPath "a") (.point 0)], span := .point 0 }
  [.machine "m" (.point 0) [.param a, .object cpu] (.point 0)]

def paramAlias : List Stmt :=
  let a : ParamDecl := ⟨plainName "a", some (literal 1 .none (.point 0)), .point 0⟩
  let b : ParamDecl := ⟨plainName "b", some (plainPath "a"), .point 0⟩
  [.machine "m" (.point 0) [.param a, .param b] (.point 0)]

theorem declaredIn_paramAlias :
    (declaredIn .default paramAlias).map ParamDecl.key = ["a", "b"] := by decide +kernel

end Rsemu.Machine
