import Rsemu.Base.Search
import Rsemu.Machine.Distinct

/-!
# The checks on the machine graph

Two relations of a resolved machine must not go round in circles. A wire into a combinational
device passes the level on with no state of its own, so a loop of such wires has no order to
announce levels in. A clock domain descends from its parent, so following the parents has to
end at an oscillator.

`realizeOrder` searches the first graph and sorts the wires by the rank the search gives their
sources; `checkClockCycles` walks the second from every object. Each refuses exactly the
machines with a loop (`realizeOrder_spec`, `check_clock_cycles_iff`).
-/

namespace Rsemu.Machine

open Fallible Relation

/-! ## Wires -/

/-- What the resolver asks of a class. -/
structure ClassSchema where
  combinational : Bool

/-- The registry. -/
abbrev Classes := String → Option ClassSchema

def isCombinational (class_ : String) (classes : Classes) : Bool :=
  match classes class_ with
  | some schema => schema.combinational
  -- the standard combinators, without the edge detector
  | none =>
    class_ == "wire.split" || class_ == "wire.or" || class_ == "wire.and" || class_ == "wire.not"

def conducts (m : Resolved) (classes : Classes) (i : Nat) : Bool :=
  match m.objects[i]? with
  | some o => isCombinational o.className classes
  | none => false

def wiresFrom (m : Resolved) (classes : Classes) (node : Nat) : List (Nat × Nat) :=
  m.wires.zipIdx.filterMap fun w =>
    if w.1.source.object = node ∧ w.1.source.object < m.objects.length ∧
        w.1.sink.object < m.objects.length ∧ conducts m classes w.1.sink.object = true then
      some (w.1.sink.object, w.2)
    else none

/-- "`a` → `b` → `a`", naming every device in the loop. -/
def cycleDiagnostic (m : Resolved) (b : Search.Back Nat) : Diagnostic :=
  let nameOf (i : Nat) : String := ((m.objects[i]?).map Object.name).getD ""
  let path := (b.stack.map Prod.fst).reverse
  let path := if path.getLast? ≠ some b.node then path ++ [b.node] else path
  let names := (path.drop (path.idxOf b.to_)).map fun i => s!"`{nameOf i}` → "
  let first := nameOf b.to_
  ⟨((m.wires[b.label]?).map Wire.span).getD m.span,
    s!"wire cycle through combinational devices: {String.join names}`{first}`; one device in a " ++
      "wire loop must hold state, or the realize sweep has no order to announce levels in", none⟩

def wireRank (m : Resolved) (rank : Nat → Nat) (i : Nat) : Nat :=
  match m.wires[i]? with
  | some w => if w.source.object < m.objects.length then rank w.source.object else 0
  | none => 0

def announcedBy (m : Resolved) (rank : Nat → Nat) (i j : Nat) : Bool :=
  decide (wireRank m rank j < wireRank m rank i) ||
    (wireRank m rank i == wireRank m rank j && decide (i ≤ j))

/-- The order to announce levels in. -/
def realizeOrder (m : Resolved) (classes : Classes) : Option (Except Diagnostic (List Nat)) :=
  let edges := wiresFrom m classes
  (Search.search edges (Search.size edges m.objects.length + 1) m.objects.length).map fun r =>
    match r with
    | .error b => .error (cycleDiagnostic m b)
    | .ok v => .ok ((List.range m.wires.length).mergeSort (announcedBy m v.rank))

/-- A wire from one combinational device to another. -/
def Conducts (m : Resolved) (classes : Classes) (a b : Nat) : Prop :=
  ∃ w ∈ m.wires, w.source.object = a ∧ w.sink.object = b ∧ conducts m classes a = true ∧
    conducts m classes b = true

/-- **A directed cycle of wires through combinational devices only.** -/
def WireCycle (m : Resolved) (classes : Classes) : Prop :=
  ∃ n, TransGen (Conducts m classes) n n

/-- Every wire starts at an object of the machine. -/
def Resolved.Sourced (m : Resolved) : Prop := ∀ w ∈ m.wires, w.source.object < m.objects.length

section Wires

variable {m : Resolved} {classes : Classes}

theorem lt_of_conducts {i : Nat} (h : conducts m classes i = true) : i < m.objects.length := by
  unfold conducts at h
  split at h
  · rename_i o ho
    exact (List.getElem?_eq_some_iff.mp ho).1
  · cases h

theorem mem_wiresFrom {node to_ i : Nat} :
    (to_, i) ∈ wiresFrom m classes node ↔ ∃ w, m.wires[i]? = some w ∧ w.source.object = node ∧
      node < m.objects.length ∧ w.sink.object = to_ ∧ conducts m classes to_ = true := by
  unfold wiresFrom
  rw [List.mem_filterMap]
  constructor
  · rintro ⟨⟨w, j⟩, hw, hif⟩
    split at hif
    · rename_i h
      cases hif
      obtain ⟨hsource, hfrom, -, hconducts⟩ := h
      exact ⟨w, List.mem_zipIdx_iff_getElem?.mp hw, hsource, hsource ▸ hfrom, rfl, hconducts⟩
    · cases hif
  · rintro ⟨w, hw, rfl, hfrom, rfl, hconducts⟩
    refine ⟨(w, i), List.mem_zipIdx_iff_getElem?.mpr hw, ?_⟩
    exact if_pos ⟨rfl, hfrom, lt_of_conducts hconducts, hconducts⟩

theorem cyclic_iff : Search.Cyclic (wiresFrom m classes) ↔ WireCycle m classes := by
  constructor
  · rintro ⟨n, hn⟩
    have hto : ∀ {a b : Nat}, Search.Edge (wiresFrom m classes) a b →
        conducts m classes b = true := by
      rintro a b ⟨i, hi⟩
      obtain ⟨-, -, -, -, -, hconducts⟩ := mem_wiresFrom.mp hi
      exact hconducts
    have hpath : ∀ {a b : Nat}, conducts m classes a = true →
        TransGen (Search.Edge (wiresFrom m classes)) a b → TransGen (Conducts m classes) a b := by
      intro a b ha hab
      induction hab with
      | single hedge =>
        obtain ⟨i, hi⟩ := hedge
        obtain ⟨w, hw, hsource, -, hsink, hconducts⟩ := mem_wiresFrom.mp hi
        exact .single ⟨w, List.mem_of_getElem? hw, hsource, hsink, ha, hconducts⟩
      | tail hfront hedge ih =>
        obtain ⟨i, hi⟩ := hedge
        obtain ⟨w, hw, hsource, -, hsink, hconducts⟩ := mem_wiresFrom.mp hi
        obtain ⟨b, -, hlast⟩ := TransGen.tail'_iff.mp hfront
        exact ih.tail ⟨w, List.mem_of_getElem? hw, hsource, hsink, hto hlast, hconducts⟩
    obtain ⟨b, -, hlast⟩ := TransGen.tail'_iff.mp hn
    exact ⟨n, hpath (hto hlast) hn⟩
  · rintro ⟨n, hn⟩
    refine ⟨n, TransGen.mono (fun a b => ?_) n n hn⟩
    rintro ⟨w, hw, hsource, hsink, ha, hb⟩
    obtain ⟨i, hi⟩ := List.mem_iff_getElem?.mp hw
    exact ⟨i, mem_wiresFrom.mpr ⟨w, hi, hsource, lt_of_conducts ha, hsink, hb⟩⟩

theorem announcedBy_trans {rank : Nat → Nat} (i j k : Nat) (hij : announcedBy m rank i j = true)
    (hjk : announcedBy m rank j k = true) : announcedBy m rank i k = true := by
  simp only [announcedBy, Bool.or_eq_true, Bool.and_eq_true, decide_eq_true_eq, beq_iff_eq]
    at hij hjk ⊢
  omega

theorem announcedBy_total {rank : Nat → Nat} (i j : Nat) :
    (announcedBy m rank i j || announcedBy m rank j i) = true := by
  simp only [announcedBy, Bool.or_eq_true, Bool.and_eq_true, decide_eq_true_eq, beq_iff_eq]
  omega

theorem idxOf_lt_of_rank {rank : Nat → Nat} {i j : Nat} (hi : i < m.wires.length)
    (hj : j < m.wires.length) (hlt : wireRank m rank j < wireRank m rank i) :
    ((List.range m.wires.length).mergeSort (announcedBy m rank)).idxOf i <
      ((List.range m.wires.length).mergeSort (announcedBy m rank)).idxOf j := by
  obtain ⟨order, horder⟩ : ∃ order, order =
    (List.range m.wires.length).mergeSort (announcedBy m rank) := ⟨_, rfl⟩
  have hmem : ∀ k < m.wires.length, k ∈ order := by
    intro k hk
    rw [horder, List.mem_mergeSort]
    exact List.mem_range.mpr hk
  have hsorted : order.Pairwise fun i j => announcedBy m rank i j = true := by
    rw [horder]
    exact List.pairwise_mergeSort announcedBy_trans announcedBy_total _
  rw [← horder]
  by_contra hge
  have hilt := List.idxOf_lt_length_of_mem (hmem i hi)
  have hjlt := List.idxOf_lt_length_of_mem (hmem j hj)
  rcases Nat.lt_or_eq_of_le (Nat.le_of_not_lt hge) with hback | hsame
  · -- then `j` was announced by `i`, against the ranks
    have hle := List.pairwise_iff_getElem.mp hsorted _ _ hjlt hilt hback
    rw [List.getElem_idxOf, List.getElem_idxOf] at hle
    simp only [announcedBy, Bool.or_eq_true, Bool.and_eq_true, decide_eq_true_eq, beq_iff_eq] at hle
    omega
  · have hij : j = i := List.idxOf_inj (hmem j hj) |>.mp hsame
    rw [hij] at hlt
    exact lt_irrefl _ hlt

theorem realizeOrder_spec (hsourced : m.Sourced) :
    ∃ r, realizeOrder m classes = some r ∧ ((∃ d, r = .error d) ↔ WireCycle m classes) ∧
      ∀ order, r = .ok order → order.Perm (List.range m.wires.length) ∧
        ∀ i j wi wj, m.wires[i]? = some wi → m.wires[j]? = some wj →
          conducts m classes wi.sink.object = true → wj.source.object = wi.sink.object →
            order.idxOf i < order.idxOf j := by
  have hto : ∀ n, ∀ e ∈ wiresFrom m classes n, e.1 < m.objects.length := by
    intro n e he
    obtain ⟨-, -, -, -, -, hconducts⟩ := mem_wiresFrom.mp he
    exact lt_of_conducts hconducts
  have hcount : ∀ n, m.objects.length ≤ n → wiresFrom m classes n = [] := by
    intro n hn
    refine List.eq_nil_iff_forall_not_mem.mpr fun e he => ?_
    obtain ⟨-, -, -, hlt, -⟩ := mem_wiresFrom.mp he
    omega
  obtain ⟨r, hr⟩ := Search.search_ends hto (Nat.lt_succ_self _)
  obtain ⟨hcycle, hranked⟩ := Search.search_spec hcount hr
  rw [cyclic_iff] at hcycle
  unfold realizeOrder
  dsimp only
  rw [hr, Option.map_some]
  cases r with
  | error b =>
    exact ⟨_, rfl, iff_of_true ⟨_, rfl⟩ (hcycle.mp ⟨b, rfl⟩), fun order horder => nomatch horder⟩
  | ok v =>
    refine ⟨_, rfl, iff_of_false (fun ⟨d, hd⟩ => nomatch hd)
      (fun h => (nomatch (hcycle.mpr h).choose_spec)), fun order horder => ?_⟩
    cases horder
    refine ⟨List.mergeSort_perm _ _, fun i j wi wj hi hj hconducts hout => ?_⟩
    have hrank : wireRank m v.rank j < wireRank m v.rank i := by
      have hsource := hsourced wi (List.mem_of_getElem? hi)
      have hsink : wj.source.object < m.objects.length := by
        rw [hout]
        exact lt_of_conducts hconducts
      have hlt := hranked v rfl wi.source.object (wi.sink.object, i)
        (mem_wiresFrom.mpr ⟨wi, hi, rfl, hsource, rfl, hconducts⟩)
      unfold wireRank
      rw [hi, hj]
      dsimp only
      rw [if_pos hsource, if_pos hsink, hout]
      exact hlt
    exact idxOf_lt_of_rank (List.getElem?_eq_some_iff.mp hi).1
      (List.getElem?_eq_some_iff.mp hj).1 hrank

end Wires

/-! ## Clocks -/

def clockOf (objects : List Object) (i : Nat) : Option Nat :=
  match (objects[i]?).bind fun o => o.clock.map Clock.parent with
  | some (.object next) => some next
  | _ => none

/-- Object `i` takes its clock from object `j`. -/
def Descends (objects : List Object) (i j : Nat) : Prop := clockOf objects i = some j

/-- **Following clock parents from some object comes back** to one it passed. -/
def ClockCycle (objects : List Object) : Prop :=
  ∃ i < objects.length, ∃ j, ReflTransGen (Descends objects) i j ∧ TransGen (Descends objects) j j

/-- The clocks above the object come to an end. -/
def Founded (objects : List Object) (i : Nat) : Prop :=
  Acc (fun j i => Descends objects i j) i

section Clocks

variable {objects : List Object}

theorem founded_of_root {i : Nat} (h : clockOf objects i = none) : Founded objects i := by
  refine Acc.intro i fun j hj => ?_
  rw [Descends, h] at hj
  cases hj

theorem Founded.of_parent {i j : Nat} (hj : Founded objects j) (h : Descends objects i j) :
    Founded objects i := by
  refine Acc.intro i fun k hk => ?_
  obtain rfl : j = k := Option.some.inj (h.symm.trans hk)
  exact hj

theorem Founded.not_cycle {i j : Nat} (h : Founded objects i)
    (hij : ReflTransGen (Descends objects) i j) : ¬ TransGen (Descends objects) j j := by
  induction h generalizing j with
  | intro i _ ih =>
    intro hcycle
    rcases ReflTransGen.cases_head hij with rfl | ⟨k, hik, hkj⟩
    · obtain ⟨k, hik, hki⟩ := TransGen.head'_iff.mp hcycle
      exact ih k hik hki hcycle
    · exact ih k hik hkj hcycle

/-- How far a loop of `walkClock` gets, one step at a time and with no bound on the steps. -/
inductive Walks (objects : List Object) :
    List Nat → Nat → List Nat → Except Diagnostic (List Nat × List Nat) → Prop
  /-- no such object -/
  | off {state i path} (h : state[i]? = none ∨ objects[i]? = none) :
      Walks objects state i path (.ok (state, path))
  | again {state i path o} (hmark : state[i]? = some 1) (ho : objects[i]? = some o) :
      Walks objects state i path (.error (cycleError objects path i o))
  | met {state i path o} (hmark : state[i]? = some 2) (ho : objects[i]? = some o) :
      Walks objects state i path (.ok (state, path))
  | root {state i path mark} (hmark : state[i]? = some mark) (hnew : mark ≠ 1 ∧ mark ≠ 2)
      (hparent : i < objects.length ∧ clockOf objects i = none) :
      Walks objects state i path (.ok (state.set i 1, path ++ [i]))
  | on {state i path mark next r} (hmark : state[i]? = some mark) (hnew : mark ≠ 1 ∧ mark ≠ 2)
      (hparent : Descends objects i next) (h : Walks objects (state.set i 1) next (path ++ [i]) r) :
      Walks objects state i path r

def unmarked (state : List Nat) : Nat := state.countP fun mark => mark != 1 && mark != 2

theorem unmarked_set {state : List Nat} {i mark : Nat} (hmark : state[i]? = some mark)
    (hnew : mark ≠ 1 ∧ mark ≠ 2) : unmarked (state.set i 1) + 1 = unmarked state := by
  obtain ⟨hi, hget⟩ := List.getElem?_eq_some_iff.mp hmark
  have hcounted : (mark != 1 && mark != 2) = true := by simp [hnew]
  have hpos : 0 < unmarked state :=
    List.countP_pos_iff.mpr ⟨mark, List.mem_of_getElem? hmark, hcounted⟩
  unfold unmarked at hpos ⊢
  rw [List.countP_set hi, hget, if_pos hcounted, if_neg (by decide)]
  omega

theorem walkClock_walks {steps : Nat} {state path : List Nat} {i : Nat}
    (hsteps : unmarked state < steps) :
    Walks objects state i path (walkClock objects steps state i path) := by
  induction steps generalizing state i path with
  | zero => exact absurd hsteps (Nat.not_lt_zero _)
  | succ steps ih =>
    rw [walkClock]
    cases hmark : state[i]? with
    | none => exact .off (Or.inl hmark)
    | some mark =>
      cases ho : objects[i]? with
      | none => exact .off (Or.inr ho)
      | some o =>
        dsimp only
        split
        · rename_i h1
          exact .again (h1 ▸ hmark) ho
        · rename_i h1
          split
          · rename_i h2
            exact .met (h2 ▸ hmark) ho
          · rename_i h2
            have hclock : clockOf objects i = match o.clock.map Clock.parent with
                | some (.object next) => some next
                | _ => none := by
              unfold clockOf
              rw [ho, Option.bind_some]
            split
            · rename_i next hnext
              rw [hnext] at hclock
              have hfewer := unmarked_set hmark ⟨h1, h2⟩
              exact .on hmark ⟨h1, h2⟩ hclock (ih (by omega))
            · rename_i hnext
              refine .root hmark ⟨h1, h2⟩ ⟨(List.getElem?_eq_some_iff.mp ho).1, ?_⟩
              rw [hclock]
              split
              · rename_i next hnext'
                exact absurd hnext' (hnext next)
              · rfl

theorem Walks.spec {state path : List Nat} {i : Nat} {r : Except Diagnostic (List Nat × List Nat)}
    (h : Walks objects state i path r) (hlen : state.length = objects.length)
    (hdone : ∀ k, state[k]? = some 2 → Founded objects k)
    (hpending : ∀ k, state[k]? = some 1 → k ∈ path)
    (hpath : ∀ k ∈ path, TransGen (Descends objects) k i) :
    (∀ d, r = .error d → ClockCycle objects) ∧
      ∀ s, r = .ok s → Founded objects i ∧ s.1.length = objects.length ∧ path ⊆ s.2 ∧
        (∀ k ∈ s.2, k ∈ path ∨ Founded objects k) ∧
        ∀ k x, s.1[k]? = some x → (x = 1 ∧ k ∈ s.2) ∨ state[k]? = some x := by
  induction h with
  | @off state i path h =>
    refine ⟨fun d hd => (nomatch hd), fun s hs => ?_⟩
    cases hs
    have hnone : objects[i]? = none := by
      rcases h with h | h
      · rw [List.getElem?_eq_none_iff] at h ⊢
        omega
      · exact h
    refine ⟨founded_of_root ?_, hlen, fun k hk => hk, fun k hk => Or.inl hk,
      fun k x hx => Or.inr hx⟩
    unfold clockOf
    rw [hnone]
    rfl
  | @again state i path o hmark ho =>
    refine ⟨fun d _ => ?_, fun s hs => (nomatch hs)⟩
    exact ⟨i, (List.getElem?_eq_some_iff.mp ho).1, i, .refl, hpath i (hpending i hmark)⟩
  | @met state i path o hmark ho =>
    refine ⟨fun d hd => (nomatch hd), fun s hs => ?_⟩
    cases hs
    exact ⟨hdone i hmark, hlen, fun k hk => hk, fun k hk => Or.inl hk, fun k x hx => Or.inr hx⟩
  | @root state i path mark hmark hnew hparent =>
    refine ⟨fun d hd => (nomatch hd), fun s hs => ?_⟩
    cases hs
    have hi := founded_of_root hparent.2
    refine ⟨hi, by rw [List.length_set, hlen], List.subset_append_left _ _, fun k hk => ?_,
      fun k x hx => ?_⟩
    · rcases List.mem_append.mp hk with hk | hk
      · exact Or.inl hk
      · exact Or.inr (List.mem_singleton.mp hk ▸ hi)
    · rw [List.getElem?_set] at hx
      split at hx
      · rename_i hk
        split at hx
        · cases hx
          exact Or.inl ⟨rfl, List.mem_append_right _ (List.mem_singleton.mpr hk.symm)⟩
        · cases hx
      · exact Or.inr hx
  | @on state i path mark next r hmark hnew hparent _ ih =>
    have hset : ∀ k x, (state.set i 1)[k]? = some x → (k = i ∧ x = 1) ∨ state[k]? = some x := by
      intro k x hx
      rw [List.getElem?_set] at hx
      split at hx
      · rename_i hk
        split at hx
        · cases hx
          exact Or.inl ⟨hk.symm, rfl⟩
        · cases hx
      · exact Or.inr hx
    obtain ⟨herror, hok⟩ := ih (by rw [List.length_set, hlen])
      (fun k hk => by
        rcases hset k 2 hk with ⟨-, h⟩ | h
        · cases h
        · exact hdone k h)
      (fun k hk => by
        rcases hset k 1 hk with ⟨rfl, -⟩ | h
        · exact List.mem_append_right _ (List.mem_singleton.mpr rfl)
        · exact List.mem_append_left _ (hpending k h))
      (fun k hk => by
        rcases List.mem_append.mp hk with hk | hk
        · exact (hpath k hk).tail hparent
        · rw [List.mem_singleton.mp hk]
          exact .single hparent)
    refine ⟨herror, fun s hs => ?_⟩
    obtain ⟨hnext, hlength, hsub, hfounded, hmarks⟩ := hok s hs
    have hi := hnext.of_parent hparent
    refine ⟨hi, hlength, fun k hk => hsub (List.mem_append_left _ hk), fun k hk => ?_,
      fun k x hx => ?_⟩
    · rcases hfounded k hk with hk | hk
      · rcases List.mem_append.mp hk with hk | hk
        · exact Or.inl hk
        · exact Or.inr (List.mem_singleton.mp hk ▸ hi)
      · exact Or.inr hk
    · rcases hmarks k x hx with h | h
      · exact Or.inl h
      · rcases hset k x h with ⟨rfl, rfl⟩ | h
        · exact Or.inl ⟨rfl, hsub (List.mem_append_right _ (List.mem_singleton.mpr rfl))⟩
        · exact Or.inr h

theorem getElem?_foldl_set {path state : List Nat} {k x : Nat}
    (h : (path.foldl (fun s i => s.set i 2) state)[k]? = some x) :
    (k ∈ path ∧ x = 2) ∨ (k ∉ path ∧ state[k]? = some x) := by
  induction path generalizing state with
  | nil => exact Or.inr ⟨List.not_mem_nil, h⟩
  | cons first path ih =>
    rcases ih h with ⟨hk, hx⟩ | ⟨hk, hx⟩
    · exact Or.inl ⟨List.mem_cons_of_mem _ hk, hx⟩
    · rw [List.getElem?_set] at hx
      split at hx
      · rename_i hfirst
        split at hx
        · cases hx
          exact Or.inl ⟨hfirst ▸ List.mem_cons_self, rfl⟩
        · cases hx
      · rename_i hfirst
        refine Or.inr ⟨fun hmem => ?_, hx⟩
        rcases List.mem_cons.mp hmem with hmem | hmem
        · exact hfirst hmem.symm
        · exact hk hmem

theorem length_foldl_set (path state : List Nat) :
    (path.foldl (fun s i => s.set i 2) state).length = state.length := by
  induction path generalizing state with
  | nil => rfl
  | cons first path ih => rw [List.foldl_cons, ih, List.length_set]

theorem checkFrom_spec (starts : List Nat) {state : List Nat} (hlen : state.length = objects.length)
    (hmarks : ∀ k x, state[k]? = some x → x = 0 ∨ (x = 2 ∧ Founded objects k)) :
    (∀ d, checkFrom objects starts state = .error d → ClockCycle objects) ∧
      (checkFrom objects starts state = .ok () →
        ∀ s ∈ starts, s < objects.length → Founded objects s) := by
  induction starts generalizing state with
  | nil => exact ⟨fun d hd => (nomatch hd), fun _ s hs => absurd hs List.not_mem_nil⟩
  | cons start starts ih =>
    rw [checkFrom]
    split
    · rename_i hseen
      obtain ⟨herror, hok⟩ := ih hlen hmarks
      refine ⟨herror, fun h s hs hlt => ?_⟩
      rcases List.mem_cons.mp hs with rfl | hs
      · obtain ⟨x, hx⟩ : ∃ x, state[s]? = some x :=
          ⟨_, List.getElem?_eq_getElem (by rw [hlen]; exact hlt)⟩
        rcases hmarks s x hx with rfl | ⟨-, hfounded⟩
        · exact absurd hx hseen
        · exact hfounded
      · exact hok h s hs hlt
    · have hbound : unmarked state < objects.length + 1 := by
        rw [← hlen]
        exact Nat.lt_succ_of_le List.countP_le_length
      have hwalks : Walks objects state start [] _ := walkClock_walks hbound
      obtain ⟨hcycle, hfounds⟩ := hwalks.spec hlen
        (fun k hk => by
          rcases hmarks k 2 hk with h | ⟨-, h⟩
          · cases h
          · exact h)
        (fun k hk => by
          rcases hmarks k 1 hk with h | ⟨h, -⟩
          · cases h
          · cases h)
        (fun k hk => absurd hk List.not_mem_nil)
      cases hwalk : walkClock objects (objects.length + 1) state start [] with
      | error d => exact ⟨fun _ _ => hcycle d hwalk, fun h => (nomatch h)⟩
      | ok s =>
        obtain ⟨hstart, hlength, -, hpath, hafter⟩ := hfounds s hwalk
        have hfounded : ∀ k ∈ s.2, Founded objects k := fun k hk =>
          (hpath k hk).resolve_left List.not_mem_nil
        have hmarked : ∀ k x, (s.2.foldl (fun s i => s.set i 2) s.1)[k]? = some x →
            x = 0 ∨ (x = 2 ∧ Founded objects k) := by
          intro k x hx
          rcases getElem?_foldl_set hx with ⟨hk, rfl⟩ | ⟨hk, hx⟩
          · exact Or.inr ⟨rfl, hfounded k hk⟩
          · rcases hafter k x hx with ⟨-, h⟩ | h
            · exact absurd h hk
            · exact hmarks k x h
        obtain ⟨herror, hok⟩ := ih (by rw [length_foldl_set, hlength]) hmarked
        refine ⟨herror, fun h k hk hlt => ?_⟩
        rcases List.mem_cons.mp hk with rfl | hk
        · exact hstart
        · exact hok h k hk hlt

theorem check_clock_cycles_iff (m : Resolved) :
    (∃ d, checkClockCycles m = .error d) ↔ ClockCycle m.objects := by
  have hnew : ∀ k x, (List.replicate m.objects.length 0)[k]? = some x →
      x = 0 ∨ (x = 2 ∧ Founded m.objects k) := fun k x hx =>
    Or.inl (List.eq_of_mem_replicate (List.mem_of_getElem? hx))
  obtain ⟨herror, hok⟩ :=
    checkFrom_spec (List.range m.objects.length) List.length_replicate hnew
  refine ⟨fun ⟨d, hd⟩ => herror d hd, fun hcycle => ?_⟩
  cases hcheck : checkClockCycles m with
  | error d => exact ⟨d, rfl⟩
  | ok u =>
    obtain ⟨i, hi, j, hij, hj⟩ := hcycle
    exact absurd hj ((hok hcheck i (List.mem_range.mpr hi) hi).not_cycle hij)

end Clocks

/--
**Both checks on the machine graph are exact, and both end.** The sweep's order is refused exactly
where wires form a cycle through combinational devices, and otherwise has every wire once, those
into a combinational device before those out of it. The forest check refuses exactly where clock
parents come back on themselves, and each of its walks gets as far as it would with any number of
steps.
-/
theorem graph_checks_exact (m : Resolved) (classes : Classes) (hsourced : m.Sourced) :
    (∃ r, realizeOrder m classes = some r ∧ ((∃ d, r = .error d) ↔ WireCycle m classes) ∧
      ∀ order, r = .ok order → order.Perm (List.range m.wires.length) ∧
        ∀ i j wi wj, m.wires[i]? = some wi → m.wires[j]? = some wj →
          conducts m classes wi.sink.object = true → wj.source.object = wi.sink.object →
            order.idxOf i < order.idxOf j) ∧
    ((∃ d, checkClockCycles m = .error d) ↔ ClockCycle m.objects) ∧
    ∀ state path i, state.length = m.objects.length →
      Walks m.objects state i path (walkClock m.objects (m.objects.length + 1) state i path) := by
  refine ⟨realizeOrder_spec hsourced, check_clock_cycles_iff m, fun state path i hlen => ?_⟩
  refine walkClock_walks ?_
  rw [← hlen]
  exact Nat.lt_succ_of_le List.countP_le_length

/-- Three gates, wired to one another. -/
def gates (wires : List (Nat × Nat)) : Resolved :=
  { name := "gates", params := [], paramSpans := [], oscillators := [], spaces := [],
    objects := ["a", "b", "c"].map fun name =>
      { name := name, className := "wire.or", clock := none, space := none, props := [],
        propSpans := [], classSpan := .point 0, nameSpan := .point 0, span := .point 0 }
    maps := [],
    wires := wires.map fun ends =>
      { source := ⟨ends.1, "out", .point 0⟩, sink := ⟨ends.2, "in", .point 0⟩, props := [],
        propSpans := [], span := .point 0 }
    nameSpan := .point 0, threading := none, threadingSpan := none, span := .point 0 }

/-- Two gates that feed each other have no order, and a chain of three, its wires declared last
first, has the wire that feeds the chain before the other. -/
theorem graph_checks_crossed :
    (WireCycle (gates [(0, 1), (1, 0)]) (fun _ => none) ∧
      ∃ d, realizeOrder (gates [(0, 1), (1, 0)]) (fun _ => none) = some (.error d)) ∧
    ∃ order, realizeOrder (gates [(1, 2), (0, 1)]) (fun _ => none) = some (.ok order) ∧
      ¬ WireCycle (gates [(1, 2), (0, 1)]) (fun _ => none) ∧
      order.Perm [0, 1] ∧ order.idxOf 1 < order.idxOf 0 := by
  constructor
  · have hsourced : (gates [(0, 1), (1, 0)]).Sourced := by
      unfold Resolved.Sourced
      decide
    have hcycle : WireCycle (gates [(0, 1), (1, 0)]) (fun _ => none) := by
      refine ⟨0, .head (b := 1) ?_ (.single ?_)⟩
      · exact ⟨_, List.mem_cons_self, rfl, rfl, by decide, by decide⟩
      · exact ⟨_, List.mem_cons_of_mem _ List.mem_cons_self, rfl, rfl, by decide, by decide⟩
    obtain ⟨⟨r, hr, hrefused, -⟩, -, -⟩ :=
      graph_checks_exact (gates [(0, 1), (1, 0)]) (fun _ => none) hsourced
    obtain ⟨d, rfl⟩ := hrefused.mpr hcycle
    exact ⟨hcycle, d, hr⟩
  · have hsourced : (gates [(1, 2), (0, 1)]).Sourced := by
      unfold Resolved.Sourced
      decide
    obtain ⟨⟨r, hr, hrefused, horder⟩, -, -⟩ :=
      graph_checks_exact (gates [(1, 2), (0, 1)]) (fun _ => none) hsourced
    have hup : ∀ a b, Conducts (gates [(1, 2), (0, 1)]) (fun _ => none) a b → a < b := by
      rintro a b ⟨w, hw, rfl, rfl, -, -⟩
      revert w
      decide
    have hno : ¬ WireCycle (gates [(1, 2), (0, 1)]) (fun _ => none) := by
      rintro ⟨a, hcycle⟩
      have hlt := TransGen.mono hup a a hcycle
      rw [Relation.transGen_eq_self] at hlt
      exact lt_irrefl a hlt
    cases r with
    | error d => exact absurd (hrefused.mp ⟨d, rfl⟩) hno
    | ok order =>
      obtain ⟨hperm, hbefore⟩ := horder order rfl
      exact ⟨order, hr, hno, hperm, hbefore 1 0 _ _ rfl rfl (by decide) rfl⟩

/-! ## What the resolver promises -/

def Scoped.isObject (s : Scoped) : Bool :=
  match s.stmt with
  | .object _ => true
  | _ => false

/-- The table names only objects already numbered. -/
def Numbered (table : Table) (count : Nat) : Prop :=
  ∀ d ∈ table, ∀ id, d.2.1 = .object id → id < count

theorem declares_objects {c c' : Counters} {scope : String} {stmt : Stmt} {n : Name} {decl : Decl}
    (h : declares c stmt = some (n, decl, c')) :
    (∀ id, decl = .object id → id < c'.objects) ∧
      c'.objects = c.objects + if (⟨scope, stmt⟩ : Scoped).isObject then 1 else 0 := by
  cases stmt with
  | osc d =>
    cases h
    exact ⟨fun id hid => (nomatch hid), rfl⟩
  | space d =>
    cases h
    exact ⟨fun id hid => (nomatch hid), rfl⟩
  | object d =>
    cases h
    refine ⟨fun id hid => ?_, rfl⟩
    cases hid
    exact Nat.lt_succ_self _
  | _ => cases h

theorem buildTables_numbered {params : Frame} {stmts : List Scoped} {c : Counters}
    {table r : Table} (h : buildTables params stmts c table = .ok r)
    (hnumbered : Numbered table c.objects) :
    Numbered r (c.objects + stmts.countP Scoped.isObject) := by
  induction stmts generalizing c table with
  | nil =>
    cases h
    exact hnumbered
  | cons s stmts ih =>
    obtain ⟨scope, stmt⟩ := s
    rw [buildTables] at h
    rw [List.countP_cons]
    split at h
    · rename_i hnone
      have hother : (⟨scope, stmt⟩ : Scoped).isObject = false := by
        cases stmt <;> first | rfl | cases hnone
      rw [hother]
      exact ih h hnumbered
    · rename_i n decl c' hdeclares
      obtain ⟨hid, hcount⟩ := @declares_objects _ _ scope _ _ _ hdeclares
      dsimp only at h
      split at h
      · cases h
      · split at h
        · cases h
        · rw [Nat.add_comm (stmts.countP _), ← Nat.add_assoc, ← hcount]
          refine ih h fun d hd id hdecl => ?_
          rcases List.mem_append.mp hd with hd | hd
          · have := hnumbered d hd id hdecl
            omega
          · rw [List.mem_singleton.mp hd] at hdecl
            exact hid id hdecl

theorem objectAt_numbered {table : Table} {count : Nat} (h : Numbered table count)
    {segments : List String} {span : Span} {scope : String} {take : Nat} {r : Nat × Option String}
    (hr : objectAt table segments span scope take = some (.ok r)) : r.1 < count := by
  unfold objectAt at hr
  dsimp only at hr
  split at hr
  · rename_i id sp hentry
    cases hr
    exact h _ (mem_of_entry hentry) id rfl
  · split at hr
    · cases hr
    · cases hr
  · cases hr

theorem objectPath_numbered {table : Table} {count : Nat} (h : Numbered table count) {p : Path}
    {scope : String} {wantPort : Bool} {r : Nat × Option String}
    (hr : objectPath table p scope wantPort = .ok r) : r.1 < count := by
  obtain ⟨segments, -, hr⟩ := ok_of_bind hr
  dsimp only at hr
  split at hr
  · rename_i found hfound
    obtain ⟨t, -, ht⟩ := List.exists_of_findSome?_eq_some hfound
    rw [hr] at ht
    exact objectAt_numbered h ht
  · cases hr

theorem pin_numbered {table : Table} {count : Nat} (h : Numbered table count) {p : Path}
    {scope : String} {q : Pin} (hq : pin table p scope = .ok q) : q.object < count := by
  unfold pin at hq
  split at hq
  · cases hq
  · obtain ⟨r, hpath, hq⟩ := ok_of_bind hq
    split at hq
    · cases hq
    · cases hq
      exact objectPath_numbered h hpath

/-- Both ends of every wire are objects of the machine. -/
def Resolved.Wired (m : Resolved) : Prop :=
  ∀ w ∈ m.wires, w.source.object < m.objects.length ∧ w.sink.object < m.objects.length

theorem wire_wired {table : Table} {count : Nat} (h : Numbered table count) {w : WireStmt}
    {scope : String} {x : Wire} (hx : wire table w scope = .ok x) :
    x.source.object < count ∧ x.sink.object < count := by
  obtain ⟨r, -, hx⟩ := ok_of_bind hx
  obtain ⟨source, hsource, hx⟩ := ok_of_bind hx
  obtain ⟨sink, hsink, rfl⟩ := ok_of_map hx
  exact ⟨pin_numbered h hsource, pin_numbered h hsink⟩

theorem declare_keeps {table : Table} {out out' : Resolved} {s : Scoped}
    (h : declare table out s = .ok out') : out'.objects = out.objects ∧ out'.wires = out.wires := by
  unfold declare at h
  split at h
  · obtain ⟨x, -, rfl⟩ := ok_of_map h
    exact ⟨rfl, rfl⟩
  · obtain ⟨x, -, rfl⟩ := ok_of_map h
    exact ⟨rfl, rfl⟩
  · cases h
    exact ⟨rfl, rfl⟩

theorem declareObject_adds {table : Table} {out out' : Resolved} {s : Scoped}
    (h : declareObject table out s = .ok out') :
    out'.objects.length = out.objects.length + (if s.isObject then 1 else 0) ∧
      out'.wires = out.wires := by
  obtain ⟨scope, stmt⟩ := s
  cases stmt with
  | object d =>
    obtain ⟨x, -, rfl⟩ := ok_of_map h
    exact ⟨by simp [Scoped.isObject], rfl⟩
  | _ =>
    cases h
    exact ⟨rfl, rfl⟩

theorem declareObjects_adds {table : Table} {out out' : Resolved} {stmts : List Scoped}
    (h : stmts.foldlM (declareObject table) out = .ok out') :
    out'.objects.length = out.objects.length + stmts.countP Scoped.isObject ∧
      out'.wires = out.wires := by
  induction stmts generalizing out with
  | nil =>
    cases h
    exact ⟨rfl, rfl⟩
  | cons s stmts ih =>
    rw [List.foldlM_cons] at h
    obtain ⟨next, hnext, h⟩ := ok_of_bind h
    obtain ⟨hlength, hwires⟩ := declareObject_adds hnext
    obtain ⟨hrest, hsame⟩ := ih h
    rw [List.countP_cons]
    exact ⟨by omega, hsame.trans hwires⟩

theorem threading_keeps {t : ThreadingStmt} {out out' : Resolved}
    (h : threading t out = .ok out') : out'.objects = out.objects ∧ out'.wires = out.wires := by
  unfold threading at h
  dsimp only at h
  split at h
  iterate 2
    · split at h
      · split at h
        · cases h
        · cases h
          exact ⟨rfl, rfl⟩
      · cases h
        exact ⟨rfl, rfl⟩
  · cases h
  · cases h

theorem linkUp_wired {sc : Scalars} {table : Table} {out out' : Resolved} {s : Scoped}
    (hnumbered : Numbered table out.objects.length) (hout : out.Wired)
    (h : linkUp sc table out s = .ok out') : out'.Wired ∧ out'.objects = out.objects := by
  obtain ⟨scope, stmt⟩ := s
  cases stmt with
  | map d =>
    obtain ⟨x, -, rfl⟩ := ok_of_map h
    exact ⟨hout, rfl⟩
  | wire d =>
    obtain ⟨x, hx, rfl⟩ := ok_of_map h
    refine ⟨fun w hw => ?_, rfl⟩
    rcases List.mem_append.mp hw with hw | hw
    · exact hout w hw
    · rw [List.mem_singleton.mp hw]
      exact wire_wired hnumbered hx
  | threading t =>
    obtain ⟨hobjects, hwires⟩ := threading_keeps h
    refine ⟨fun w hw => ?_, hobjects⟩
    rw [hobjects]
    exact hout w (hwires ▸ hw)
  | _ =>
    cases h
    exact ⟨hout, rfl⟩

/-- **No wire of a resolved machine dangles**, at neither end. -/
theorem resolve_sourced {sc : Scalars} {o : Options} {stmts : List Stmt} {m : Resolved}
    (h : resolve sc o stmts = .ok m) :
    m.Sourced ∧ ∀ w ∈ m.wires, w.sink.object < m.objects.length := by
  obtain ⟨x, -, h⟩ := ok_of_bind h
  obtain ⟨table, htable, h⟩ := ok_of_bind h
  have hnumbered := buildTables_numbered htable (fun d hd => absurd hd List.not_mem_nil)
  rw [Nat.zero_add] at hnumbered
  obtain ⟨values, -, h⟩ := ok_of_bind h
  obtain ⟨declared, hdeclared, h⟩ := ok_of_bind h
  obtain ⟨placed, hplaced, h⟩ := ok_of_bind h
  obtain ⟨linked, hlinked, h⟩ := ok_of_bind h
  obtain ⟨-, -, rfl⟩ := ok_of_map h
  obtain ⟨hobjects, hwires⟩ : declared.objects = [] ∧ declared.wires = [] := by
    refine foldlM_invariant (fun out => out.objects = [] ∧ out.wires = []) hdeclared ⟨rfl, rfl⟩ ?_
    intro s _ c c' hc hstep
    obtain ⟨hobjects, hwires⟩ := declare_keeps hstep
    exact ⟨hobjects.trans hc.1, hwires.trans hc.2⟩
  obtain ⟨hlength, hsame⟩ := declareObjects_adds hplaced
  rw [hobjects, List.length_nil, Nat.zero_add] at hlength
  rw [hwires] at hsame
  refine forall₂_and.mp (foldlM_invariant
    (fun out => out.Wired ∧ out.objects = placed.objects) hlinked ⟨fun w hw => ?_, rfl⟩ ?_).1
  · rw [hsame] at hw
    cases hw
  · intro s _ c c' hc hstep
    obtain ⟨hwired, hobjects⟩ := linkUp_wired (by rwa [hc.2, hlength]) hc.1 hstep
    exact ⟨hwired, hobjects.trans hc.2⟩

/-- Two gates that feed each other. -/
def wiredPair : List Stmt :=
  let object (name className : String) : Stmt :=
    .object { name := plainName name, className := className, classSpan := .point 0, props := [],
              span := .point 0 }
  let pin (object line : String) : Path := .mk [plainName object, plainName line] (.point 0)
  [.machine "m" (.point 0) [object "pic" "i8259", object "cpu" "i8086",
    .wire { source := pin "pic" "int", sink := pin "cpu" "intr", props := [], span := .point 0 }]
    (.point 0)]

theorem resolve_sourced_pair :
    ∃ m, resolve plainScalars .default wiredPair = .ok m ∧ m.wires.length = 1 ∧
      m.Sourced ∧ ∀ w ∈ m.wires, w.sink.object < m.objects.length := by
  have hwires : ((resolve plainScalars .default wiredPair).toOption.map fun m => m.wires.length) =
      some 1 := by
    decide +kernel
  obtain ⟨m, hm, hlength⟩ := ok_of_toOption_map hwires
  exact ⟨m, hm, hlength, resolve_sourced hm⟩

end Rsemu.Machine
