import Mathlib.Logic.Relation
import Rsemu.Space.Build

/-!
# The dense dispatch table

A space may keep a table of pages in front of its flat view. An entry says what the whole page
is: one entry of the view, nothing, or more than a page can say, and then the view is asked.
The table is derived from the view by asking it about the first byte of each page and about
where its entries end and start.

Nothing but the view's own order makes that enough (`locate_eq_find`): whatever covers the
first byte of a page and reaches its end covers all of it, and a page with no entry at its
first byte is empty unless some entry starts inside it.
-/

namespace Rsemu.Space

open Word

/-- Whether an address space gets a dense page table, and how big. -/
inductive DispatchPolicy where
  | flat
  /-- `1 << pageBits` bytes a page, covering `[0, cover)`. -/
  | dense (pageBits : UInt32) (cover : UInt64)
  /-- 4 KiB pages over the view's extent, when there are enough entries to search. -/
  | auto

/-- What the table says of a page. -/
inductive DispatchEntry where
  | unassigned
  | subPage
  | mapped (index : Nat)
  /-- As `mapped`, and the entry is plain memory. -/
  | direct (index : Nat)
  deriving DecidableEq

def tagShift : Nat := 30
def tagMapped : Nat := 0
def tagDirect : Nat := 1 <<< tagShift
def tagSubpage : Nat := 2 <<< tagShift
def tagUnassigned : Nat := 3 <<< tagShift
def indexMask : Nat := (1 <<< tagShift) - 1

def tagMask : Nat := 2 ^ 32 - 1 - indexMask

def FlatEntry.isDirectRam (e : FlatEntry) : Bool :=
  e.writeTo.isNone &&
    match e.kind with
    | .single l =>
      match l.target with
      | .ram _ => true
      | _ => false
    | .combine _ _ => false

def FlatView.extent (v : FlatView) : Nat := (v.entries.getLast?.map (·.stop)).getD 0

/-- The page table of a view. -/
structure Dispatch where
  pageBits : Nat
  cover : Nat
  table : List Nat

namespace Dispatch

def maxEntries : Nat := 1 <<< 20

/-- The word for the page that starts at `start`. -/
def pageWord (view : FlatView) (pageSize start : Nat) : Nat :=
  let stop := saturatingAdd 64 start pageSize
  match view.find start with
  | some i =>
    match view.entries[i]? with
    | some e =>
      if stop ≤ e.stop then
        let tag := if e.isDirectRam then tagDirect else tagMapped
        if i ≤ indexMask then tag ||| i else tagSubpage
      else tagSubpage
    -- `find` answers the index of an entry
    | none => tagSubpage
  | none =>
    -- nothing at the page start: empty, unless something starts partway into it
    match (view.entries.find? fun e => start ≤ e.start).map (·.start) with
    | some s => if s < stop then tagSubpage else tagUnassigned
    | none => tagUnassigned

/-- The table, for pages of a size and as far as it covers. -/
def buildDense (view : FlatView) (pageBits cover : Nat) : Option Dispatch :=
  if pageBits = 0 ∨ 64 ≤ pageBits ∨ cover = 0 then none
  else
    let pageSize := 1 <<< pageBits
    let pages := (cover + pageSize - 1) / pageSize
    if maxEntries < pages then none
    else some ⟨pageBits, cover,
      (List.range pages).map fun page => pageWord view pageSize (page <<< pageBits)⟩

def build (view : FlatView) : DispatchPolicy → Option Dispatch
  | .flat => none
  | .dense pageBits cover => buildDense view pageBits.toNat cover.toNat
  | .auto => if view.entries.length < 8 then none else buildDense view 12 view.extent

def decode (raw : Nat) : DispatchEntry :=
  if raw &&& tagMask = tagDirect then .direct (raw &&& indexMask)
  else if raw &&& tagMask = tagSubpage then .subPage
  else if raw &&& tagMask = tagUnassigned then .unassigned
  else .mapped (raw &&& indexMask)

def lookup (d : Dispatch) (addr : Nat) : Option DispatchEntry :=
  if d.cover ≤ addr then none else (d.table[addr >>> d.pageBits]?).map decode

end Dispatch

/-- What a space is read through: the view and the table in front of it. -/
structure SpaceView where
  flat : FlatView
  dispatch : Option Dispatch

def SpaceView.locate (s : SpaceView) (addr : Nat) : Option Nat :=
  match s.dispatch.bind (·.lookup addr) with
  | some .unassigned => none
  | some (.mapped i) => some i
  | some (.direct i) => some i
  | some .subPage => s.flat.find addr
  | none => s.flat.find addr

theorem and_indexMask {t i : Nat} (hi : i ≤ indexMask) : (t <<< tagShift ||| i) &&& indexMask = i := by
  unfold indexMask tagShift at *
  rw [Nat.one_shiftLeft] at *
  rw [Nat.and_two_pow_sub_one_eq_mod, Nat.shiftLeft_eq, Nat.mul_comm,
    ← Nat.two_pow_add_eq_or_of_lt (by omega)]
  omega

theorem and_tagMask {t i : Nat} (ht : t < 4) (hi : i ≤ indexMask) :
    (t <<< tagShift ||| i) &&& tagMask = t <<< tagShift := by
  have hmask : tagMask = 2 ^ 32 - 1 ^^^ indexMask := by decide
  have hlow : (t <<< tagShift ||| i) < 2 ^ 32 := by
    refine Nat.or_lt_two_pow ?_ ?_
    · unfold tagShift
      omega
    · unfold indexMask tagShift at hi
      omega
  rw [hmask, Nat.and_xor_distrib_left, Nat.and_two_pow_sub_one_eq_mod, Nat.mod_eq_of_lt hlow,
    and_indexMask hi]
  refine Nat.eq_of_testBit_eq fun k => ?_
  rw [Nat.testBit_xor, Nat.testBit_or]
  by_cases hk : k < tagShift
  · rw [Nat.testBit_shiftLeft, decide_eq_false (Nat.not_le.mpr hk), Bool.false_and, Bool.false_or,
      Bool.xor_self]
  · have hz : i.testBit k = false := by
      refine Nat.testBit_lt_two_pow (Nat.lt_of_lt_of_le ?_
        (Nat.pow_le_pow_right (by decide) (Nat.le_of_not_lt hk)))
      unfold indexMask tagShift at hi
      unfold tagShift
      omega
    rw [hz, Bool.or_false, Bool.xor_false]

theorem decode_tagged {direct : Bool} {i : Nat} (hi : i ≤ indexMask) :
    Dispatch.decode ((if direct then tagDirect else tagMapped) ||| i)
      = if direct then .direct i else .mapped i := by
  cases direct with
  | true =>
    have h1 := and_tagMask (t := 1) (by decide) hi
    have h2 := and_indexMask (t := 1) hi
    change (tagDirect ||| i) &&& tagMask = tagDirect at h1
    change (tagDirect ||| i) &&& indexMask = i at h2
    simp only [if_true, Dispatch.decode, h1, h2]
  | false =>
    have h1 := and_tagMask (t := 0) (by decide) hi
    have h2 := and_indexMask (t := 0) hi
    change (tagMapped ||| i) &&& tagMask = 0 at h1
    change (tagMapped ||| i) &&& indexMask = i at h2
    simp only [Bool.false_eq_true, if_false, Dispatch.decode, h1, h2]
    rw [if_neg (by decide), if_neg (by decide), if_neg (by decide)]

theorem decode_subpage : Dispatch.decode tagSubpage = .subPage := by decide

theorem decode_unassigned : Dispatch.decode tagUnassigned = .unassigned := by decide

section Ordered

variable {cells : Cells} {limit : Nat}

theorem resolveChildren_tiles
    {resolve : Region → Nat → Nat → Perms → Except ConfigError (List Piece)}
    (hres : ∀ r off len p ps, len < 2 ^ 64 → resolve r off len p = .ok ps →
      ∀ q ∈ ps, q.start + q.len ≤ len)
    {children : List (Mapping Region)} {off len : Nat} {combine : CombinePolicy} {perms : Perms}
    {ps : List Piece} (hlen : len < 2 ^ 64)
    (h : resolveChildren resolve children limit off len combine perms = .ok ps) : Tiles len ps := by
  simp only [resolveChildren, bind, Except.bind] at h
  split at h
  · cases h
  rename_i cands hcands
  obtain rfl := Except.ok.inj h
  refine (resolveOverlaps_spec hlen fun c hc => ?_).1
  obtain ⟨m, _, cs, hcs, hc⟩ := (mem_gather hcands).mp hc
  have hwant : saturatingAdd 64 off len ≤ off + len := Nat.min_le_left ..
  unfold childCands at hcs
  dsimp only at hcs
  split at hcs
  · obtain rfl := Except.ok.inj hcs
    cases hc
  simp only [bind, Except.bind] at hcs
  split at hcs
  · cases hcs
  rename_i sub hsub
  obtain rfl := Except.ok.inj hcs
  obtain ⟨q, hq, rfl⟩ := List.mem_map.mp hc
  have hbelow := hres _ _ _ _ _ (by omega) hsub q hq
  dsimp only
  omega

theorem resolveRegion_below : ∀ {levels : Nat} {r : Region} {off len : Nat} {perms : Perms}
    {ps : List Piece}, len < 2 ^ 64 → resolveRegion cells levels r off len perms = .ok ps →
    ∀ q ∈ ps, q.start + q.len ≤ len := by
  intro levels
  induction levels with
  | zero => intro r off len perms ps _ h; exact absurd h (by simp [resolveRegion])
  | succ n ih =>
    intro r off len perms ps hlen h q hq
    have leaf : ∀ {l : LeafSpec}, q ∈ leafPiece (min len (r.len - off)) l →
        q.start + q.len ≤ len := by
      intro l hl
      obtain rfl := List.mem_singleton.mp hl
      dsimp only
      omega
    cases hk : r.kind with
    | «alias» a =>
      cases hrep : a.repeats with
      | true =>
        simp only [resolveRegion, hk, hrep, if_true] at h
        split at h
        · obtain rfl := Except.ok.inj h
          cases hq
        · split at h
          · cases h
          · obtain rfl := Except.ok.inj h
            exact leaf hq
      | false =>
        rcases resolveRegion_window hk hrep h with ⟨_, rfl⟩ | ⟨sub, _, hsub, rfl⟩
        · cases hq
        · obtain ⟨q', hq', rfl⟩ := List.mem_map.mp hq
          have := ih (by omega) hsub q' hq'
          dsimp only
          omega
    | container cs combine =>
      rw [resolveRegion_container hk] at h
      split at h
      · obtain rfl := Except.ok.inj h
        cases hq
      · have := (resolveChildren_tiles (fun _ _ _ _ _ hl hr => ih hl hr) (by omega) h).below q hq
        omega
    | _ =>
      obtain ⟨t, ht⟩ := isLeaf_iff.mp (show r.isLeaf = true by simp [Region.isLeaf, hk])
      rw [resolveRegion_leaf ht] at h
      obtain rfl := Except.ok.inj h
      split at hq
      · cases hq
      · exact leaf hq

theorem build_ordered {children : List (Mapping Region)} {combine : CombinePolicy} {v : FlatView}
    {index : RebaseIndex} (hlim : limit < 2 ^ 64)
    (h : FlatView.build cells children limit combine = .ok (v, index)) : v.Ordered limit := by
  simp only [FlatView.build, bind, Except.bind] at h
  split at h
  · cases h
  rename_i pieces hpieces
  obtain ⟨rfl, _⟩ := h
  exact (resolveChildren_tiles (fun _ _ _ _ _ hl hr => resolveRegion_below hl hr) hlim
    hpieces).ordered

end Ordered

/-- The entries cover the same ranges. -/
def FlatView.SamePlaces (v v' : FlatView) : Prop :=
  v'.entries.map (fun e => (e.start, e.len)) = v.entries.map fun e => (e.start, e.len)

theorem refresh_place (cells : Cells) (index : Nat) (e : FlatEntry) :
    (e.refresh cells index).start = e.start ∧ (e.refresh cells index).len = e.len := by
  unfold FlatEntry.refresh
  split
  · exact ⟨rfl, rfl⟩
  · split
    · split
      · exact ⟨rfl, rfl⟩
      · exact ⟨rfl, rfl⟩
    · exact ⟨rfl, rfl⟩

theorem rebase_places (cells : Cells) (index : RebaseIndex) (id : AliasId) (v : FlatView) :
    v.SamePlaces (v.rebase cells index id) := by
  have hfold : ∀ (ps : List (Nat × Nat)) (es : List FlatEntry),
      (ps.foldl (fun es p => es.modify p.1 (FlatEntry.refresh cells p.2)) es).map
        (fun e => (e.start, e.len)) = es.map fun e => (e.start, e.len) := by
    intro ps
    induction ps with
    | nil => intro es; rfl
    | cons p ps ih =>
      intro es
      rw [List.foldl_cons, ih]
      refine List.ext_getElem? fun i => ?_
      simp only [List.getElem?_map, List.getElem?_modify]
      cases es[i]? with
      | none => rfl
      | some e =>
        obtain ⟨hs, hl⟩ := refresh_place cells p.2 e
        by_cases he : p.1 = i
        · simp [he, hs, hl]
        · simp [he]
  exact hfold _ _

section Places

variable {v v' : FlatView} {limit : Nat}

theorem SamePlaces.getElem? (h : v.SamePlaces v') {i : Nat} {e : FlatEntry}
    (he : v.entries[i]? = some e) :
    ∃ e', v'.entries[i]? = some e' ∧ e'.start = e.start ∧ e'.len = e.len := by
  have hi := congrArg (·[i]?) h
  simp only [List.getElem?_map, he, Option.map_some, Option.map_eq_some_iff, Prod.mk.injEq] at hi
  exact hi

theorem SamePlaces.ordered (h : v.SamePlaces v') (ho : v.Ordered limit) : v'.Ordered limit := by
  have hback : v'.SamePlaces v := h.symm
  have hmem : ∀ e' ∈ v'.entries, ∃ e ∈ v.entries, e.start = e'.start ∧ e.len = e'.len := by
    intro e' he'
    obtain ⟨i, hi⟩ := List.mem_iff_getElem?.mp he'
    obtain ⟨e, he, hs, hl⟩ := SamePlaces.getElem? hback hi
    exact ⟨e, List.mem_of_getElem? he, hs, hl⟩
  refine ⟨?_, fun e' he' => ?_, fun e' he' => ?_⟩
  · have hplaces : ∀ w : FlatView, w.entries.Pairwise (fun e f => e.start + e.len ≤ f.start) ↔
        (w.entries.map fun e => (e.start, e.len)).Pairwise fun p q => p.1 + p.2 ≤ q.1 :=
      fun w => by rw [List.pairwise_map]
    rw [hplaces, h, ← hplaces]
    exact ho.apart
  · obtain ⟨e, he, _, hl⟩ := hmem e' he'
    exact hl ▸ ho.pos e he
  · obtain ⟨e, he, hs, hl⟩ := hmem e' he'
    rw [← hs, ← hl]
    exact ho.below e he

theorem SamePlaces.find (h : v.SamePlaces v') (ho : v.Ordered limit) (hlim : limit < 2 ^ 64)
    (x : Nat) : v'.find x = v.find x := by
  refine Option.ext fun i => ?_
  rw [find_eq_some (SamePlaces.ordered h ho) hlim, find_eq_some ho hlim]
  constructor
  · rintro ⟨e', he', hx⟩
    have hback : v'.SamePlaces v := h.symm
    obtain ⟨e, he, hs, hl⟩ := SamePlaces.getElem? hback he'
    exact ⟨e, he, by rw [hs, hl]; exact hx⟩
  · rintro ⟨e, he, hx⟩
    obtain ⟨e', he', hs, hl⟩ := SamePlaces.getElem? h he
    exact ⟨e', he', by rw [hs, hl]; exact hx⟩

end Places

section Pages

variable {v : FlatView} {limit : Nat}

/-- What a page's word promises of every address in it. -/
def Promises (v : FlatView) (x : Nat) : DispatchEntry → Prop
  | .unassigned => v.find x = none
  | .mapped i => v.find x = some i
  | .direct i => v.find x = some i
  | .subPage => True

theorem pageWord_promises (ho : v.Ordered limit) (hlim : limit < 2 ^ 64) {pageSize start x : Nat}
    (hle : start ≤ x) (hlt : x < saturatingAdd 64 start pageSize) :
    Promises v x (Dispatch.decode (Dispatch.pageWord v pageSize start)) := by
  have hstop : ∀ {i : Nat} {e : FlatEntry}, v.entries[i]? = some e → e.stop = e.start + e.len := by
    intro i e he
    have := ho.below e (List.mem_of_getElem? he)
    exact wrappingAdd_of_lt (by omega)
  unfold Dispatch.pageWord
  cases hf : v.find start with
  | some i =>
    obtain ⟨e, he, hes, _⟩ := (find_eq_some ho hlim).mp hf
    simp only [he]
    by_cases hcov : saturatingAdd 64 start pageSize ≤ e.stop
    · rw [if_pos hcov]
      by_cases hi : i ≤ indexMask
      · rw [if_pos hi, decode_tagged hi]
        have hfind : v.find x = some i :=
          (find_eq_some ho hlim).mpr ⟨e, he, by omega, by rw [← hstop he]; omega⟩
        split
        · exact hfind
        · exact hfind
      · rw [if_neg hi, decode_subpage]
        exact trivial
    · rw [if_neg hcov, decode_subpage]
      exact trivial
  | none =>
    -- an entry that covers `x` starts inside the page, so the first to start there does too
    have hnone : (∀ s, (v.entries.find? fun e => decide (start ≤ e.start)).map (·.start) = some s →
        saturatingAdd 64 start pageSize ≤ s) → v.find x = none := by
      intro hfirst
      by_contra hsome
      obtain ⟨j, hj⟩ := Option.ne_none_iff_exists'.mp hsome
      obtain ⟨e, he, hes, hex⟩ := (find_eq_some ho hlim).mp hj
      have hafter : start ≤ e.start := by
        by_contra hbefore
        have : v.find start = some j :=
          (find_eq_some ho hlim).mpr ⟨e, he, by omega, by omega⟩
        rw [hf] at this
        cases this
      cases hfind : v.entries.find? fun e => decide (start ≤ e.start) with
      | none =>
        have := List.find?_eq_none.mp hfind e (List.mem_of_getElem? he)
        simp only [decide_eq_true_eq] at this
        exact this hafter
      | some g =>
        have hbound := hfirst g.start (by rw [hfind]; rfl)
        obtain ⟨_, k, hk, hgk, hmin⟩ := List.find?_eq_some_iff_getElem.mp hfind
        obtain ⟨hjlt, hje⟩ := List.getElem?_eq_some_iff.mp he
        have hkj : k ≤ j := by
          by_contra hjk
          have := hmin j (Nat.lt_of_not_le hjk)
          simp only [hje, Bool.not_eq_true', decide_eq_false_iff_not] at this
          exact this hafter
        have hge : g.start ≤ e.start := by
          rcases Nat.lt_or_eq_of_le hkj with hlt' | rfl
          · have := List.pairwise_iff_getElem.mp ho.apart k j hk hjlt hlt'
            rw [hgk, hje] at this
            omega
          · rw [hgk] at hje
            rw [hje]
        omega
    cases hs : (v.entries.find? fun e => decide (start ≤ e.start)).map (·.start) with
    | none =>
      dsimp only
      exact hnone fun s he => absurd (hs.symm.trans he) (by simp)
    | some s =>
      dsimp only
      by_cases hin : s < saturatingAdd 64 start pageSize
      · rw [if_pos hin, decode_subpage]
        exact trivial
      · rw [if_neg hin, decode_unassigned]
        refine hnone fun s' he => ?_
        obtain rfl := Option.some.inj (hs.symm.trans he)
        exact Nat.le_of_not_lt hin

theorem lookup_promises (ho : v.Ordered limit) (hlim : limit < 2 ^ 64) {pageBits cover : Nat}
    (hcover : cover < 2 ^ 64) {d : Dispatch} (hd : Dispatch.buildDense v pageBits cover = some d)
    {x : Nat} {e : DispatchEntry} (he : d.lookup x = some e) : Promises v x e := by
  unfold Dispatch.buildDense at hd
  split at hd
  · cases hd
  dsimp only at hd
  split at hd
  · cases hd
  obtain rfl := Option.some.inj hd
  unfold Dispatch.lookup at he
  split at he
  · cases he
  rename_i hx
  dsimp only at hx he
  rw [Option.map_eq_some_iff] at he
  obtain ⟨raw, hraw, rfl⟩ := he
  rw [List.getElem?_map, Option.map_eq_some_iff] at hraw
  obtain ⟨page, hpage, rfl⟩ := hraw
  obtain ⟨_, hget⟩ := List.getElem?_eq_some_iff.mp hpage
  rw [List.getElem_range] at hget
  subst hget
  -- the address lies in the page its upper bits name, and short of the last address there is
  have hdm := Nat.div_add_mod x (2 ^ pageBits)
  refine pageWord_promises ho hlim ?_ ?_
  · rw [Nat.shiftRight_eq_div_pow, Nat.shiftLeft_eq, Nat.mul_comm]
    omega
  · rw [Nat.shiftRight_eq_div_pow, Nat.shiftLeft_eq, Nat.one_shiftLeft, Nat.mul_comm]
    unfold saturatingAdd
    omega

end Pages

/-- A view the source can hold: empty, built, or with an alias slid since. -/
inductive FlatView.Made : FlatView → Prop where
  | empty : FlatView.Made ⟨[]⟩
  | built {cells : Cells} {children : List (Mapping Region)} {limit : Nat}
      {combine : CombinePolicy} {v : FlatView} {index : RebaseIndex} (hlim : limit < 2 ^ 64)
      (h : FlatView.build cells children limit combine = .ok (v, index)) : FlatView.Made v
  | rebased {v : FlatView} (cells : Cells) (index : RebaseIndex) (id : AliasId)
      (h : FlatView.Made v) : FlatView.Made (v.rebase cells index id)

theorem FlatView.Made.ordered {v : FlatView} (h : v.Made) : ∃ limit < 2 ^ 64, v.Ordered limit := by
  induction h with
  | empty => exact ⟨0, by decide, List.Pairwise.nil, by simp, by simp⟩
  | built hlim h => exact ⟨_, hlim, build_ordered hlim h⟩
  | rebased cells index id _ ih =>
    obtain ⟨limit, hlim, ho⟩ := ih
    exact ⟨limit, hlim, SamePlaces.ordered (rebase_places cells index id _) ho⟩

/-- Reached from the view by rebases. -/
def FlatView.Slid : FlatView → FlatView → Prop :=
  Relation.ReflTransGen fun v v' => ∃ cells index id, v' = v.rebase cells index id

theorem FlatView.Slid.places {v v' : FlatView} (h : v.Slid v') : v.SamePlaces v' := by
  induction h with
  | refl => rfl
  | tail _ hstep ih =>
    obtain ⟨cells, index, id, rfl⟩ := hstep
    exact (rebase_places cells index id _).trans ih

theorem FlatView.extent_lt {v : FlatView} : v.extent < 2 ^ 64 := by
  unfold FlatView.extent
  cases v.entries.getLast? with
  | none => exact Nat.two_pow_pos 64
  | some e => exact Nat.mod_lt _ (Nat.two_pow_pos 64)

/--
**The dense table never changes an answer.** For every view, every policy and every
address, with the table built from that view in front of it, `locate` answers what `find`
does; and it still does after any windows have been slid, which leaves the table as it is.
-/
theorem locate_eq_find {v v' : FlatView} (hv : v.Made) (hslid : v.Slid v')
    (policy : DispatchPolicy) (addr : Nat) :
    (SpaceView.mk v' (Dispatch.build v policy)).locate addr = v'.find addr := by
  obtain ⟨limit, hlim, ho⟩ := hv.ordered
  have hsame := SamePlaces.find hslid.places ho hlim addr
  -- whatever the table answers, it promises
  have hpromise : ∀ d, Dispatch.build v policy = some d → ∀ e, d.lookup addr = some e →
      Promises v addr e := by
    intro d hd e he
    cases policy with
    | flat => exact absurd hd (by simp [Dispatch.build])
    | dense pageBits cover => exact lookup_promises ho hlim cover.toNat_lt hd he
    | auto =>
      unfold Dispatch.build at hd
      dsimp only at hd
      split at hd
      · cases hd
      · exact lookup_promises ho hlim FlatView.extent_lt hd he
  unfold SpaceView.locate
  cases hd : Dispatch.build v policy with
  | none => rfl
  | some d =>
    rw [Option.bind_some]
    cases he : d.lookup addr with
    | none => rfl
    | some e =>
      have hp := hpromise d hd e he
      cases e with
      | subPage => rfl
      | unassigned => exact (hsame.trans hp).symm
      | mapped i => exact (hsame.trans hp).symm
      | direct i => exact (hsame.trans hp).symm

/-- A cartridge slot on sixteen-byte pages: the table ends in the middle of one. -/
theorem locate_slot : ∃ v index, FlatView.build (fun _ => 0) slotMappings 0x10000 .priority
      = .ok (v, index)
    ∧ (SpaceView.mk v (Dispatch.build v (.dense 4 0x1008))).locate 0x1007 = v.find 0x1007 := by
  have hbuilt : ∃ v index, FlatView.build (fun _ => 0) slotMappings 0x10000 .priority
      = .ok (v, index) := build_ok slot_mapped
  obtain ⟨v, index, hb⟩ := hbuilt
  exact ⟨v, index, hb, locate_eq_find (.built (by decide) hb) .refl _ _⟩

end Rsemu.Space
