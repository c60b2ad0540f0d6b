import Rsemu.Clock.Forest

/-!
# What recomputing a tree does

`recomputeTree` is the one place derived state is rebuilt, and every topology
change ends in it. `recomputeTree_ok` says everything a successful recomputation
can have done, as one structure: which domains were written, with what, and what
became of the oscillator. Every invariant of the forest is derived from it, and
nothing else unfolds the four loops.
-/

namespace Rsemu.Clock

open Word Forest

namespace ClockForest

section Update

variable (f : ClockForest)

@[simp] theorem modDom_osc (i : DomainId) (g : ClockDomain → ClockDomain) (o : OscillatorId) :
    (f.modDom i g).osc o = f.osc o := rfl

@[simp] theorem modDom_oscillators (i : DomainId) (g : ClockDomain → ClockDomain) :
    (f.modDom i g).oscillators = f.oscillators := rfl

@[simp] theorem modDom_length (i : DomainId) (g : ClockDomain → ClockDomain) :
    (f.modDom i g).domains.length = f.domains.length := by simp [modDom]

@[simp] theorem modOsc_dom (i : OscillatorId) (g : Oscillator → Oscillator) (d : DomainId) :
    (f.modOsc i g).dom d = f.dom d := rfl

@[simp] theorem modOsc_domains (i : OscillatorId) (g : Oscillator → Oscillator) :
    (f.modOsc i g).domains = f.domains := rfl

@[simp] theorem modOsc_length (i : OscillatorId) (g : Oscillator → Oscillator) :
    (f.modOsc i g).oscillators.length = f.oscillators.length := by simp [modOsc]

theorem modDom_dom_self {i : DomainId} (h : i < f.domains.length)
    (g : ClockDomain → ClockDomain) : (f.modDom i g).dom i = g (f.dom i) := by
  simp [dom, modDom, List.getD_eq_getElem?_getD, h]

theorem modDom_dom_ne {i j : DomainId} (h : i ≠ j) (g : ClockDomain → ClockDomain) :
    (f.modDom i g).dom j = f.dom j := by
  simp [dom, modDom, List.getD_eq_getElem?_getD, h]

theorem modOsc_osc_self {i : OscillatorId} (h : i < f.oscillators.length)
    (g : Oscillator → Oscillator) : (f.modOsc i g).osc i = g (f.osc i) := by
  simp [osc, modOsc, List.getD_eq_getElem?_getD, h]

theorem modOsc_osc_ne {i j : OscillatorId} (h : i ≠ j) (g : Oscillator → Oscillator) :
    (f.modOsc i g).osc j = f.osc j := by
  simp [osc, modOsc, List.getD_eq_getElem?_getD, h]

theorem dom_of_length_le {d : DomainId} (h : f.domains.length ≤ d) : f.dom d = default := by
  simp [dom, List.getD_eq_getElem?_getD, List.getElem?_eq_none h]

theorem lt_of_parent {d p : DomainId} (h : f.parent d = some p) : d < f.domains.length := by
  rcases Nat.lt_or_ge d f.domains.length with hlt | hge
  · exact hlt
  · rw [parent, f.dom_of_length_le hge] at h
    exact absurd h (by simp [default, instInhabitedClockDomain.default])

end Update

section ModEach

@[simp] theorem modEach_oscillators :
    ∀ (l : List (DomainId × (ClockDomain → ClockDomain))) (f : ClockForest),
      (f.modEach l).oscillators = f.oscillators
  | [], _ => rfl
  | (i, g) :: rest, f => modEach_oscillators rest (f.modDom i g)

@[simp] theorem modEach_osc (l : List (DomainId × (ClockDomain → ClockDomain))) (f : ClockForest)
    (o : OscillatorId) : (f.modEach l).osc o = f.osc o := by
  simp only [osc, modEach_oscillators]

@[simp] theorem modEach_length :
    ∀ (l : List (DomainId × (ClockDomain → ClockDomain))) (f : ClockForest),
      (f.modEach l).domains.length = f.domains.length
  | [], _ => rfl
  | (i, g) :: rest, f => (modEach_length rest (f.modDom i g)).trans (modDom_length f i g)

theorem modEach_dom_of_notMem :
    ∀ (l : List (DomainId × (ClockDomain → ClockDomain))) (f : ClockForest) {d : DomainId},
      d ∉ l.map Prod.fst → (f.modEach l).dom d = f.dom d
  | [], _, _, _ => rfl
  | (i, g) :: rest, f, d, h => by
    simp only [List.map_cons, List.mem_cons, not_or] at h
    rw [modEach, modEach_dom_of_notMem rest _ h.2, modDom_dom_ne f (Ne.symm h.1)]

theorem modEach_dom_of_mem :
    ∀ (l : List (DomainId × (ClockDomain → ClockDomain))) (f : ClockForest) {d : DomainId}
      {g : ClockDomain → ClockDomain}, (l.map Prod.fst).Nodup → (d, g) ∈ l →
      d < f.domains.length → (f.modEach l).dom d = g (f.dom d)
  | [], _, _, _, _, hm, _ => absurd hm (by simp)
  | (i, g') :: rest, f, d, g, hn, hm, hd => by
    simp only [List.map_cons, List.nodup_cons] at hn
    rcases List.mem_cons.mp hm with he | hm
    · simp only [Prod.mk.injEq] at he
      obtain ⟨rfl, rfl⟩ := he
      rw [modEach, modEach_dom_of_notMem rest _ hn.1, modDom_dom_self f hd]
    · have hne : i ≠ d := by
        rintro rfl
        exact hn.1 (List.mem_map.mpr ⟨_, hm, rfl⟩)
      rw [modEach, modEach_dom_of_mem rest _ hn.2 hm (by simpa using hd), modDom_dom_ne f hne]

theorem modEach_rel {R : ClockDomain → ClockDomain → Prop} (hrefl : ∀ d, R d d)
    (htrans : ∀ a b c, R a b → R b c → R a c) :
    ∀ (l : List (DomainId × (ClockDomain → ClockDomain))) (f : ClockForest),
      (∀ i g, (i, g) ∈ l → ∀ d, R d (g d)) → ∀ d, R (f.dom d) ((f.modEach l).dom d)
  | [], f, _, d => hrefl _
  | (i, g) :: rest, f, h, d => by
    have hrest := modEach_rel hrefl htrans rest (f.modDom i g)
      (fun i' g' hm => h i' g' (List.mem_cons_of_mem _ hm)) d
    refine htrans _ _ _ ?_ hrest
    by_cases hid : i = d
    · subst hid
      by_cases hlt : i < f.domains.length
      · rw [modDom_dom_self f hlt]
        exact h i g (List.mem_cons_self ..) _
      · rw [dom_of_length_le _ (by simpa using Nat.not_lt.mp hlt),
          dom_of_length_le _ (by simpa using Nat.not_lt.mp hlt)]
        exact hrefl _
    · rw [modDom_dom_ne f hid]
      exact hrefl _

end ModEach

/-- The links of a forest, and where its trees hang. -/
structure Struct (f : ClockForest) : Prop where
  /-- Parent and child links agree. -/
  links : Links f.parent f.children
  /-- There is no cycle. -/
  ranked : Ranked f.parent
  /-- A parent is a domain of this forest. -/
  parent_lt : ∀ d p, f.parent d = some p → p < f.domains.length
  /-- A domain is on its parent's tree. -/
  root_eq : ∀ d p, f.parent d = some p → (f.dom p).root = (f.dom d).root
  /-- Every domain is on a tree of this forest. -/
  root_lt : ∀ d, d < f.domains.length → (f.dom d).root < f.oscillators.length
  /-- A domain with no parent is the root of an active oscillator. -/
  top : ∀ d, d < f.domains.length → f.parent d = none →
    (f.osc (f.dom d).root).root = d ∧ (f.osc (f.dom d).root).active = true
  /-- An active oscillator's root is a domain with no parent, on that oscillator's tree. -/
  active : ∀ o, o < f.oscillators.length → (f.osc o).active = true →
    (f.osc o).root < f.domains.length ∧ f.parent (f.osc o).root = none
      ∧ (f.dom (f.osc o).root).root = o
  /-- A retired oscillator's root hangs on another tree. -/
  locked : ∀ o, o < f.oscillators.length → (f.osc o).active = false →
    (f.osc o).root < f.domains.length ∧ f.parent (f.osc o).root ≠ none
  /-- Nothing is rated zero. -/
  rated : ∀ d, d < f.domains.length → 0 < (f.dom d).mul.toNat ∧ 0 < (f.dom d).div.toNat

/-- Two domains hang in a forest the same way. -/
structure SameLinks (a b : ClockDomain) : Prop where
  parent : b.parent = a.parent
  children : b.children = a.children
  root : b.root = a.root
  mul : b.mul = a.mul
  div : b.div = a.div

theorem SameLinks.refl (a : ClockDomain) : SameLinks a a := ⟨rfl, rfl, rfl, rfl, rfl⟩

theorem SameLinks.trans (a b c : ClockDomain) (h : SameLinks a b) (h' : SameLinks b c) :
    SameLinks a c :=
  ⟨h'.parent.trans h.parent, h'.children.trans h.children, h'.root.trans h.root,
    h'.mul.trans h.mul, h'.div.trans h.div⟩

namespace Struct

variable {f : ClockForest}

theorem of_links {g : ClockForest} (h : Struct f) (hlen : g.domains.length = f.domains.length)
    (holen : g.oscillators.length = f.oscillators.length) (hp : g.parent = f.parent)
    (hc : g.children = f.children) (hr : ∀ d, (g.dom d).root = (f.dom d).root)
    (ho : ∀ o, (g.osc o).root = (f.osc o).root ∧ (g.osc o).active = (f.osc o).active)
    (hrated : ∀ d, d < f.domains.length → 0 < (g.dom d).mul.toNat ∧ 0 < (g.dom d).div.toNat) :
    Struct g where
  links := by rw [hp, hc]; exact h.links
  ranked := by rw [hp]; exact h.ranked
  parent_lt := by rw [hp, hlen]; exact h.parent_lt
  root_eq := by
    intro d p hdp
    rw [hp] at hdp
    rw [hr p, hr d]
    exact h.root_eq d p hdp
  root_lt := by
    intro d hlt
    rw [hr d, holen]
    exact h.root_lt d (hlen ▸ hlt)
  top := by
    intro d hlt hdp
    rw [hp] at hdp
    rw [hr d, (ho _).1, (ho _).2]
    exact h.top d (hlen ▸ hlt) hdp
  active := by
    intro o hlt hact
    rw [(ho o).2] at hact
    rw [(ho o).1, hlen, hp, hr _]
    exact h.active o (holen ▸ hlt) hact
  locked := by
    intro o hlt hact
    rw [(ho o).2] at hact
    rw [(ho o).1, hlen, hp]
    exact h.locked o (holen ▸ hlt) hact
  rated := fun d hlt => hrated d (hlen ▸ hlt)

theorem congr {g : ClockForest} (h : Struct f) (hlen : g.domains.length = f.domains.length)
    (holen : g.oscillators.length = f.oscillators.length) (hd : ∀ d, SameLinks (f.dom d) (g.dom d))
    (ho : ∀ o, (g.osc o).root = (f.osc o).root ∧ (g.osc o).active = (f.osc o).active) :
    Struct g := by
  refine h.of_links hlen holen (funext fun d => (hd d).parent) (funext fun d => (hd d).children)
    (fun d => (hd d).root) ho fun d hlt => ?_
  rw [(hd d).mul, (hd d).div]
  exact h.rated d hlt

variable {d : DomainId}

theorem desc_lt {a : DomainId} (ha : a < f.domains.length) (hd : Desc f.parent a d) :
    d < f.domains.length := by
  rcases desc_cases.mp hd with rfl | ⟨p, hp, _⟩
  · exact ha
  · exact f.lt_of_parent hp

theorem desc_root (h : Struct f) {a : DomainId} (hd : Desc f.parent a d) :
    (f.dom d).root = (f.dom a).root := by
  induction hd with
  | refl => rfl
  | tail _ hc ih => rw [← h.root_eq _ _ hc, ih]

theorem subtree_done (h : Struct f) {a : DomainId} (ha : a < f.domains.length) :
    BfsDone f.parent a (f.subtree a) := by
  refine bfs_done h.links h.ranked ?_
  intro out hn hout
  exact length_le_of_nodup_lt hn fun d hd => desc_lt ha (hout d hd)

theorem mem_subtree (h : Struct f) {a : DomainId} (ha : a < f.domains.length) :
    d ∈ f.subtree a ↔ Desc f.parent a d := (h.subtree_done ha).mem d

theorem root_active (h : Struct f) (hd : d < f.domains.length) :
    (f.osc (f.dom d).root).active = true ∧ Desc f.parent (f.osc (f.dom d).root).root d := by
  obtain ⟨r, hr, hrd⟩ := exists_root h.ranked d
  have hrlt : r < f.domains.length := by
    rcases desc_cases.mp hrd with rfl | ⟨p, hp, hd'⟩
    · exact hd
    · rcases desc_cases.mp hd' with rfl | ⟨q, hq, _⟩
      · exact h.parent_lt _ _ hp
      · obtain ⟨c, hc, hrc⟩ := Relation.ReflTransGen.cases_head hrd |>.resolve_left (by
          rintro rfl; rw [hr] at hp; exact absurd hp (by simp))
        exact h.parent_lt _ _ hc
  have htop := h.top r hrlt hr
  rw [h.desc_root hrd, htop.1]
  exact ⟨htop.2, hrd⟩

theorem mem_tree (h : Struct f) {o : OscillatorId} (ho : o < f.oscillators.length)
    (hact : (f.osc o).active = true) :
    d ∈ f.subtree (f.osc o).root ↔ d < f.domains.length ∧ (f.dom d).root = o := by
  obtain ⟨hlt, _, hroot⟩ := h.active o ho hact
  rw [h.mem_subtree hlt]
  constructor
  · intro hd
    exact ⟨desc_lt hlt hd, (h.desc_root hd).trans hroot⟩
  · rintro ⟨hd, rfl⟩
    exact (h.root_active hd).2

end Struct

variable {order : List DomainId}

theorem ratiosLoop_ok {f : ClockForest} :
    ∀ (rest : List DomainId) {ratios out : List Rational},
      f.ratiosLoop order rest ratios = .ok out →
      ∃ ext, out = ratios ++ ext ∧ ext.length = rest.length
        ∧ ∀ (i : Nat) (d : DomainId), rest[i]? = some d → ∃ r, ext[i]? = some r
          ∧ (f.parent d = none → r = Rational.one)
          ∧ ∀ p, f.parent d = some p → ∃ (k : Nat) (rp : Rational),
            order[k]? = some p ∧ k < ratios.length + i ∧ out[k]? = some rp
            ∧ r.toQ = rp.toQ * (((f.dom d).mul.toNat : ℚ) / ((f.dom d).div.toNat : ℚ))
  | [], ratios, out, h => by
    refine ⟨[], ?_, rfl, ?_⟩
    · rw [ratiosLoop] at h
      rw [List.append_nil]
      exact (Except.ok.inj h).symm
    · intro i d hd
      exact absurd hd (by simp)
  | id :: rest, ratios, out, h => by
    -- both surviving branches push one ratio and go on
    have key : ∀ r, f.ratiosLoop order rest (ratios ++ [r]) = .ok out →
        (f.parent id = none → r = Rational.one) →
        (∀ p, f.parent id = some p → ∃ (k : Nat) (rp : Rational),
          order[k]? = some p ∧ ratios[k]? = some rp
          ∧ r.toQ = rp.toQ * (((f.dom id).mul.toNat : ℚ) / ((f.dom id).div.toNat : ℚ))) →
        ∃ ext, out = ratios ++ ext ∧ ext.length = (id :: rest).length
          ∧ ∀ (i : Nat) (d : DomainId), (id :: rest)[i]? = some d → ∃ r, ext[i]? = some r
            ∧ (f.parent d = none → r = Rational.one)
            ∧ ∀ p, f.parent d = some p → ∃ (k : Nat) (rp : Rational),
              order[k]? = some p ∧ k < ratios.length + i ∧ out[k]? = some rp
              ∧ r.toQ = rp.toQ * (((f.dom d).mul.toNat : ℚ) / ((f.dom d).div.toNat : ℚ)) := by
      intro r hrec hnone hsome
      obtain ⟨ext, hout, hlen, hall⟩ := ratiosLoop_ok rest hrec
      refine ⟨r :: ext, by rw [hout]; simp, by simp [hlen], ?_⟩
      intro i d hd
      cases i with
      | zero =>
        simp only [List.getElem?_cons_zero, Option.some.injEq] at hd
        subst hd
        refine ⟨r, rfl, hnone, ?_⟩
        intro p hp
        obtain ⟨k, rp, hk, hrp, hq⟩ := hsome p hp
        have hlt : k < ratios.length := (List.getElem?_eq_some_iff.mp hrp).1
        refine ⟨k, rp, hk, by omega, ?_, hq⟩
        rw [hout, List.append_assoc, List.getElem?_append_left hlt]
        exact hrp
      | succ i =>
        simp only [List.getElem?_cons_succ] at hd
        obtain ⟨r', hr', h1, h2⟩ := hall i d hd
        refine ⟨r', hr', h1, ?_⟩
        intro p hp
        obtain ⟨k, rp, hk, hlt, hrp, hq⟩ := h2 p hp
        refine ⟨k, rp, hk, ?_, hrp, hq⟩
        simp only [List.length_append, List.length_singleton] at hlt
        omega
    rw [ratiosLoop] at h
    split at h
    · rename_i hp
      exact key _ h (fun _ => rfl) (fun p hp' => by
        rw [parent, hp] at hp'; exact absurd hp' (by simp))
    · rename_i p hp
      split at h
      · exact absurd h (by simp)
      · rename_i pi hpi
        split at h
        · exact absurd h (by simp)
        · rename_i rp hrp
          split at h
          · exact absurd h (by simp)
          · rename_i r' hr'
            refine key r' h (fun hn => by rw [parent, hp] at hn; exact absurd hn (by simp)) ?_
            intro p' hp'
            rw [parent, hp] at hp'
            obtain rfl := Option.some.inj hp'
            refine ⟨pi, rp, ?_, hrp, Rational.checkedScale_toQ hr'⟩
            obtain ⟨hlt, heq, _⟩ := List.findIdx?_eq_some_iff_getElem.mp hpi
            rw [List.getElem?_eq_getElem hlt]
            simpa using heq

theorem ratiosLoop_pos {f : ClockForest}
    (hrated : ∀ d ∈ order, 0 < (f.dom d).mul.toNat ∧ 0 < (f.dom d).div.toNat) {out : List Rational}
    (h : f.ratiosLoop order order [] = .ok out) :
    ∀ (i : Nat) (r : Rational), out[i]? = some r → 0 < r.num := by
  obtain ⟨ext, hout, hlen, hall⟩ := ratiosLoop_ok order h
  subst hout
  intro i
  induction i using Nat.strongRecOn with
  | ind i ih =>
    intro r hr
    have hlt : i < order.length := by
      rw [← hlen]; exact (List.getElem?_eq_some_iff.mp hr).1
    obtain ⟨r', hr', h1, h2⟩ := hall i order[i] (List.getElem?_eq_getElem hlt)
    rw [hr] at hr'
    obtain rfl := Option.some.inj hr'
    cases hp : f.parent order[i] with
    | none => rw [h1 hp]; decide
    | some p =>
      obtain ⟨k, rp, _, hki, hrp, hq⟩ := h2 p hp
      have hrated' := hrated order[i] (List.getElem_mem hlt)
      have hkpos := ih k (by simpa using hki) rp hrp
      have hpos : 0 < r.toQ := by
        rw [hq]
        exact mul_pos (Rational.toQ_pos hkpos)
          (div_pos (Nat.cast_pos.mpr hrated'.1) (Nat.cast_pos.mpr hrated'.2))
      rcases Nat.eq_zero_or_pos r.num with h0 | h0
      · rw [Rational.toQ_eq_zero.mpr h0] at hpos
        exact absurd hpos (lt_irrefl _)
      · exact h0

theorem lcmLoop_ok {names : List String} :
    ∀ (rs : List Rational) {a out : Nat}, lcmLoop names rs a = .ok out → 0 < a → a < 2 ^ 64 →
      (∀ r ∈ rs, 0 < r.num) → a ∣ out ∧ 0 < out ∧ out < 2 ^ 64 ∧ ∀ r ∈ rs, r.num ∣ out
  | [], a, out, h, ha, hlt, _ => by
    rw [lcmLoop] at h
    obtain rfl := Except.ok.inj h
    exact ⟨dvd_refl _, ha, hlt, by simp⟩
  | r :: rest, a, out, h, ha, hlt, hpos => by
    rw [lcmLoop] at h
    split at h
    · exact absurd h (by simp)
    · rename_i a' ha'
      have hr : 0 < r.num := hpos r (List.mem_cons_self ..)
      obtain ⟨rfl, hlt'⟩ := checkedLcm_eq ha hr ha'
      obtain ⟨h1, h2, h3, h4⟩ := lcmLoop_ok rest h (Nat.lcm_pos ha hr) hlt'
        (fun r' hr' => hpos r' (List.mem_cons_of_mem _ hr'))
      refine ⟨dvd_trans (Nat.dvd_lcm_left _ _) h1, h2, h3, ?_⟩
      intro r' hr'
      rcases List.mem_cons.mp hr' with rfl | hr'
      · exact dvd_trans (Nat.dvd_lcm_right _ _) h1
      · exact h4 r' hr'

theorem ksLoop_ok {names : List String} {a : Nat} :
    ∀ (rs : List Rational) {ks : List Nat}, ksLoop names a rs = .ok ks →
      ks.length = rs.length
        ∧ ∀ (i : Nat) (r : Rational), rs[i]? = some r →
          ∃ k, ks[i]? = some k ∧ k = a / r.num * r.den ∧ k < 2 ^ 64
  | [], ks, h => by
    rw [ksLoop] at h
    obtain rfl := Except.ok.inj h
    exact ⟨rfl, by simp⟩
  | r :: rest, ks, h => by
    rw [ksLoop] at h
    split at h
    · exact absurd h (by simp)
    · rename_i k hk
      split at h
      · exact absurd h (by simp)
      · rename_i ks' hks'
        obtain rfl := Except.ok.inj h
        obtain ⟨hlen, hall⟩ := ksLoop_ok rest hks'
        obtain ⟨hlt, rfl⟩ := checkedMul_eq_some.mp hk
        refine ⟨by simp [hlen], ?_⟩
        intro i r' hr'
        cases i with
        | zero =>
          simp only [List.getElem?_cons_zero, Option.some.injEq] at hr'
          subst hr'
          exact ⟨_, rfl, rfl, hlt⟩
        | succ i => exact hall i r' hr'

theorem basesLoop_ok {f : ClockForest} {names : List String} {fac : Nat} :
    ∀ (ids : List DomainId) {bs : List (Nat × Nat)}, f.basesLoop names fac ids = .ok bs →
      bs.length = ids.length
        ∧ ∀ (i : Nat) (d : DomainId), ids[i]? = some d →
          bs[i]? = some ((f.dom d).baseUnit * fac, (f.dom d).own * fac)
            ∧ (f.dom d).baseUnit * fac < 2 ^ 64 ∧ (f.dom d).own * fac < 2 ^ 64
  | [], bs, h => by
    rw [basesLoop] at h
    obtain rfl := Except.ok.inj h
    exact ⟨rfl, by simp⟩
  | id :: rest, bs, h => by
    rw [basesLoop] at h
    split at h
    · exact absurd h (by simp)
    · rename_i b hb
      split at h
      · exact absurd h (by simp)
      · rename_i o ho
        split at h
        · exact absurd h (by simp)
        · rename_i bs' hbs'
          obtain rfl := Except.ok.inj h
          obtain ⟨hlen, hall⟩ := basesLoop_ok rest hbs'
          obtain ⟨hblt, rfl⟩ := checkedMul_eq_some.mp hb
          obtain ⟨holt, rfl⟩ := checkedMul_eq_some.mp ho
          refine ⟨by simp [hlen], ?_⟩
          intro i d hd
          cases i with
          | zero =>
            simp only [List.getElem?_cons_zero, Option.some.injEq] at hd
            subst hd
            exact ⟨rfl, hblt, holt⟩
          | succ i => exact hall i d hd

/--
Everything a successful recomputation of `o`'s tree did. `fac` is by how much the
unit tick was refined: every absolute position on the tree is multiplied by it.
-/
structure Recomputed (f : ClockForest) (o : OscillatorId) (f' : ClockForest) (fac : Nat) :
    Prop where
  fac_pos : 0 < fac
  length : f'.domains.length = f.domains.length
  oscillators_length : f'.oscillators.length = f.oscillators.length
  /-- No other oscillator is touched. -/
  osc_ne : ∀ o', o' ≠ o → f'.osc o' = f.osc o'
  /-- The oscillator starts a new segment at the rescaled position. -/
  osc_eq : ∃ rate : Rational, rate.toQ = (f.osc o).freq.toQ * (((f.osc o).unitMul * fac : Nat) : ℚ)
    ∧ f'.osc o = commitOsc ((f.osc o).units * fac) ((f.osc o).unitMul * fac) rate (f.osc o)
  units_lt : (f.osc o).units * fac < 2 ^ 64
  unitMul_lt : (f.osc o).unitMul * fac < 2 ^ 64
  /-- No domain of another tree is touched. -/
  dom_notMem : ∀ d, d ∉ f.subtree (f.osc o).root → f'.dom d = f.dom d
  /-- Every domain of the tree gets its ratio, its tick and its rescaled anchors. -/
  dom_mem : ∀ d, d ∈ f.subtree (f.osc o).root → ∃ (r : Rational) (k : Nat),
    f'.dom d = commitDomain ⟨r, k, ((f.dom d).baseUnit * fac, (f.dom d).own * fac)⟩ (f.dom d)
      ∧ 0 < r.num ∧ r.num ∣ (f.osc o).unitMul * fac
      ∧ k = (f.osc o).unitMul * fac / r.num * r.den ∧ k < 2 ^ 64
      ∧ (f.dom d).baseUnit * fac < 2 ^ 64 ∧ (f.dom d).own * fac < 2 ^ 64
  ratio_root : ∀ d, d ∈ f.subtree (f.osc o).root → f.parent d = none →
    (f'.dom d).ratio = Rational.one
  ratio_child : ∀ d p, d ∈ f.subtree (f.osc o).root → f.parent d = some p →
    (f'.dom d).ratio.toQ
      = (f'.dom p).ratio.toQ * (((f.dom d).mul.toNat : ℚ) / ((f.dom d).div.toNat : ℚ))

theorem bind_eq_ok {α β : Type} {x : ClockResult α} {g : α → ClockResult β} {r : β}
    (h : x >>= g = .ok r) : ∃ a, x = .ok a ∧ g a = .ok r := by
  cases x with
  | error e => exact absurd h (by simp [Bind.bind, Except.bind])
  | ok a => exact ⟨a, rfl, h⟩

theorem okOr_eq_ok {α : Type} {e : ClockError} {x : Option α} {a : α} (h : okOr e x = .ok a) :
    x = some a := by
  cases x with
  | none => exact absurd h (by simp [okOr])
  | some b => rw [Except.ok.inj h]

theorem derived_fst {ratios : List Rational} {ks : List Nat} {bases : List (Nat × Nat)}
    (hr : ratios.length = order.length) (hk : ks.length = order.length)
    (hb : bases.length = order.length) : (derived order ratios ks bases).map Prod.fst = order := by
  unfold derived
  rw [List.map_fst_zip]
  simp [hr, hk, hb]

theorem mem_derived {ratios : List Rational} {ks : List Nat} {bases : List (Nat × Nat)} {i : Nat}
    {d : DomainId} {r : Rational} {k : Nat} {b : Nat × Nat} (hd : order[i]? = some d)
    (hr : ratios[i]? = some r) (hk : ks[i]? = some k) (hb : bases[i]? = some b) :
    (d, (⟨r, k, b⟩ : Derived)) ∈ derived order ratios ks bases := by
  refine List.mem_iff_getElem?.mpr ⟨i, ?_⟩
  obtain ⟨b, o⟩ := b
  simp [derived, List.getElem?_zip_eq_some, hd, hr, hk, hb]

section Recompute

variable {f f' : ClockForest} {o : OscillatorId}

theorem recomputeTree_ok (hs : Struct f) (ho : o < f.oscillators.length)
    (hact : (f.osc o).active = true) (hpos : 0 < (f.osc o).unitMul)
    (hlt : (f.osc o).unitMul < 2 ^ 64) (h : f.recomputeTree o = .ok f') :
    ∃ fac, Recomputed f o f' fac := by
  have htop := hs.active o ho hact
  have hdone := hs.subtree_done htop.1
  have hmemlt : ∀ d ∈ f.subtree (f.osc o).root, d < f.domains.length :=
    fun d hd => Struct.desc_lt htop.1 ((hdone.mem d).mp hd)
  obtain ⟨ratios, hratios, h⟩ := bind_eq_ok h
  obtain ⟨a, ha, h⟩ := bind_eq_ok h
  obtain ⟨ks, hks, h⟩ := bind_eq_ok h
  obtain ⟨newUnits, hunits, h⟩ := bind_eq_ok h
  obtain ⟨bases, hbases, h⟩ := bind_eq_ok h
  obtain ⟨unitRate, hrate, h⟩ := bind_eq_ok h
  obtain rfl := Except.ok.inj h
  have hrpos := ratiosLoop_pos (fun d hd => hs.rated d (hmemlt d hd)) hratios
  obtain ⟨ext, hext, hrlen, hrall⟩ := ratiosLoop_ok _ hratios
  subst hext
  have hrpos' : ∀ r ∈ ratios, 0 < r.num := by
    intro r hr
    obtain ⟨i, hi⟩ := List.mem_iff_getElem?.mp hr
    exact hrpos i r hi
  obtain ⟨hdvd, hapos, halt, hnum⟩ := lcmLoop_ok _ ha hpos hlt hrpos'
  obtain ⟨hklen, hkall⟩ := ksLoop_ok _ hks
  obtain ⟨hblen, hball⟩ := basesLoop_ok _ hbases
  have hfac : (f.osc o).unitMul * (a / (f.osc o).unitMul) = a := Nat.mul_div_cancel' hdvd
  have hu : (f.osc o).units * (a / (f.osc o).unitMul) < 2 ^ 64
      ∧ newUnits = (f.osc o).units * (a / (f.osc o).unitMul) :=
    checkedMul_eq_some.mp (okOr_eq_ok hunits)
  have hq : unitRate.toQ = (f.osc o).freq.toQ * (a : ℚ) := by
    rw [Rational.checkedMul_toQ (okOr_eq_ok hrate), Rational.toQ_integer,
      UInt64.toNat_ofNat_of_lt' halt]
  have hfst : (derived (f.subtree (f.osc o).root) ratios ks bases).map Prod.fst
      = f.subtree (f.osc o).root := derived_fst hrlen (hklen.trans hrlen) hblen
  have hnodup : (((derived (f.subtree (f.osc o).root) ratios ks bases).map
      fun v => (v.1, commitDomain v.2)).map Prod.fst).Nodup := by
    rw [List.map_map]
    exact (congrArg List.Nodup hfst).mpr hdone.nodup
  -- what each domain of the order receives, by its place in the order
  have hdom : ∀ (i : Nat) (d : DomainId) (r : Rational),
      (f.subtree (f.osc o).root)[i]? = some d → ratios[i]? = some r → ∃ k,
        (commitAll (derived (f.subtree (f.osc o).root) ratios ks bases) f).dom d
          = commitDomain ⟨r, k, ((f.dom d).baseUnit * (a / (f.osc o).unitMul),
              (f.dom d).own * (a / (f.osc o).unitMul))⟩ (f.dom d)
        ∧ k = a / r.num * r.den ∧ k < 2 ^ 64
        ∧ (f.dom d).baseUnit * (a / (f.osc o).unitMul) < 2 ^ 64
        ∧ (f.dom d).own * (a / (f.osc o).unitMul) < 2 ^ 64 := by
    intro i d r hd hr
    obtain ⟨k, hk, hkeq, hklt⟩ := hkall i r hr
    obtain ⟨hb, hblt, holt⟩ := hball i d hd
    refine ⟨k, ?_, hkeq, hklt, hblt, holt⟩
    refine modEach_dom_of_mem _ f hnodup ?_ (hmemlt d (List.mem_of_getElem? hd))
    exact List.mem_map.mpr ⟨_, mem_derived hd hr hk hb, rfl⟩
  have hratio : ∀ (i : Nat) (d : DomainId) (r : Rational),
      (f.subtree (f.osc o).root)[i]? = some d → ratios[i]? = some r →
        ((commitAll (derived (f.subtree (f.osc o).root) ratios ks bases) f).dom d).ratio = r := by
    intro i d r hd hr
    obtain ⟨k, hk, _⟩ := hdom i d r hd hr
    rw [hk]
    rfl
  refine ⟨a / (f.osc o).unitMul, ?_⟩
  exact
    { fac_pos := Nat.div_pos (Nat.le_of_dvd hapos hdvd) hpos
      length := by simp [commitAll]
      oscillators_length := by simp [commitAll]
      osc_ne := by
        intro o' hne
        rw [modOsc_osc_ne _ (Ne.symm hne), commitAll, modEach_osc]
      osc_eq := by
        refine ⟨unitRate, by rw [hfac]; exact hq, ?_⟩
        rw [modOsc_osc_self _ (by simpa [commitAll] using ho), commitAll, modEach_osc, hfac, hu.2]
      units_lt := hu.1
      unitMul_lt := by rw [hfac]; exact halt
      dom_notMem := by
        intro d hd
        refine modEach_dom_of_notMem _ f ?_
        rw [List.map_map]
        exact fun hm => hd (hfst ▸ hm)
      dom_mem := by
        intro d hd
        obtain ⟨i, hi⟩ := List.mem_iff_getElem?.mp hd
        obtain ⟨r, hr, _⟩ := hrall i d hi
        obtain ⟨k, h1, h2, h3, h4, h5⟩ := hdom i d r hi hr
        rw [hfac, modOsc_dom]
        exact ⟨r, k, h1, hrpos i r hr, hnum r (List.mem_of_getElem? hr), h2, h3, h4, h5⟩
      ratio_root := by
        intro d hd hp
        obtain ⟨i, hi⟩ := List.mem_iff_getElem?.mp hd
        obtain ⟨r, hr, h1, _⟩ := hrall i d hi
        rw [modOsc_dom, hratio i d r hi hr, h1 hp]
      ratio_child := by
        intro d p hd hp
        obtain ⟨i, hi⟩ := List.mem_iff_getElem?.mp hd
        obtain ⟨r, hr, _, h2⟩ := hrall i d hi
        obtain ⟨j, rp, hj, _, hrp, hq'⟩ := h2 p hp
        rw [modOsc_dom, modOsc_dom, hratio i d r hi hr, hratio j p rp hj hrp, hq'] }

end Recompute

end ClockForest

end Rsemu.Clock
