import Rsemu.Clock.Topology

/-!
# Hanging a domain on the forest

`add_domain` hangs a new domain and `reparent` moves one with everything below it;
`lock_oscillator` is the second with a crystal's root. All three push one node at
the end of one list. `Struct.hang` says the result is a forest again, whatever tree
the node came from, and whether or not a crystal was retired by it.
-/

namespace Rsemu.Clock

open Word Forest

namespace ClockForest

/--
`g` is `f` with `c` hung under `np`. The subtree of `c` is on `np`'s tree, and the
crystal `c` was the root of, if it was one, is retired.
-/
structure Hung (f g : ClockForest) (c np : DomainId) : Prop where
  length_le : f.domains.length ≤ g.domains.length
  lt_length : ∀ d, d < g.domains.length → d = c ∨ d < f.domains.length
  self_lt : c < g.domains.length
  oscillators_length : g.oscillators.length = f.oscillators.length
  parent : ∀ d, g.parent d = if d = c then some np else f.parent d
  children : ∀ q, g.children q
    = (if f.parent c = some q then (f.children q).filter (· ≠ c) else f.children q)
      ++ if q = np then [c] else []
  root_in : ∀ d, d < g.domains.length → Desc f.parent c d → (g.dom d).root = (f.dom np).root
  root_out : ∀ d, d < g.domains.length → ¬ Desc f.parent c d → (g.dom d).root = (f.dom d).root
  osc_root : ∀ o, (g.osc o).root = (f.osc o).root
  active : ∀ o, (g.osc o).active = true ↔ (f.osc o).active = true
    ∧ ¬ (f.parent c = none ∧ c < f.domains.length ∧ o = (f.dom c).root)
  rated : ∀ d, d < g.domains.length → 0 < (g.dom d).mul.toNat ∧ 0 < (g.dom d).div.toNat

theorem Struct.hang {f g : ClockForest} {c np : DomainId} (h : Struct f) (hg : Hung f g c np)
    (hnp : np < f.domains.length) (hnd : ¬ Desc f.parent c np) : Struct g := by
  have hpar : g.parent = fun d => if d = c then some np else f.parent d := funext hg.parent
  have hpar_ne : ∀ d, d ≠ c → g.parent d = f.parent d := by
    intro d hd
    rw [hg.parent, if_neg hd]
  have hpar_c : g.parent c = some np := by rw [hg.parent, if_pos rfl]
  have hnp' : np < g.domains.length := Nat.lt_of_lt_of_le hnp hg.length_le
  exact
    { links := by
        rw [hpar, show g.children = _ from funext hg.children]
        exact h.links.reparent
      ranked := by
        rw [hpar]
        exact h.ranked.reparent hnd
      parent_lt := by
        intro d p hp
        by_cases hd : d = c
        · subst hd
          rw [hpar_c] at hp
          obtain rfl := Option.some.inj hp
          exact hnp'
        · rw [hpar_ne d hd] at hp
          exact Nat.lt_of_lt_of_le (h.parent_lt d p hp) hg.length_le
      root_eq := by
        intro d p hp
        by_cases hd : d = c
        · subst hd
          rw [hpar_c] at hp
          obtain rfl := Option.some.inj hp
          rw [hg.root_in d hg.self_lt (Desc.refl d), hg.root_out np hnp' hnd]
        · rw [hpar_ne d hd] at hp
          have hdlt : d < g.domains.length := Nat.lt_of_lt_of_le (f.lt_of_parent hp) hg.length_le
          have hplt : p < g.domains.length :=
            Nat.lt_of_lt_of_le (h.parent_lt d p hp) hg.length_le
          by_cases hdesc : Desc f.parent c p
          · rw [hg.root_in p hplt hdesc, hg.root_in d hdlt (hdesc.child hp)]
          · rw [hg.root_out p hplt hdesc,
              hg.root_out d hdlt fun hd' => hdesc (desc_parent hd' hd hp)]
            exact h.root_eq d p hp
      root_lt := by
        intro d hd
        rw [hg.oscillators_length]
        by_cases hdesc : Desc f.parent c d
        · rw [hg.root_in d hd hdesc]
          exact h.root_lt np hnp
        · rw [hg.root_out d hd hdesc]
          rcases hg.lt_length d hd with rfl | hd'
          · exact absurd (Desc.refl d) hdesc
          · exact h.root_lt d hd'
      top := by
        intro d hd hp
        have hdc : d ≠ c := by
          rintro rfl
          rw [hpar_c] at hp
          cases hp
        rw [hpar_ne d hdc] at hp
        have hd' := (hg.lt_length d hd).resolve_left hdc
        have hdesc : ¬ Desc f.parent c d := fun hdesc => hdc (Forest.desc_root hdesc hp).symm
        obtain ⟨htop, hact⟩ := h.top d hd' hp
        rw [hg.root_out d hd hdesc, hg.osc_root, hg.active]
        refine ⟨htop, hact, ?_⟩
        rintro ⟨hcp, hclt, hroot⟩
        rw [hroot] at htop
        exact hdc (htop.symm.trans (h.top c hclt hcp).1)
      active := by
        intro o ho hact
        rw [hg.oscillators_length] at ho
        obtain ⟨hact, hkeep⟩ := (hg.active o).mp hact
        obtain ⟨hlt, hp, hroot⟩ := h.active o ho hact
        rw [hg.osc_root]
        have hne : (f.osc o).root ≠ c := by
          rintro rfl
          exact hkeep ⟨hp, hlt, hroot.symm⟩
        have hlt' := Nat.lt_of_lt_of_le hlt hg.length_le
        have hdesc : ¬ Desc f.parent c (f.osc o).root :=
          fun hdesc => hne (Forest.desc_root hdesc hp).symm
        rw [hpar_ne _ hne, hg.root_out _ hlt' hdesc]
        exact ⟨hlt', hp, hroot⟩
      locked := by
        intro o ho hact
        rw [hg.oscillators_length] at ho
        rw [hg.osc_root]
        by_cases hold : (f.osc o).active = true
        · -- it was retired just now, so its root is the domain that moved
          have hret : f.parent c = none ∧ c < f.domains.length ∧ o = (f.dom c).root := by
            by_contra hkeep
            have := (hg.active o).mpr ⟨hold, hkeep⟩
            rw [hact] at this
            cases this
          obtain ⟨hcp, hclt, rfl⟩ := hret
          rw [(h.top c hclt hcp).1, hpar_c]
          exact ⟨hg.self_lt, by simp⟩
        · obtain ⟨hlt, hp⟩ := h.locked o ho (by simpa using hold)
          refine ⟨Nat.lt_of_lt_of_le hlt hg.length_le, ?_⟩
          by_cases hc : (f.osc o).root = c
          · rw [hc, hpar_c]
            simp
          · rw [hpar_ne _ hc]
            exact hp
      rated := hg.rated }

/-! ## A new domain -/

section Add

variable {f : ClockForest} {name : String} {parent : DomainId} {mul div : UInt64}

theorem linkDomain_dom {d : DomainId} (hd : d < f.domains.length) :
    SameClock (f.dom d) ((f.linkDomain name parent mul div).dom d)
      ∧ ((f.linkDomain name parent mul div).dom d).parent = (f.dom d).parent
      ∧ ((f.linkDomain name parent mul div).dom d).mul = (f.dom d).mul
      ∧ ((f.linkDomain name parent mul div).dom d).div = (f.dom d).div
      ∧ ((f.linkDomain name parent mul div).dom d).children
        = (f.dom d).children ++ if d = parent then [f.domains.length] else [] := by
  unfold linkDomain
  have hpush : ({ f with domains := f.domains ++ [f.freshDomain name parent mul div] } :
      ClockForest).dom d = f.dom d := push_dom _ _ hd
  by_cases hp : d = parent
  · subst hp
    rw [modDom_dom_self _ (Nat.lt_of_lt_of_le hd (by simp)), hpush, if_pos rfl]
    exact ⟨⟨rfl, rfl, rfl, rfl, rfl, rfl, rfl⟩, rfl, rfl, rfl, rfl⟩
  · rw [modDom_dom_ne _ (Ne.symm hp), hpush, if_neg hp, List.append_nil]
    exact ⟨SameClock.refl _, rfl, rfl, rfl, rfl⟩

theorem linkDomain_dom_self (hp : parent < f.domains.length) :
    (f.linkDomain name parent mul div).dom f.domains.length
      = f.freshDomain name parent mul div := by
  unfold linkDomain
  rw [modDom_dom_ne _ (Nat.ne_of_lt hp)]
  exact push_dom_self _ _

theorem linkDomain_length :
    (f.linkDomain name parent mul div).domains.length = f.domains.length + 1 := by
  simp [linkDomain]

theorem desc_length (hs : Struct f) {d : DomainId} : Desc f.parent f.domains.length d ↔
    d = f.domains.length := by
  refine ⟨fun h => ?_, fun h => h ▸ Desc.refl _⟩
  induction h with
  | refl => rfl
  | tail _ hc ih =>
    subst ih
    exact absurd (hs.parent_lt _ _ hc) (Nat.lt_irrefl _)

theorem linkDomain_hung (hs : Struct f) (hp : parent < f.domains.length) (hm : mul ≠ 0)
    (hv : div ≠ 0) : Hung f (f.linkDomain name parent mul div) f.domains.length parent := by
  have hnone : f.parent f.domains.length = none := by
    unfold ClockForest.parent
    rw [f.dom_of_length_le (Nat.le_refl _)]
    rfl
  have hself : (f.linkDomain name parent mul div).dom f.domains.length
      = f.freshDomain name parent mul div := linkDomain_dom_self hp
  have hlen : (f.linkDomain name parent mul div).domains.length = f.domains.length + 1 :=
    linkDomain_length
  have hcases : ∀ d, d < (f.linkDomain name parent mul div).domains.length →
      d = f.domains.length ∨ d < f.domains.length := by
    intro d hd
    rw [hlen] at hd
    exact (Nat.lt_or_eq_of_le (Nat.le_of_lt_succ hd)).symm
  refine
    { length_le := by rw [hlen]; exact Nat.le_succ _
      lt_length := hcases
      self_lt := by rw [hlen]; exact Nat.lt_succ_self _
      oscillators_length := rfl
      parent := ?_
      children := ?_
      root_in := ?_
      root_out := ?_
      osc_root := fun _ => rfl
      active := ?_
      rated := ?_ }
  · intro d
    rcases Nat.lt_trichotomy d f.domains.length with hd | hd | hd
    · rw [if_neg (Nat.ne_of_lt hd)]
      exact (linkDomain_dom hd).2.1
    · subst hd
      rw [if_pos rfl]
      exact congrArg ClockDomain.parent hself
    · rw [if_neg (Nat.ne_of_gt hd)]
      unfold ClockForest.parent
      rw [f.dom_of_length_le (Nat.le_of_lt hd), dom_of_length_le _ (by rw [hlen]; exact hd)]
  · intro q
    rw [hnone, if_neg (by simp)]
    rcases Nat.lt_trichotomy q f.domains.length with hq | hq | hq
    · exact (linkDomain_dom hq).2.2.2.2
    · subst hq
      rw [if_neg (Nat.ne_of_gt hp), List.append_nil]
      unfold ClockForest.children
      rw [hself, f.dom_of_length_le (Nat.le_refl _)]
      rfl
    · rw [if_neg (Nat.ne_of_gt (Nat.lt_trans hp hq)), List.append_nil]
      unfold ClockForest.children
      rw [f.dom_of_length_le (Nat.le_of_lt hq), dom_of_length_le _ (by rw [hlen]; exact hq)]
  · intro d _ hd
    rw [desc_length hs] at hd
    subst hd
    rw [hself]
    rfl
  · intro d hlt hd
    rw [desc_length hs] at hd
    exact (linkDomain_dom ((hcases d hlt).resolve_left hd)).1.root
  · intro o
    refine ⟨fun h => ⟨h, fun hc => absurd hc.2.1 (Nat.lt_irrefl _)⟩, And.left⟩
  · intro d hlt
    rcases hcases d hlt with rfl | hd
    · rw [hself]
      exact ⟨Word.toNat_pos hm, Word.toNat_pos hv⟩
    · rw [(linkDomain_dom hd).2.2.1, (linkDomain_dom hd).2.2.2.1]
      exact hs.rated d hd

theorem linkDomain_clean (h : f.Inv) (hp : parent < f.domains.length) (hm : mul ≠ 0)
    (hv : div ≠ 0) :
    (f.linkDomain name parent mul div).Clean (fun d => d ≠ f.domains.length) (fun _ => True)
      ∧ f.Keeps (f.linkDomain name parent mul div) (fun _ => False) := by
  have hs := h.shape
  have hung : Hung f (f.linkDomain name parent mul div) f.domains.length parent :=
    linkDomain_hung hs hp hm hv
  have hself : (f.linkDomain name parent mul div).dom f.domains.length
      = f.freshDomain name parent mul div := linkDomain_dom_self hp
  have hnd : ¬ Desc f.parent f.domains.length parent := by
    rw [desc_length hs]
    exact Nat.ne_of_lt hp
  have hold : ∀ d, d < (f.linkDomain name parent mul div).domains.length →
      d ≠ f.domains.length → d < f.domains.length :=
    fun d hd hne => (hung.lt_length d hd).resolve_left hne
  have hu : (f.linkDomain name parent mul div).treeUnits f.domains.length
      = f.treeUnits parent := by
    unfold treeUnits
    rw [hself]
    rfl
  have hbase : ((f.linkDomain name parent mul div).dom f.domains.length).baseUnit
      = ((f.linkDomain name parent mul div).dom f.domains.length).position
        ((f.linkDomain name parent mul div).treeUnits f.domains.length) := by
    rw [hu, hself]
    exact (Nat.max_zero _).symm
  have hline : ∀ o, SameLine (f.osc o) ((f.linkDomain name parent mul div).osc o) :=
    fun o => SameLine.refl _
  constructor
  · exact
      { shape := hs.hang hung hp hnd
        doms := by
          intro d hd
          by_cases he : d = f.domains.length
          · subst he
            refine ⟨?_, fun _ => Nat.le_of_eq hbase, ?_, ?_, ?_⟩
            · rw [hself]
              exact Nat.one_pos
            · rw [hself]
              exact h.treeUnits_lt hp
            · rw [hself]
              exact Nat.two_pow_pos 64
            · rw [hself]
              exact Nat.two_pow_pos 64
          · exact (linkDomain_dom (hold d hd he)).1.ok (hline _) (h.doms d (hold d hd he))
        oscs := fun o ho => h.oscs o ho
        up := by
          intro d p hd hp'
          rw [hung.parent, if_neg hd] at hp'
          exact Nat.ne_of_lt (hs.parent_lt d p hp')
        rated := by
          intro d hd hne
          have hlt := hold d hd hne
          refine (h.rated d hlt trivial).congr (linkDomain_dom hlt).2.1
            (linkDomain_dom hlt).2.2.1 (linkDomain_dom hlt).2.2.2.1 ?_
          rintro p (rfl | hp')
          · exact (linkDomain_dom hlt).1.ratio
          · exact (linkDomain_dom (hs.parent_lt d p hp')).1.ratio
        ticked := by
          intro d hd hne
          have hlt := hold d hd hne
          rw [(linkDomain_dom hlt).1.root]
          exact (linkDomain_dom hlt).1.ticked (h.ticked d hlt trivial)
        settled := by
          intro d _ hne
          rw [not_not.mp hne]
          exact Or.inr hbase
        tuned := fun o ho hact _ => h.tuned o ho hact trivial }
  · exact ⟨hung.length_le, fun d hd => (linkDomain_dom hd).1.count (hline _),
      fun d hd _ => (linkDomain_dom hd).1.gated,
      fun d hd _ _ => (linkDomain_dom hd).1.secondsToTick (hline _)⟩

theorem addDomain_sound (h : f.Inv) (name : String) (parent : DomainId) (mul div : UInt64) :
    Sound f (fun _ => False) (f.addDomain name parent mul div) := by
  unfold addDomain
  split
  · exact sound_error _
  rename_i hcheck
  have hp := checkDomain_ok hcheck
  split
  · exact sound_error _
  rename_i hz
  obtain ⟨hm, hv⟩ := not_or.mp hz
  obtain ⟨h₁, hk₁⟩ : (f.linkDomain name parent mul div).Clean (fun d => d ≠ f.domains.length)
      (fun _ => True) ∧ f.Keeps (f.linkDomain name parent mul div) (fun _ => False) :=
    linkDomain_clean h hp hm hv
  refine commitOr_sound fun after hafter => ?_
  obtain ⟨h₂, hk₂, _⟩ := recomputeTree_clean h₁ (h.shape.root_lt parent hp)
    (h.shape.root_active hp).1 hafter
  have hroot : ((f.linkDomain name parent mul div).dom f.domains.length).root
      = (f.dom parent).root := by
    rw [linkDomain_dom_self hp]
    rfl
  constructor
  · refine h₂.mono (fun d _ => ⟨fun _ => ?_, fun _ => trivial⟩) (fun _ _ => Or.inl trivial)
    by_cases hd : d = f.domains.length
    · exact Or.inr (hd ▸ hroot)
    · exact Or.inl hd
  · -- only the new domain was out of date, and it was not there before
    refine ⟨Nat.le_trans hk₁.length_le hk₂.length_le, ?_, ?_, ?_⟩
    · intro d hd
      rw [hk₂.count d (Nat.lt_of_lt_of_le hd hk₁.length_le), hk₁.count d hd]
    · intro d hd _
      rw [hk₂.gated d (Nat.lt_of_lt_of_le hd hk₁.length_le) ?_, hk₁.gated d hd (fun hf => hf)]
      rintro (hn | ⟨_, hn⟩)
      · exact hn (Nat.ne_of_lt hd)
      · exact hn trivial
    · intro d hd _ hg
      rw [hk₂.phase d (Nat.lt_of_lt_of_le hd hk₁.length_le) ?_
        ((hk₁.gated d hd fun hf => hf).trans hg), hk₁.phase d hd (fun hf => hf) hg]
      rintro (hn | ⟨_, hn⟩)
      · exact hn (Nat.ne_of_lt hd)
      · exact hn trivial

end Add

/-! ## Moving a subtree -/

section Move

variable {f : ClockForest} {id np : DomainId} (mul div : UInt64)

def relinked (f : ClockForest) (id np : DomainId) (mul div : UInt64) : ClockForest :=
  ((f.rebaseSubtree id).unlink id).relink id np mul div

theorem modDom_dom {i : DomainId} (h : i < f.domains.length) (g : ClockDomain → ClockDomain)
    (j : DomainId) : (f.modDom i g).dom j = if j = i then g (f.dom j) else f.dom j := by
  by_cases hj : j = i
  · subst hj
    rw [if_pos rfl, modDom_dom_self f h]
  · rw [if_neg hj, modDom_dom_ne f (Ne.symm hj)]

theorem unlink_length : (f.unlink id).domains.length = f.domains.length := by
  unfold unlink
  split <;> simp

theorem unlink_dom (hs : Struct f) (d : DomainId) :
    (f.unlink id).dom d = { f.dom d with
      children := if f.parent id = some d then (f.dom d).children.filter (· ≠ id)
        else (f.dom d).children } := by
  unfold unlink
  split
  · rename_i p hp
    have hp' : f.parent id = some p := hp
    rw [modDom_dom (hs.parent_lt id p hp')]
    by_cases hd : d = p
    · subst hd
      rw [if_pos rfl, if_pos hp']
      congr 2
      funext x
      by_cases hx : x = id <;> simp [hx]
    · rw [if_neg hd, if_neg (by rw [hp']; exact fun h => hd (Option.some.inj h).symm)]
  · rename_i hp
    have hp' : f.parent id = none := hp
    rw [modOsc_dom, if_neg (by rw [hp']; simp)]

theorem unlink_osc (o : OscillatorId) :
    (f.unlink id).osc o = { f.osc o with
      active := (f.osc o).active
        && !(decide (f.parent id = none ∧ o < f.oscillators.length ∧ o = (f.dom id).root)) } := by
  unfold unlink
  split
  · rename_i p hp
    have hp' : f.parent id = some p := hp
    simp [hp']
  · rename_i hp
    have hp' : f.parent id = none := hp
    by_cases ho : o = (f.dom id).root
    · by_cases hlt : o < f.oscillators.length
      · rw [← ho, modOsc_osc_self f hlt]
        simp [hp', hlt]
      · have hout : ∀ g : ClockForest, g.oscillators.length = f.oscillators.length →
            g.osc o = default := by
          intro g hg
          simp [osc, List.getD_eq_getElem?_getD,
            List.getElem?_eq_none (hg ▸ Nat.not_lt.mp hlt)]
        rw [hout _ (modOsc_length f _ _), hout f rfl]
        simp [hlt]
    · rw [modOsc_osc_ne f (Ne.symm ho)]
      simp [ho]

theorem relinked_length : (f.relinked id np mul div).domains.length = f.domains.length := by
  unfold relinked relink
  rw [modDom_length, modDom_length, unlink_length]
  exact modEach_length _ f

theorem relinked_osc (hs : Struct f) (hid : id < f.domains.length) (o : OscillatorId) :
    (f.relinked id np mul div).osc o = { f.osc o with
      active := (f.osc o).active
        && !(decide (f.parent id = none ∧ o < f.oscillators.length ∧ o = (f.dom id).root)) } := by
  have hk := (rebaseSubtree_keep hs hid id).1
  have hp : (f.rebaseSubtree id).parent id = f.parent id := hk.parent
  unfold relinked relink
  rw [modDom_osc, modDom_osc, unlink_osc, hp, hk.root]
  have ho : (f.rebaseSubtree id).osc o = f.osc o := modEach_osc _ f o
  have hl : (f.rebaseSubtree id).oscillators.length = f.oscillators.length :=
    congrArg List.length (modEach_oscillators _ f)
  rw [ho, hl]

theorem rebaseSubtree_struct (hs : Struct f) (hid : id < f.domains.length) :
    Struct (f.rebaseSubtree id) := by
  refine hs.congr (modEach_length _ f) (congrArg List.length (modEach_oscillators _ f))
    (fun d => (rebaseSubtree_keep hs hid d).1) fun o => ?_
  rw [show (f.rebaseSubtree id).osc o = f.osc o from modEach_osc _ f o]
  exact ⟨rfl, rfl⟩

theorem relinked_dom (hs : Struct f) (hid : id < f.domains.length)
    (hnp : np < f.domains.length) (d : DomainId) :
    SameClock ((f.rebaseSubtree id).dom d) ((f.relinked id np mul div).dom d)
      ∧ ((f.relinked id np mul div).dom d).parent
        = (if d = id then some np else (f.dom d).parent)
      ∧ ((f.relinked id np mul div).dom d).mul = (if d = id then mul else (f.dom d).mul)
      ∧ ((f.relinked id np mul div).dom d).div = (if d = id then div else (f.dom d).div)
      ∧ ((f.relinked id np mul div).dom d).children
        = (if f.parent id = some d then (f.children d).filter (· ≠ id) else f.children d)
          ++ if d = np then [id] else [] := by
  have hk := (rebaseSubtree_keep hs hid d).1
  have hkid : (f.rebaseSubtree id).parent id = f.parent id :=
    (rebaseSubtree_keep hs hid id).1.parent
  have hlen : (f.rebaseSubtree id).domains.length = f.domains.length := modEach_length _ f
  unfold relinked relink
  rw [modDom_dom (by rw [modDom_length, unlink_length, hlen]; exact hnp),
    modDom_dom (by rw [unlink_length, hlen]; exact hid), unlink_dom (rebaseSubtree_struct hs hid),
    hkid, hk.children]
  by_cases h1 : d = np
  · by_cases h2 : d = id
    · rw [if_pos h1, if_pos h2, if_pos h2, if_pos h2, if_pos h2, if_pos h1]
      exact ⟨⟨rfl, rfl, rfl, rfl, rfl, rfl, rfl⟩, rfl, rfl, rfl, rfl⟩
    · simp only [if_pos h1, if_neg h2]
      exact ⟨⟨rfl, rfl, rfl, rfl, rfl, rfl, rfl⟩, hk.parent, hk.mul, hk.div, rfl⟩
  · by_cases h2 : d = id
    · rw [if_neg h1, if_pos h2, if_pos h2, if_pos h2, if_pos h2, if_neg h1, List.append_nil]
      exact ⟨⟨rfl, rfl, rfl, rfl, rfl, rfl, rfl⟩, rfl, rfl, rfl, rfl⟩
    · simp only [if_neg h1, if_neg h2, List.append_nil]
      exact ⟨⟨rfl, rfl, rfl, rfl, rfl, rfl, rfl⟩, hk.parent, hk.mul, hk.div, rfl⟩

theorem relinked_subtree (hs : Struct f) (hid : id < f.domains.length)
    (hnp : np < f.domains.length) (hnd : ¬ Desc f.parent id np) :
    BfsDone f.parent id ((f.relinked id np mul div).subtree id) := by
  have hp : (f.relinked id np mul div).parent
      = fun d => if d = id then some np else f.parent d :=
    funext fun d => (relinked_dom mul div hs hid hnp d).2.1
  have hc : (f.relinked id np mul div).children
      = fun q => (if f.parent id = some q then (f.children q).filter (· ≠ id) else f.children q)
        ++ if q = np then [id] else [] :=
    funext fun d => (relinked_dom mul div hs hid hnp d).2.2.2.2
  have hlinks : Links (f.relinked id np mul div).parent (f.relinked id np mul div).children := by
    rw [hp, hc]
    exact hs.links.reparent
  have hranked : Ranked (f.relinked id np mul div).parent := by
    rw [hp]
    exact hs.ranked.reparent hnd
  have hid' : id < (f.relinked id np mul div).domains.length := by
    rw [relinked_length]
    exact hid
  have hdone := bfs_done hlinks hranked (a := id)
    (n := (f.relinked id np mul div).domains.length)
    fun out hn hout => length_le_of_nodup_lt hn fun d hd => Struct.desc_lt hid' (hout d hd)
  have hmem : ∀ d, Desc (f.relinked id np mul div).parent id d ↔ Desc f.parent id d := by
    intro d
    rw [hp]
    exact desc_reparent hnd
  refine ⟨hdone.head, hdone.nodup, fun d => (hdone.mem d).trans (hmem d), ?_⟩
  intro j d hj hpos
  obtain ⟨k, p, hk, hkp, hpd⟩ := hdone.earlier j d hj hpos
  refine ⟨k, p, hk, hkp, ?_⟩
  rw [hp] at hpd
  by_cases hd : d = id
  · -- the walk starts at `id` and lists it once
    rw [hd] at hj
    have hj0 := (List.getElem?_inj (List.getElem?_eq_some_iff.mp hj).1 hdone.nodup).mp
      (hj.trans hdone.head.symm)
    omega
  · simpa only [if_neg hd] using hpd

/-- Everything `moved` did to one domain and to the oscillators. -/
structure Moved (f g : ClockForest) (id np : DomainId) : Prop where
  hung : Hung f g id np
  osc : ∀ o, SameLine (f.osc o) (g.osc o) ∧ (g.osc o).freq = (f.osc o).freq
  ratio : ∀ d, (g.dom d).ratio = (f.dom d).ratio
  /-- Outside the moved subtree, only a list of children may have changed. -/
  out : ∀ d, ¬ Desc f.parent id d → SameClock (f.dom d) (g.dom d)
    ∧ (g.dom d).mul = (f.dom d).mul ∧ (g.dom d).div = (f.dom d).div
  /-- Inside, the counter is materialized at the position on whichever tree it is now. -/
  inside : ∀ d, d < f.domains.length → Desc f.parent id d →
    (g.dom d).gated = (f.dom d).gated ∧ (g.dom d).unitsPerTick = (f.dom d).unitsPerTick
      ∧ (g.dom d).baseTicks = f.count d ∧ (g.dom d).own ≤ (f.dom d).own
      ∧ (g.dom d).baseUnit = (g.dom d).position (g.treeUnits d)

theorem moved_dom (h : f.Inv) (hid : id < f.domains.length) (hnp : np < f.domains.length)
    (hnd : ¬ Desc f.parent id np) :
    (f.moved id np mul div).domains.length = f.domains.length
      ∧ (f.moved id np mul div).oscillators = (f.relinked id np mul div).oscillators
      ∧ (∀ d, ¬ Desc f.parent id d →
          (f.moved id np mul div).dom d = (f.relinked id np mul div).dom d)
      ∧ ∀ d, d < f.domains.length → Desc f.parent id d →
          (f.moved id np mul div).dom d = if (f.dom id).root ≠ (f.dom np).root then
            moveDomain (f.dom np).root (f.osc (f.dom np).root).units
              ((f.relinked id np mul div).dom d)
          else (f.relinked id np mul div).dom d := by
  have hlen : (f.relinked id np mul div).domains.length = f.domains.length :=
    relinked_length mul div
  have hdone := relinked_subtree mul div h.shape hid hnp hnd
  have hunits : ((f.relinked id np mul div).osc (f.dom np).root).units
      = (f.osc (f.dom np).root).units := by
    rw [relinked_osc mul div h.shape hid]
  unfold moved
  by_cases hne : (f.dom id).root ≠ (f.dom np).root
  · simp only [if_pos hne, ← relinked.eq_def, hunits]
    set l := ((f.relinked id np mul div).subtree id).map fun m =>
      (m, moveDomain (f.dom np).root (f.osc (f.dom np).root).units) with hl
    have hfst : l.map Prod.fst = (f.relinked id np mul div).subtree id := by
      rw [hl, List.map_map]
      exact List.map_id _
    refine ⟨(modEach_length _ _).trans hlen, modEach_oscillators _ _, fun d hd => ?_,
      fun d hd hdesc => ?_⟩
    · refine modEach_dom_of_notMem _ _ ?_
      rw [hfst]
      exact fun hmem => hd ((hdone.mem d).mp hmem)
    · refine modEach_dom_of_mem _ _ (by rw [hfst]; exact hdone.nodup) ?_ (by rw [hlen]; exact hd)
      exact List.mem_map.mpr ⟨d, (hdone.mem d).mpr hdesc, rfl⟩
  · simp only [if_neg hne]
    exact ⟨hlen, rfl, fun _ _ => rfl, fun _ _ _ => rfl⟩

theorem moved_spec (h : f.Inv) (hid : id < f.domains.length) (hnp : np < f.domains.length)
    (hnd : ¬ Desc f.parent id np) (hm : mul ≠ 0) (hv : div ≠ 0) :
    Moved f (f.moved id np mul div) id np := by
  have hs := h.shape
  have hdom := fun d => relinked_dom mul div hs hid hnp d
  have hkeep := rebaseSubtree_keep hs hid
  obtain ⟨hlen, hosc', hout, hin⟩ := moved_dom mul div h hid hnp hnd
  set g := f.moved id np mul div
  have hosc := fun o => (show g.osc o = (f.relinked id np mul div).osc o by
    rw [osc, osc, hosc']).trans (relinked_osc mul div hs hid o)
  have hroot : ∀ d, ((f.relinked id np mul div).dom d).root = (f.dom d).root :=
    fun d => (hdom d).1.root.trans (hkeep d).1.root
  have hunits : ∀ o, (g.osc o).units = (f.osc o).units := fun o => by rw [hosc]
  -- the links of a domain are those of the relinked forest either way
  have hrel : ∀ d, (g.dom d).parent = ((f.relinked id np mul div).dom d).parent
      ∧ (g.dom d).children = ((f.relinked id np mul div).dom d).children
      ∧ (g.dom d).mul = ((f.relinked id np mul div).dom d).mul
      ∧ (g.dom d).div = ((f.relinked id np mul div).dom d).div
      ∧ (g.dom d).ratio = ((f.relinked id np mul div).dom d).ratio := by
    intro d
    by_cases hdesc : Desc f.parent id d
    · rw [hin d (Struct.desc_lt hid hdesc) hdesc]
      split <;> exact ⟨rfl, rfl, rfl, rfl, rfl⟩
    · rw [hout d hdesc]
      exact ⟨rfl, rfl, rfl, rfl, rfl⟩
  refine ⟨⟨Nat.le_of_eq hlen.symm, fun d hd => Or.inr (hlen ▸ hd), hlen ▸ hid, ?_, fun d => ?_,
    fun q => ?_, fun d hd hdesc => ?_, fun d _ hdesc => ?_, fun o => ?_, fun o => ?_,
    fun d hd => ?_⟩, fun o => ?_, fun d => ?_, fun d hdesc => ?_, fun d hd hdesc => ?_⟩
  · rw [hosc']
    unfold relinked relink
    rw [modDom_oscillators, modDom_oscillators]
    unfold unlink
    split
    · exact congrArg List.length (modEach_oscillators _ f)
    · rw [modOsc_length]
      exact congrArg List.length (modEach_oscillators _ f)
  · exact (hrel d).1.trans (hdom d).2.1
  · exact (hrel q).2.1.trans (hdom q).2.2.2.2
  · rw [hin d (hlen ▸ hd) hdesc]
    split
    · rfl
    · next heq => rw [hroot d, hs.desc_root hdesc, not_not.mp heq]
  · rw [hout d hdesc]
    exact hroot d
  · rw [hosc]
  · rw [hosc]
    simp only [Bool.and_eq_true, Bool.not_eq_true', decide_eq_false_iff_not]
    refine and_congr_right fun _ => not_congr ⟨?_, ?_⟩
    · rintro ⟨h1, _, h3⟩
      exact ⟨h1, hid, h3⟩
    · rintro ⟨h1, _, rfl⟩
      exact ⟨h1, hs.root_lt id hid, rfl⟩
  · rw [(hrel d).2.2.1, (hrel d).2.2.2.1, (hdom d).2.2.1, (hdom d).2.2.2.1]
    by_cases he : d = id
    · rw [if_pos he, if_pos he]
      exact ⟨Word.toNat_pos hm, Word.toNat_pos hv⟩
    · rw [if_neg he, if_neg he]
      exact hs.rated d (hlen ▸ hd)
  · rw [hosc]
    exact ⟨⟨rfl, rfl, rfl⟩, rfl⟩
  · rw [(hrel d).2.2.2.2, (hdom d).1.ratio]
    exact (hkeep d).2.1
  · have hne' : d ≠ id := fun he => hdesc (he ▸ Desc.refl d)
    rw [hout d hdesc, (hdom d).2.2.1, (hdom d).2.2.2.1, if_neg hne', if_neg hne',
      ← (rebaseSubtree_dom hs hid d).2 hdesc]
    exact ⟨(hdom d).1, by rw [(rebaseSubtree_dom hs hid d).2 hdesc], by
      rw [(rebaseSubtree_dom hs hid d).2 hdesc]⟩
  · have hbase : ((f.relinked id np mul div).dom d).baseTicks = f.count d
        ∧ ((f.relinked id np mul div).dom d).baseUnit = (f.dom d).position (f.treeUnits d) := by
      rw [(hdom d).1.baseTicks, (hdom d).1.baseUnit, (rebaseSubtree_dom hs hid d).1 hdesc]
      exact ⟨rfl, rfl⟩
    have hgated := (hdom d).1.gated.trans (hkeep d).2.2.2.1
    have hupt := (hdom d).1.unitsPerTick.trans (hkeep d).2.2.1
    have hown : ((f.relinked id np mul div).dom d).own = (f.dom d).own :=
      (hdom d).1.own.trans (hkeep d).2.2.2.2
    rw [treeUnits, hunits, hin d hd hdesc]
    split
    · -- across trees: put at the destination's position
      exact ⟨hgated, hupt, hbase.1, Nat.zero_le _, (Nat.max_zero _).symm⟩
    · -- within a tree: left where it was materialized
      refine ⟨hgated, hupt, hbase.1, Nat.le_of_eq hown, ?_⟩
      rw [hbase.2, hroot d, ClockDomain.position, ClockDomain.position, hown, treeUnits]

theorem Moved.clean {g : ClockForest} (h : f.Inv) (hg : Moved f g id np)
    (hid : id < f.domains.length) (hnp : np < f.domains.length) (hnd : ¬ Desc f.parent id np) :
    g.Clean (fun d => ¬ Desc f.parent id d) (fun _ => True) ∧ f.Keeps g (Desc f.parent id) := by
  have hs := h.shape
  have hlt : ∀ d, d < g.domains.length → d < f.domains.length := by
    intro d hd
    rcases hg.hung.lt_length d hd with rfl | hd
    · exact hid
    · exact hd
  have hle := hg.hung.length_le
  have holen := hg.hung.oscillators_length
  have hs' := hs.hang hg.hung hnp hnd
  have hpar : ∀ d, ¬ Desc f.parent id d → g.parent d = f.parent d := by
    intro d hd
    rw [hg.hung.parent, if_neg fun he : d = id => hd (he ▸ Desc.refl d)]
  have hoscs : ∀ o, o < f.oscillators.length → (g.osc o).Ok := by
    intro o ho
    have hok := h.oscs o ho
    have hl := (hg.osc o).1
    exact
      { unitMul_pos := by rw [hl.unitMul]; exact hok.unitMul_pos
        unitMul_lt := by rw [hl.unitMul]; exact hok.unitMul_lt
        freq_pos := by rw [(hg.osc o).2]; exact hok.freq_pos
        units_lt := by rw [hl.units]; exact hok.units_lt }
  have hu : ∀ d, d < g.domains.length → g.treeUnits d < 2 ^ 64 := fun d hd =>
    (hoscs _ (holen ▸ hs'.root_lt d hd)).units_lt
  have hdoms : ∀ d, d < g.domains.length → (g.dom d).Ok (g.treeUnits d) := by
    intro d hd
    by_cases hdesc : Desc f.parent id d
    · obtain ⟨hgate, htick, hticks, hown, hbase⟩ := hg.inside d (hlt d hd) hdesc
      have hok := h.doms d (hlt d hd)
      have hown' : (g.dom d).own < 2 ^ 64 := Nat.lt_of_le_of_lt hown hok.own_lt
      exact
        { tick_pos := by rw [htick]; exact hok.tick_pos
          anchored := fun _ => Nat.le_of_eq hbase
          baseUnit_lt := by rw [hbase]; exact max_lt (hu d hd) hown'
          baseTicks_lt := by rw [hticks]; exact count_lt hok
          own_lt := hown' }
    · exact (hg.out d hdesc).1.ok (hg.osc _).1 (h.doms d (hlt d hd))
  have hset : ∀ d, d < g.domains.length → Desc f.parent id d → g.Settled d :=
    fun d hd hdesc => Or.inr (hg.inside d (hlt d hd) hdesc).2.2.2.2
  constructor
  · exact
      { shape := hs'
        doms := hdoms
        oscs := fun o ho => hoscs o (holen ▸ ho)
        up := by
          intro d p hd hp
          rw [hpar d hd] at hp
          exact fun hdesc => hd (hdesc.child hp)
        rated := by
          intro d hd hdesc
          obtain ⟨_, hmul, hdiv⟩ := hg.out d hdesc
          exact (h.rated d (hlt d hd) trivial).congr (hpar d hdesc) hmul hdiv
            fun p _ => hg.ratio p
        ticked := by
          intro d hd hdesc
          obtain ⟨hc, _⟩ := hg.out d hdesc
          rw [hc.root, (hg.osc _).1.unitMul]
          exact hc.ticked (h.ticked d (hlt d hd) trivial)
        settled := fun d hd hdesc => hset d hd (not_not.mp hdesc)
        tuned := by
          intro o ho hact _
          unfold Tuned
          rw [(hg.osc o).1.unitRate, (hg.osc o).2, (hg.osc o).1.unitMul]
          exact h.tuned o (holen ▸ ho) ((hg.hung.active o).mp hact).1 trivial }
  · refine ⟨hle, ?_, ?_, ?_⟩
    · intro d hd
      have hd' := Nat.lt_of_lt_of_le hd hle
      by_cases hdesc : Desc f.parent id d
      · rw [count_settled (hset d hd' hdesc) (hdoms d hd') (hu d hd')]
        exact (hg.inside d hd hdesc).2.2.1
      · exact (hg.out d hdesc).1.count (hg.osc _).1
    · exact fun d _ hdesc => (hg.out d hdesc).1.gated
    · exact fun d _ hdesc _ => (hg.out d hdesc).1.secondsToTick (hg.osc _).1

theorem reparent_sound (h : f.Inv) (id np : DomainId) :
    Sound f (Desc f.parent id) (f.reparent id np mul div) := by
  have hs := h.shape
  unfold reparent
  split
  · exact sound_error _
  rename_i hcheck
  have hid := checkDomain_ok hcheck
  split
  · exact sound_error _
  rename_i hcheck'
  have hnp := checkDomain_ok hcheck'
  split
  · exact sound_error _
  rename_i hz
  obtain ⟨hm, hv⟩ := not_or.mp hz
  split
  · exact sound_error _
  rename_i hcyc
  have hnd : ¬ Desc f.parent id np := fun hdesc =>
    hcyc (Or.inr ((climb_iff hs.ranked hs.parent_lt hnp).mpr hdesc))
  have hmoved := moved_spec mul div h hid hnp hnd hm hv
  obtain ⟨h₁, hk₁⟩ := hmoved.clean h hid hnp hnd
  have hlen₁ := hmoved.hung.oscillators_length
  have hlt₁ : id < (f.moved id np mul div).domains.length :=
    Nat.lt_of_lt_of_le hid hmoved.hung.length_le
  have hroot₁ : ∀ d, d < (f.moved id np mul div).domains.length → Desc f.parent id d →
      ((f.moved id np mul div).dom d).root = (f.dom np).root := hmoved.hung.root_in
  -- the destination tree is still headed by the crystal that headed it
  have hnew : (f.dom np).root < (f.moved id np mul div).oscillators.length
      ∧ ((f.moved id np mul div).osc (f.dom np).root).active = true := by
    have := h₁.shape.root_active hlt₁
    rw [hroot₁ id hlt₁ (Desc.refl id)] at this
    exact ⟨hlen₁ ▸ hs.root_lt np hnp, this.1⟩
  refine commitOr_sound fun after hafter => ?_
  split at hafter
  · cases hafter
  rename_i f₂ hf₂
  obtain ⟨h₂, hk₂, hlen₂, hact₂, hroot₂⟩ := recomputeTree_clean h₁ hnew.1 hnew.2 hf₂
  have hall : ∀ d, d < f₂.domains.length → (¬ Desc f.parent id d
      ∨ ((f.moved id np mul div).dom d).root = (f.dom np).root) := by
    intro d hd
    by_cases hdesc : Desc f.parent id d
    · exact Or.inr (hroot₁ d (Nat.lt_of_lt_of_le (Struct.desc_lt hid hdesc)
        hmoved.hung.length_le) hdesc)
    · exact Or.inl hdesc
  have h₂' : f₂.Inv :=
    h₂.mono (fun d hd => ⟨fun _ => hall d hd, fun _ => trivial⟩) (fun _ _ => Or.inl trivial)
  have hk₂' : f.Keeps f₂ (Desc f.parent id) := by
    refine hk₁.trans (hk₂.mono ?_)
    rintro d (hd | ⟨_, hd⟩)
    · exact not_not.mp hd
    · exact absurd trivial hd
  split at hafter
  · rename_i hsurv
    have hold := hs.root_lt id hid
    -- a crystal retired by this very move has lost its root to the other tree
    have hactold : (f₂.osc (f.dom id).root).active = true := by
      rw [hact₂, hmoved.hung.active]
      refine ⟨(hs.root_active hid).1, ?_⟩
      rintro ⟨hp, _, _⟩
      have htop := (hs.top id hid hp).1
      have hr := hsurv.2
      rw [hmoved.hung.osc_root, htop, hroot₁ id hlt₁ (Desc.refl id)] at hr
      exact hsurv.1 hr.symm
    obtain ⟨h₃, hk₃, _⟩ := recomputeTree_clean h₂' (by rw [hlen₂, hlen₁]; exact hold) hactold
      hafter
    refine ⟨h₃.mono (fun _ _ => by simp) (fun _ _ => Or.inl trivial), hk₂'.trans (hk₃.mono ?_)⟩
    rintro d (hd | ⟨_, hd⟩)
    · exact absurd trivial hd
    · exact absurd trivial hd
  · obtain rfl := Except.ok.inj hafter
    exact ⟨h₂', hk₂'⟩

theorem lockOscillator_sound (h : f.Inv) (o : OscillatorId) (parent : DomainId) :
    Sound f (Desc f.parent (f.osc o).root) (f.lockOscillator o parent mul div) := by
  unfold lockOscillator
  split
  · exact sound_error _
  · exact reparent_sound mul div h _ _

end Move

end ClockForest

end Rsemu.Clock
