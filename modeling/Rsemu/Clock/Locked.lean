import Rsemu.Clock.Ticks

/-!
# The crystal a lock retires

Locking a crystal hangs its root under another tree. The oscillator's record stays and
goes on naming that root, and one call still takes the record at its word: setting the
frequency recomputes a tree from a root that has a parent, looks for the parent in the
walk of its own subtree, and the `expect` there fails (`recomputeTree_panics`).

Every other call recomputes trees whose root has no parent, and on those the walk lists
each parent before its children (`recomputeTree_calm`). So a call comes back, with a
value or with an error, exactly when it does not retune a locked crystal
(`comes_back_iff`).
-/

namespace Rsemu.Clock

open Word Forest

/-- No panic. -/
def Calm {α : Type} (r : ClockResult α) : Prop := ∀ m, r ≠ .error (.panic m)

section Calm

variable {α β : Type}

theorem calm_ok (a : α) : Calm (.ok a : ClockResult α) := fun _ h => absurd h (by simp)

theorem calm_err (e : ClockError) : Calm (.error (.err e) : ClockResult α) :=
  fun _ h => absurd h (by simp)

theorem Calm.bind {r : ClockResult α} {g : α → ClockResult β} (h : Calm r)
    (hg : ∀ a, r = .ok a → Calm (g a)) : Calm (r >>= g) := by
  cases r with
  | ok a => exact hg a rfl
  | error e =>
    cases e with
    | err e => exact calm_err e
    | panic m => exact absurd rfl (h m)

theorem okOr_calm (e : ClockError) (x : Option α) : Calm (okOr e x) := by
  cases x with
  | none => exact calm_err e
  | some a => exact calm_ok a

theorem Calm.passed {r : ClockResult α} (h : Calm r) {e : Fault} (he : r = .error e) :
    Calm (.error e : ClockResult β) := by
  intro m hm
  rw [Except.error.inj hm] at he
  exact h m he

end Calm

namespace ClockForest

theorem lcmLoop_calm {names : List String} : ∀ (rs : List Rational) (a : Nat),
    Calm (lcmLoop names rs a)
  | [], a => calm_ok a
  | r :: rs, a => by
    rw [lcmLoop]
    split
    · exact calm_err _
    · exact lcmLoop_calm rs _

theorem ksLoop_calm {names : List String} {a : Nat} : ∀ rs : List Rational,
    Calm (ksLoop names a rs)
  | [] => calm_ok _
  | r :: rs => by
    have ih := @ksLoop_calm names a rs
    rw [ksLoop]
    split
    · exact calm_err _
    · split
      · rename_i e he
        exact ih.passed he
      · exact calm_ok _

theorem basesLoop_calm {f : ClockForest} {names : List String} {fac : Nat} :
    ∀ ids : List DomainId, Calm (f.basesLoop names fac ids)
  | [] => calm_ok _
  | id :: ids => by
    have ih := @basesLoop_calm f names fac ids
    rw [basesLoop]
    split
    · exact calm_err _
    · split
      · exact calm_err _
      · split
        · rename_i e he
          exact ih.passed he
        · exact calm_ok _

theorem ratiosLoop_calm {f : ClockForest} {order : List DomainId}
    (hearlier : ∀ j d p, order[j]? = some d → f.parent d = some p →
      ∃ k : Nat, k < j ∧ order[k]? = some p) :
    ∀ (rest done : List DomainId) (ratios : List Rational), order = done ++ rest →
      ratios.length = done.length → Calm (f.ratiosLoop order rest ratios)
  | [], _, ratios, _, _ => calm_ok ratios
  | id :: rest, done, ratios, horder, hlen => by
    have next : ∀ r, Calm (f.ratiosLoop order rest (ratios ++ [r])) := fun r =>
      ratiosLoop_calm hearlier rest (done ++ [id]) (ratios ++ [r]) (by simp [horder])
        (by simp [hlen])
    rw [ratiosLoop]
    split
    · exact next _
    rename_i p hp
    obtain ⟨k, hk, hkp⟩ := hearlier done.length id p (by simp [horder]) hp
    obtain ⟨hlt, heq⟩ := List.getElem?_eq_some_iff.mp hkp
    split
    · rename_i hnone
      have hno := List.findIdx?_eq_none_iff.mp hnone p (heq ▸ List.getElem_mem hlt)
      simp at hno
    rename_i pi hpi
    -- the first occurrence is no later than the one we know of
    have hle : pi ≤ k := by
      obtain ⟨_, _, hfirst⟩ := List.findIdx?_eq_some_iff_getElem.mp hpi
      by_contra hgt
      have := hfirst k (Nat.lt_of_not_le hgt)
      simp [heq] at this
    split
    · rename_i hnone
      have := List.getElem?_eq_none_iff.mp hnone
      omega
    split
    · exact calm_err _
    · exact next _

theorem ratiosLoop_lost {f : ClockForest} {order : List DomainId} {id p : DomainId}
    (hp : f.parent id = some p) (hout : order.findIdx? (· == p) = none) (rest : List DomainId)
    (ratios : List Rational) : f.ratiosLoop order (id :: rest) ratios
      = .error (.panic "BFS order lists a parent before its children") := by
  unfold parent at hp
  rw [ratiosLoop]
  simp only [hp, hout]

section Trees

variable {f : ClockForest} {o : OscillatorId}

theorem recomputeTree_calm (hs : Struct f) (ho : o < f.oscillators.length)
    (hact : (f.osc o).active = true) : Calm (f.recomputeTree o) := by
  obtain ⟨hlt, htop, _⟩ := hs.active o ho hact
  have hdone := hs.subtree_done hlt
  have hearlier : ∀ j d p, (f.subtree (f.osc o).root)[j]? = some d → f.parent d = some p →
      ∃ k : Nat, k < j ∧ (f.subtree (f.osc o).root)[k]? = some p := by
    intro j d p hj hp
    by_cases hj0 : j = 0
    · subst hj0
      rw [hdone.head] at hj
      rw [← Option.some.inj hj, htop] at hp
      cases hp
    · obtain ⟨k, p', hk, hkp, hp'⟩ := hdone.earlier j d hj (Nat.pos_of_ne_zero hj0)
      rw [hp] at hp'
      exact ⟨k, hk, Option.some.inj hp' ▸ hkp⟩
  refine (ratiosLoop_calm hearlier _ [] [] rfl rfl).bind fun ratios _ => ?_
  refine (lcmLoop_calm _ _).bind fun a _ => ?_
  refine (ksLoop_calm _).bind fun ks _ => ?_
  refine (okOr_calm _ _).bind fun newUnits _ => ?_
  refine (basesLoop_calm _).bind fun bases _ => ?_
  refine (okOr_calm _ _).bind fun unitRate _ => calm_ok _

theorem recomputeTree_panics (hs : Struct f) (ho : o < f.oscillators.length)
    (hact : (f.osc o).active = false) :
    f.recomputeTree o = .error (.panic "BFS order lists a parent before its children") := by
  obtain ⟨hlt, hpar⟩ := hs.locked o ho hact
  have hdone := hs.subtree_done hlt
  obtain ⟨p, hp⟩ := Option.ne_none_iff_exists'.mp hpar
  obtain ⟨rest, hrest⟩ : ∃ rest, f.subtree (f.osc o).root = (f.osc o).root :: rest := by
    have hhead := hdone.head
    cases hsub : f.subtree (f.osc o).root with
    | nil => rw [hsub] at hhead; cases hhead
    | cons d rest =>
      rw [hsub] at hhead
      exact ⟨rest, by rw [← Option.some.inj hhead]⟩
  have hout : (f.subtree (f.osc o).root).findIdx? (· == p) = none := by
    refine List.findIdx?_eq_none_iff.mpr fun d hd => ?_
    have hdesc := (hdone.mem d).mp hd
    simp only [beq_eq_false_iff_ne, ne_eq]
    rintro rfl
    exact not_desc_of_child hs.ranked hp hdesc
  have hloop := ratiosLoop_lost hp hout rest []
  rw [← hrest] at hloop
  unfold recomputeTree
  dsimp only
  rw [hloop]
  rfl

end Trees

section Calls

variable {f : ClockForest}

theorem commitOr_calm {α : Type} {backup before : ClockForest} {a : α}
    {out : ClockResult ClockForest} (h : Calm out) : Calm (commitOr backup before a out).2 := by
  cases out with
  | ok after => exact calm_ok a
  | error e =>
    cases e with
    | err e => exact calm_err e
    | panic m => exact absurd rfl (h m)

theorem checkDomain_calm (d : DomainId) : Calm (f.checkDomain d) := by
  unfold checkDomain
  split
  · exact calm_err _
  · exact calm_ok _

theorem checkOsc_calm (o : OscillatorId) : Calm (f.checkOsc o) := by
  unfold checkOsc
  split
  · exact calm_err _
  · exact calm_ok _

theorem checkRequests_calm : ∀ changes : List RateRequest, Calm (f.checkRequests changes)
  | [] => calm_ok _
  | r :: rest => by
    have hr : Calm (f.checkRequest r) := by
      unfold checkRequest
      split
      · rename_i e he
        exact (checkDomain_calm _).passed he
      · split
        · exact calm_err _
        · split
          · exact calm_err _
          · exact calm_ok _
    rw [checkRequests]
    split
    · rename_i e he
      exact hr.passed he
    · exact checkRequests_calm rest

theorem addDomain_calm (h : f.Inv) (name : String) (parent : DomainId) (mul div : UInt64) :
    Calm (f.addDomain name parent mul div).2 := by
  unfold addDomain
  split
  · rename_i e he
    exact (checkDomain_calm parent).passed he
  rename_i hcheck
  have hp := checkDomain_ok hcheck
  split
  · exact calm_err _
  rename_i hz
  obtain ⟨hm, hv⟩ := not_or.mp hz
  exact commitOr_calm (recomputeTree_calm (linkDomain_clean h hp hm hv).1.shape
    (h.shape.root_lt parent hp) (h.shape.root_active hp).1)

theorem recomputeTrees_calm : ∀ (trees : List OscillatorId) {f : ClockForest}
    {S : DomainId → Prop}, f.Clean S (fun _ => True) →
    (∀ o ∈ trees, o < f.oscillators.length ∧ (f.osc o).active = true) →
    Calm (recomputeTrees trees f)
  | [], f, _, _, _ => calm_ok f
  | o :: rest, f, S, h, hact => by
    obtain ⟨ho, hoact⟩ := hact o (List.mem_cons_self ..)
    rw [recomputeTrees]
    split
    · rename_i e he
      exact (recomputeTree_calm h.shape ho hoact).passed he
    · rename_i f₁ hf₁
      obtain ⟨h₁, _, hlen₁, hact₁, _⟩ := recomputeTree_clean h ho hoact hf₁
      refine recomputeTrees_calm rest
        (h₁.mono (fun _ _ => Iff.rfl) (fun _ _ => Or.inl trivial)) fun o' ho' => ?_
      rw [hlen₁, hact₁ o']
      exact hact o' (List.mem_cons_of_mem _ ho')

theorem setRatings_calm (h : f.Inv) (changes : List RateRequest) :
    Calm (f.setRatings changes).2 := by
  unfold setRatings
  split
  · exact calm_ok ()
  split
  · rename_i e he
    exact (checkRequests_calm changes).passed he
  rename_i hcheck
  have hreq := checkRequests_ok changes hcheck
  obtain ⟨h₁, _, _, hosc₁, hlink₁⟩ := rebaseRequests_clean changes h fun r hr => (hreq r hr).1
  obtain ⟨h₂, _⟩ := applyRequests_clean h₁ (fun r hr => (hreq r hr).2)
    fun r hr hS => hS.2 r hr (Desc.refl _)
  refine commitOr_calm (recomputeTrees_calm _ h₂ fun o ho => ?_)
  -- each tree touched is the tree of a domain that a request names
  obtain ⟨r, hr, hroot⟩ := ((touchedTrees_mem changes [] o).mp ho).resolve_left (by simp)
  rw [(hlink₁ _).root] at hroot
  subst hroot
  have hlt := (hreq r hr).1
  have holen : (applyRequests changes (rebaseRequests changes f)).oscillators = f.oscillators :=
    (modEach_oscillators _ _).trans hosc₁
  unfold osc
  rw [holen]
  exact ⟨h.shape.root_lt _ hlt, (h.shape.root_active hlt).1⟩

theorem setRating_calm (h : f.Inv) (id : DomainId) (mul div : UInt64) :
    Calm (f.setRating id mul div).2 := by
  unfold setRating
  split
  · rename_i e he
    exact (checkDomain_calm id).passed he
  split
  · exact calm_err _
  split
  · exact calm_err _
  · exact setRatings_calm h _

theorem reparent_calm (h : f.Inv) (id np : DomainId) (mul div : UInt64) :
    Calm (f.reparent id np mul div).2 := by
  have hs := h.shape
  unfold reparent
  split
  · rename_i e he
    exact (checkDomain_calm id).passed he
  rename_i hcheck
  have hid := checkDomain_ok hcheck
  split
  · rename_i e he
    exact (checkDomain_calm np).passed he
  rename_i hcheck'
  have hnp := checkDomain_ok hcheck'
  split
  · exact calm_err _
  rename_i hz
  obtain ⟨hm, hv⟩ := not_or.mp hz
  split
  · exact calm_err _
  rename_i hcyc
  have hnd : ¬ Desc f.parent id np := fun hdesc =>
    hcyc (Or.inr ((climb_iff hs.ranked hs.parent_lt hnp).mpr hdesc))
  have hmoved := moved_spec mul div h hid hnp hnd hm hv
  obtain ⟨h₁, _⟩ := hmoved.clean h hid hnp hnd
  have hlen₁ := hmoved.hung.oscillators_length
  have hlt₁ : id < (f.moved id np mul div).domains.length :=
    Nat.lt_of_lt_of_le hid hmoved.hung.length_le
  have hroot₁ := hmoved.hung.root_in id hlt₁ (Desc.refl id)
  have hnew : (f.dom np).root < (f.moved id np mul div).oscillators.length
      ∧ ((f.moved id np mul div).osc (f.dom np).root).active = true := by
    have := h₁.shape.root_active hlt₁
    rw [hroot₁] at this
    exact ⟨hlen₁ ▸ hs.root_lt np hnp, this.1⟩
  refine commitOr_calm ?_
  split
  · rename_i e he
    exact (recomputeTree_calm h₁.shape hnew.1 hnew.2).passed he
  rename_i f₂ hf₂
  obtain ⟨h₂, _, hlen₂, hact₂, _⟩ := recomputeTree_clean h₁ hnew.1 hnew.2 hf₂
  split
  · rename_i hsurv
    -- a crystal retired by this very move has lost its root to the other tree
    refine recomputeTree_calm h₂.shape (by rw [hlen₂, hlen₁]; exact hs.root_lt id hid) ?_
    rw [hact₂, hmoved.hung.active]
    refine ⟨(hs.root_active hid).1, fun hretired => ?_⟩
    have htop := (hs.top id hid hretired.1).1
    have hr := hsurv.2
    rw [hmoved.hung.osc_root, htop, hroot₁] at hr
    exact hsurv.1 hr.symm
  · exact calm_ok _

theorem lockOscillator_calm (h : f.Inv) (o : OscillatorId) (parent : DomainId)
    (mul div : UInt64) : Calm (f.lockOscillator o parent mul div).2 := by
  unfold lockOscillator
  split
  · rename_i e he
    exact (checkOsc_calm o).passed he
  · exact reparent_calm h _ _ mul div

theorem retuned_struct (hs : Struct f) (o : OscillatorId) (freq : Rational) :
    Struct (f.modOsc o fun o => { o with freq := freq }) := by
  refine hs.congr rfl (modOsc_length f o _) (fun _ => SameLinks.refl _) fun o' => ?_
  by_cases he : o = o'
  · subst he
    by_cases ho : o < f.oscillators.length
    · rw [modOsc_osc_self f ho]
      exact ⟨rfl, rfl⟩
    · rw [modOsc, List.modify_eq_self (Nat.le_of_not_lt ho)]
      exact ⟨rfl, rfl⟩
  · rw [modOsc_osc_ne f he]
    exact ⟨rfl, rfl⟩

theorem setFrequency_calm (hs : Struct f) {o : OscillatorId} {freq : Rational}
    (hact : o < f.oscillators.length → freq.isZero = false → (f.osc o).active = true) :
    Calm (f.setFrequency o freq).2 := by
  unfold setFrequency
  split
  · rename_i e he
    exact (checkOsc_calm o).passed he
  rename_i hcheck
  have ho := checkOsc_ok hcheck
  split
  · exact calm_err _
  rename_i hz
  refine commitOr_calm (recomputeTree_calm (retuned_struct hs o freq)
    (by rwa [modOsc_length]) ?_)
  rw [modOsc_osc_self f ho]
  exact hact ho (by simpa using hz)

theorem setFrequency_panics (hs : Struct f) {o : OscillatorId} {freq : Rational}
    (ho : o < f.oscillators.length) (hz : freq.isZero = false) (hact : (f.osc o).active = false) :
    (f.setFrequency o freq).2
      = .error (.panic "BFS order lists a parent before its children") := by
  have hcheck : f.checkOsc o = .ok () := by
    unfold checkOsc
    rw [if_neg (Nat.not_le.mpr ho)]
  have hrec := recomputeTree_panics (retuned_struct hs o freq)
    (by rwa [modOsc_length]) (by rw [modOsc_osc_self f ho]; exact hact)
  unfold setFrequency
  simp only [hcheck, hz, Bool.false_eq_true, if_false, hrec, commitOr]

theorem accumulate_calm (o : Oscillator) (n : Nat) : Calm (o.accumulate n) := by
  unfold Oscillator.accumulate
  repeat' split
  all_goals first | exact calm_err _ | exact calm_ok _

theorem timeForUnits_calm (o : Oscillator) (n : Nat) : Calm (o.timeForUnits n) := by
  unfold Oscillator.timeForUnits
  dsimp only
  repeat' split
  all_goals first | exact calm_err _ | exact calm_ok _

theorem unitsAt_calm (o : Oscillator) (t : Nat) : Calm (o.unitsAt t) := by
  unfold Oscillator.unitsAt
  dsimp only
  repeat' split
  all_goals first | exact calm_err _ | exact calm_ok _

theorem addOscillator_calm (name : String) (freq : Rational) :
    Calm (f.addOscillator name freq).2 := by
  unfold addOscillator
  split
  · exact calm_err _
  · exact calm_ok _

theorem setGated_calm (id : DomainId) (gated : Bool) : Calm (f.setGated id gated).2 := by
  unfold setGated
  split
  · rename_i e he
    exact (checkDomain_calm id).passed he
  · split
    · exact calm_ok ()
    · exact calm_ok ()

theorem advanceUnits_calm (o : OscillatorId) (n : Nat) : Calm (f.advanceUnits o n).2 := by
  unfold advanceUnits
  split
  · rename_i e he
    exact (checkOsc_calm o).passed he
  split
  · exact calm_err _
  split
  · rename_i e he
    exact (accumulate_calm _ n).passed he
  · exact calm_ok ()

theorem advanceDomain_calm (id : DomainId) (n : Nat) : Calm (f.advanceDomain id n).2 := by
  unfold advanceDomain
  split
  · rename_i e he
    exact (checkDomain_calm id).passed he
  split
  · exact calm_err _
  split
  · exact calm_err _
  · exact advanceUnits_calm _ _

theorem advanceAlone_calm (id : DomainId) (n : Nat) : Calm (f.advanceAlone id n).2 := by
  unfold advanceAlone
  split
  · rename_i e he
    exact (checkDomain_calm id).passed he
  split
  · exact calm_err _
  dsimp only
  split
  · exact calm_err _
  · exact calm_ok ()

theorem advanceTreeTo_calm (o : OscillatorId) (n : Nat) : Calm (f.advanceTreeTo o n).2 := by
  unfold advanceTreeTo
  split
  · rename_i e he
    exact (checkOsc_calm o).passed he
  split
  · exact advanceUnits_calm _ _
  · exact calm_ok ()

theorem advanceToGlobal_calm (o : OscillatorId) (t : Nat) : Calm (f.advanceToGlobal o t).2 := by
  unfold advanceToGlobal
  split
  · rename_i e he
    exact (checkOsc_calm o).passed he
  split
  · rename_i e he
    exact (unitsAt_calm _ t).passed he
  split
  · exact calm_ok 0
  dsimp only
  split
  · rename_i e he
    exact (advanceUnits_calm (f := f) _ _).passed (congrArg Prod.snd he)
  · exact calm_ok _

theorem restoreUnitPosition_calm (o : OscillatorId) (n : Nat) :
    Calm (f.restoreUnitPosition o n).2 := by
  unfold restoreUnitPosition
  split
  · rename_i e he
    exact (checkOsc_calm o).passed he
  dsimp only
  split
  · rename_i e he
    exact (timeForUnits_calm _ n).passed he
  split
  · exact calm_err _
  · exact calm_ok ()

theorem restoreTicks_calm (id : DomainId) (n : Nat) : Calm (f.restoreTicks id n).2 := by
  unfold restoreTicks
  split
  · rename_i e he
    exact (checkDomain_calm id).passed he
  · exact calm_ok ()

theorem restoreLead_calm (id : DomainId) (n : Nat) : Calm (f.restoreLead id n).2 := by
  unfold restoreLead
  split
  · rename_i e he
    exact (checkDomain_calm id).passed he
  split
  · exact calm_err _
  · exact calm_ok ()

end Calls

end ClockForest

namespace Call

open ClockForest

/-- Setting the frequency, to one there is, of an oscillator that a lock has retired. -/
def RetunesLocked (f : ClockForest) (c : Call) : Prop :=
  ∃ o freq, c = setFrequency o freq ∧ o < f.oscillators.length ∧ freq.isZero = false
    ∧ (f.osc o).active = false

theorem unit_calm {α : Type} {r : ClockForest × ClockResult α} (h : Calm r.2) :
    Calm (unit r).2 := by
  obtain ⟨g, out⟩ := r
  cases out with
  | ok a => exact calm_ok ()
  | error e => exact h.passed rfl

theorem returns_iff_calm {f : ClockForest} {c : Call} : c.Returns f ↔ Calm (c.apply f).2 := by
  constructor
  · rintro (hok | ⟨e, he⟩)
    · rw [hok]
      exact calm_ok ()
    · rw [he]
      exact calm_err e
  · intro h
    cases hr : (c.apply f).2 with
    | ok u => exact Or.inl hr
    | error e =>
      cases e with
      | err e => exact Or.inr ⟨e, hr⟩
      | panic m => exact absurd hr (h m)

theorem call_calm {f : ClockForest} (h : f.Inv) {c : Call} (hc : ¬ c.RetunesLocked f) :
    Calm (c.apply f).2 := by
  cases c with
  | addOscillator name freq => exact unit_calm (addOscillator_calm name freq)
  | addDomain name parent mul div => exact unit_calm (addDomain_calm h name parent mul div)
  | setRating id mul div => exact setRating_calm h id mul div
  | setRatings changes => exact setRatings_calm h changes
  | setFrequency o freq =>
    refine setFrequency_calm h.shape fun ho hz => ?_
    by_contra hact
    exact hc ⟨o, freq, rfl, ho, hz, Bool.eq_false_of_not_eq_true hact⟩
  | reparent id np mul div => exact reparent_calm h id np mul div
  | lockOscillator o parent mul div => exact lockOscillator_calm h o parent mul div
  | setGated id gated => exact setGated_calm id gated
  | advanceDomain id n => exact advanceDomain_calm id _
  | advanceAlone id n => exact advanceAlone_calm id _
  | advanceTreeTo o n => exact advanceTreeTo_calm o _
  | advanceUnits o n => exact advanceUnits_calm o _
  | advanceToGlobal o t => exact unit_calm (advanceToGlobal_calm o _)
  | restoreUnitPosition o n => exact restoreUnitPosition_calm o _
  | restoreTicks id n => exact restoreTicks_calm id _
  | restoreLead id n => exact restoreLead_calm id _

end Call

theorem inv_untuned {f : ClockForest}
    (h : Reaches (fun f c => ¬ c.IsRestore ∧ ¬ c.RetunesLocked f) f) : f.Inv := by
  induction h with
  | init => exact ClockForest.inv_new
  | tail c _ hc ih =>
    refine Call.call_inv ih ⟨Call.returns_iff_calm.mpr (Call.call_calm ih hc.2), ?_⟩
    rintro o u rfl
    exact absurd trivial hc.1

/--
**A call comes back unless it retunes a locked crystal.** On every forest a run reaches
without doing that, and for any handles, a call answers exactly when it does not do it
either; if it does, what fails is the lookup of a parent in the walk of its own subtree.
The locked crystals are those whose root has a parent, and their trees are the ones that
cannot be recomputed.
-/
theorem comes_back_iff {f : ClockForest}
    (h : Reaches (fun f c => ¬ c.IsRestore ∧ ¬ c.RetunesLocked f) f) :
    (∀ c : Call, (c.Returns f ↔ ¬ c.RetunesLocked f)
      ∧ ((c.apply f).2 = .error (.panic "BFS order lists a parent before its children")
        ↔ c.RetunesLocked f))
    ∧ ∀ o, o < f.oscillators.length →
      ((f.osc o).active = false ↔ f.parent (f.osc o).root ≠ none)
      ∧ (f.recomputeTree o = .error (.panic "BFS order lists a parent before its children")
        ↔ f.parent (f.osc o).root ≠ none) := by
  have hinv := inv_untuned h
  have hpanics : ∀ {c : Call}, c.RetunesLocked f →
      (c.apply f).2 = .error (.panic "BFS order lists a parent before its children") := by
    rintro c ⟨o, freq, rfl, ho, hz, hact⟩
    exact ClockForest.setFrequency_panics hinv.shape ho hz hact
  constructor
  · intro c
    constructor
    · rw [Call.returns_iff_calm]
      exact ⟨fun hcalm hc => hcalm _ (hpanics hc), Call.call_calm hinv⟩
    · refine ⟨fun hp => ?_, hpanics⟩
      by_contra hc
      exact Call.call_calm hinv hc _ hp
  · intro o ho
    have hlocked : (f.osc o).active = false ↔ f.parent (f.osc o).root ≠ none := by
      constructor
      · intro hact
        exact (hinv.shape.locked o ho hact).2
      · intro hpar
        by_contra hact
        exact hpar (hinv.shape.active o ho (Bool.eq_true_of_not_eq_false hact)).2.1
    refine ⟨hlocked, fun hp => ?_, fun hpar => ?_⟩
    · rw [← hlocked]
      by_contra hact
      exact ClockForest.recomputeTree_calm hinv.shape ho (Bool.eq_true_of_not_eq_false hact) _ hp
    · exact ClockForest.recomputeTree_panics hinv.shape ho (hlocked.mpr hpar)

def lockedCalls : List Call :=
  [.addOscillator "master" (Rational.integer 21477272),
    .addOscillator "spc700" (Rational.integer 24576000), .lockOscillator 1 0 1 2]

/-- The first crystal can still be retuned; the locked one cannot. -/
theorem comes_back_locked :
    (Call.setFrequency 0 (Rational.integer 1000)).Returns
        (Call.applyAll lockedCalls ClockForest.new)
      ∧ ¬ (Call.setFrequency 1 (Rational.integer 1000)).Returns
        (Call.applyAll lockedCalls ClockForest.new) := by
  have hrun : Reaches (fun f c => ¬ c.IsRestore ∧ ¬ c.RetunesLocked f)
      (Call.applyAll lockedCalls ClockForest.new) := by
    refine ((Reaches.init.tail _ ⟨fun h => h, ?_⟩).tail _ ⟨fun h => h, ?_⟩).tail _
      ⟨fun h => h, ?_⟩
    · rintro ⟨o, freq, he, _⟩
      exact Call.noConfusion he
    · rintro ⟨o, freq, he, _⟩
      exact Call.noConfusion he
    · rintro ⟨o, freq, he, _⟩
      exact Call.noConfusion he
  have hiff := (comes_back_iff hrun).1
  refine ⟨(hiff _).1.mpr ?_, fun hr => (hiff _).1.mp hr ⟨1, _, rfl, ?_, ?_, ?_⟩⟩
  · rintro ⟨o, freq, he, _, _, hact⟩
    injection he with ho _
    subst ho
    revert hact
    decide +kernel
  · decide +kernel
  · decide +kernel
  · decide +kernel

/-- **The panic is there to be reached**: three calls build it and the fourth falls into it. -/
theorem locked_retune_panics :
    (Call.applyAll lockedCalls ClockForest.new).setFrequency 1 (Rational.integer 24576000) =
      ((Call.applyAll lockedCalls ClockForest.new).modOsc 1
          fun o => { o with freq := Rational.integer 24576000 },
        .error (.panic "BFS order lists a parent before its children"))
      ∧ (Call.applyAll lockedCalls ClockForest.new).parent
        ((Call.applyAll lockedCalls ClockForest.new).osc 1).root = some 0 := by
  constructor
  · decide +kernel
  · decide +kernel

end Rsemu.Clock
