import Rsemu.Nvme.Prp

/-!
# What the walk finds

A list that starts its page is walked slot by slot as it describes (`slots_right`), and a chain
of them list by list (`lists_right`). A list that chains leaves all its other slots' pages
behind it, so a transfer runs out of pages long before the walk runs out of lists.
-/

namespace Rsemu.Nvme

variable {es : Entries} {page : Nat}

/-- A page size that `CC.MPS` can select. -/
def HostPage (page : Nat) : Prop := ∃ mps ≤ 4, page = 2 ^ (12 + mps)

theorem HostPage.large (h : HostPage page) : 4096 ≤ page := by
  obtain ⟨mps, -, rfl⟩ := h
  exact Nat.pow_le_pow_right (n := 2) (by omega) (show 12 ≤ 12 + mps by omega)

theorem HostPage.mod_eight (h : HostPage page) : page % 8 = 0 := by
  obtain ⟨mps, -, rfl⟩ := h
  have hdvd : 2 ^ 3 ∣ 2 ^ (12 + mps) := Nat.pow_dvd_pow 2 (by omega)
  exact Nat.mod_eq_zero_of_dvd hdvd

theorem slot_last {list i : Nat} (hpage : HostPage page) (hlist : list % page = 0)
    (hi : i + 1 ≤ page / 8) : (list + i * 8 + 8) % page = 0 ↔ i + 1 = page / 8 := by
  have h8 := hpage.mod_eight
  have hmod : (list + i * 8 + 8) % page = (i * 8 + 8) % page := by
    rw [Nat.add_assoc, Nat.add_mod, hlist, Nat.zero_add, Nat.mod_mod]
  rw [hmod]
  rcases Nat.lt_or_ge (i * 8 + 8) page with hlt | hge
  · rw [Nat.mod_eq_of_lt hlt]
    omega
  · have heq : i * 8 + 8 = page := by omega
    rw [heq, Nat.mod_self]
    omega

variable {cs : List Chunk} {p : Place} {r : Except UInt16 (List Chunk)}

section

variable (h : Describes es page p cs)
include h

theorem Describes.of_step {q : Place} (hstep : Step es page p q) :
    ∃ cs', Describes es page q cs' := by
  cases hstep with
  | data he halign hleft hslot =>
    cases h with
    | last _ _ hle => omega
    | data he' _ _ _ rest => exact ⟨_, rest⟩
    | chain _ _ _ hlast _ => exact absurd hlast hslot
  | @chain slot left e he halign hleft hslot =>
    cases h with
    | last _ _ hle => omega
    | data _ _ _ hnot _ => exact absurd hslot hnot
    | chain he' _ _ _ rest =>
      obtain rfl := Option.some.inj (he.symm.trans he')
      exact ⟨_, rest⟩

theorem Describes.of_visits {q : Place} (hvisits : Visits es page p q) :
    ∃ cs', Describes es page q cs' := by
  induction hvisits with
  | refl => exact ⟨cs, h⟩
  | tail _ hstep ih =>
    obtain ⟨cs', h'⟩ := ih
    exact h'.of_step hstep

theorem Describes.entry :
    ∃ e, es p.slot = some e ∧ (p.Points page ∧ e % 8 = 0 ∨ ¬ p.Points page ∧ e % page = 0) := by
  cases h with
  | last he halign hleft => exact ⟨_, he, .inr ⟨fun hp => absurd hp.1 (Nat.not_lt.mpr hleft), halign⟩⟩
  | data he halign hleft hslot rest => exact ⟨_, he, .inr ⟨fun hp => absurd hp.2 hslot, halign⟩⟩
  | chain he halign hleft hslot rest => exact ⟨_, he, .inl ⟨⟨hleft, hslot⟩, halign⟩⟩

theorem Describes.not_misaligned : ¬ p.Misaligned es page := by
  obtain ⟨e, he, hrole⟩ := h.entry
  rintro ⟨e', he', hbad⟩
  obtain rfl := Option.some.inj (he.symm.trans he')
  rcases hrole with ⟨hp, halign⟩ | ⟨hp, halign⟩ <;> rcases hbad with ⟨hp', hbad⟩ | ⟨hp', hbad⟩
  · exact hbad halign
  · exact hp' hp
  · exact hp hp'
  · exact hbad halign

theorem Describes.unique {cs' : List Chunk}
    (h' : Describes es page p cs') : cs = cs' := by
  induction h generalizing cs' with
  | last he _ hleft =>
    cases h' with
    | last he' _ _ => rw [Option.some.inj (he.symm.trans he')]
    | data _ _ hlt _ _ => omega
    | chain _ _ hlt _ _ => omega
  | data he _ hleft hslot _ ih =>
    cases h' with
    | last _ _ hle => omega
    | data he' _ _ _ rest' => rw [Option.some.inj (he.symm.trans he'), ih rest']
    | chain _ _ _ hlast _ => exact absurd hlast hslot
  | chain he _ hleft hslot _ ih =>
    cases h' with
    | last _ _ hle => omega
    | data _ _ _ hnot _ => exact absurd hslot hnot
    | chain he' _ _ _ rest' =>
      obtain rfl := Option.some.inj (he.symm.trans he')
      exact ih rest'

end

/-- The walk as the rules it goes by: every entry has to be on a page boundary. -/
inductive Walks (es : Entries) (page : Nat) : Place → Except UInt16 (List Chunk) → Prop where
  | unreadable {slot left : Nat} (he : es slot = none) :
      Walks es page ⟨slot, left⟩ (.error stDataTransfer)
  | off {slot left e : Nat} (he : es slot = some e) (halign : e % page ≠ 0) :
      Walks es page ⟨slot, left⟩ (.error stPrpOffset)
  | last {slot left e : Nat} (he : es slot = some e) (halign : e % page = 0)
      (hleft : left ≤ page) : Walks es page ⟨slot, left⟩ (.ok [(e, left)])
  | data {slot left e : Nat} {r : Except UInt16 (List Chunk)} (he : es slot = some e)
      (halign : e % page = 0) (hleft : page < left) (hslot : (slot + 8) % page ≠ 0)
      (rest : Walks es page ⟨slot + 8, left - page⟩ r) :
      Walks es page ⟨slot, left⟩ (r.map ((e, page) :: ·))
  | chain {slot left e : Nat} {r : Except UInt16 (List Chunk)} (he : es slot = some e)
      (halign : e % page = 0) (hleft : page < left) (hslot : (slot + 8) % page = 0)
      (rest : Walks es page ⟨e, left⟩ r) : Walks es page ⟨slot, left⟩ r

theorem HostPage.mod_eight_of_mod {e : Nat} (h : HostPage page) (halign : e % page = 0) :
    e % 8 = 0 :=
  Nat.mod_eq_zero_of_dvd
    ((Nat.dvd_of_mod_eq_zero h.mod_eight).trans (Nat.dvd_of_mod_eq_zero halign))

theorem Walks.describes (hpage : HostPage page) (h : Walks es page p r) :
    ∀ cs, r = .ok cs → Describes es page p cs := by
  induction h with
  | unreadable he => exact fun cs hcs => nomatch hcs
  | off he halign => exact fun cs hcs => nomatch hcs
  | last he halign hleft =>
    intro cs hcs
    cases hcs
    exact .last he halign hleft
  | @data slot left e r he halign hleft hslot _ ih =>
    intro cs hcs
    cases r with
    | error status => cases hcs
    | ok cs' =>
      cases hcs
      exact .data he halign hleft hslot (ih cs' rfl)
  | chain he halign hleft hslot _ ih =>
    exact fun cs hcs => .chain he (hpage.mod_eight_of_mod halign) hleft hslot (ih cs hcs)

theorem Walks.fails (hpage : HostPage page) (h : Walks es page p r) :
    ∀ status, r = .error status → ∃ q, Visits es page p q ∧
      (status = stPrpOffset ∧ (∃ e, es q.slot = some e ∧ e % page ≠ 0) ∨
        status = stDataTransfer ∧ es q.slot = none) := by
  induction h with
  | unreadable he =>
    intro status hstatus
    cases hstatus
    exact ⟨_, .refl, .inr ⟨rfl, he⟩⟩
  | off he halign =>
    intro status hstatus
    cases hstatus
    exact ⟨_, .refl, .inl ⟨rfl, _, he, halign⟩⟩
  | last he halign hleft => exact fun status hstatus => nomatch hstatus
  | @data slot left e r he halign hleft hslot _ ih =>
    intro status hstatus
    cases r with
    | ok cs => cases hstatus
    | error status' =>
      cases hstatus
      obtain ⟨q, hvisits, hwhy⟩ := ih status rfl
      exact ⟨q, hvisits.head (.data he halign hleft hslot), hwhy⟩
  | chain he halign hleft hslot _ ih =>
    intro status hstatus
    obtain ⟨q, hvisits, hwhy⟩ := ih status hstatus
    exact ⟨q, hvisits.head (.chain he (hpage.mod_eight_of_mod halign) hleft hslot), hwhy⟩

theorem Walks.pointsInside {q : Place} (h : Walks es page p r) (hvisits : Visits es page p q)
    (hinside : q.PointsInside es page) : r = .error stPrpOffset := by
  induction h with
  | unreadable he =>
    rcases hvisits.cases_head with rfl | ⟨p', hstep, -⟩
    · obtain ⟨-, e, he', -⟩ := hinside
      cases he.symm.trans he'
    · cases hstep <;> cases he.symm.trans ‹_›
  | off he halign => rfl
  | last he halign hleft =>
    rcases hvisits.cases_head with rfl | ⟨p', hstep, -⟩
    · exact absurd hinside.1.1 (Nat.not_lt.mpr hleft)
    · cases hstep <;> omega
  | data he halign hleft hslot _ ih =>
    rcases hvisits.cases_head with rfl | ⟨p', hstep, hrest⟩
    · exact absurd hinside.1.2 hslot
    · cases hstep with
      | data _ _ _ _ => rw [ih hrest]; rfl
      | chain _ _ _ hlast => exact absurd hlast hslot
  | chain he halign hleft hslot _ ih =>
    rcases hvisits.cases_head with rfl | ⟨p', hstep, hrest⟩
    · obtain ⟨-, e', he', -, hoff⟩ := hinside
      obtain rfl := Option.some.inj (he.symm.trans he')
      exact absurd halign hoff
    · cases hstep with
      | data _ _ _ hnot => exact absurd hslot hnot
      | chain he' _ _ _ =>
        obtain rfl := Option.some.inj (he.symm.trans he')
        exact ih hrest

/-- What a page of slots says of the walk from a slot on. -/
def Turn.Right (es : Entries) (page : Nat) (p : Place) (more : Nat) (out : List Chunk) :
    Except UInt16 Turn → Prop
  | .ok (.done out') => ∃ cs, out' = out ++ cs ∧ Walks es page p (.ok cs)
  | .ok (.chained next left out') => next % page = 0 ∧ page < left ∧
      p.left = left + (more - 1) * page ∧ ∃ cs, out' = out ++ cs ∧
        ∀ r, Walks es page ⟨next, left⟩ r → Walks es page p (r.map (cs ++ ·))
  | .ok .stranded => False
  | .error status => Walks es page p (.error status)

theorem Turn.Right.data {slot left e more : Nat} {out : List Chunk}
    {turn : Except UInt16 Turn} (he : es slot = some e) (halign : e % page = 0)
    (hleft : page < left) (hslot : (slot + 8) % page ≠ 0) (hmore : 0 < more)
    (h : Turn.Right es page ⟨slot + 8, left - page⟩ more (out ++ [(e, page)]) turn) :
    Turn.Right es page ⟨slot, left⟩ (more + 1) out turn := by
  rcases turn with status | out' | ⟨next, left', out'⟩ | _
  · exact Walks.data he halign hleft hslot h
  · obtain ⟨cs, hout, hcs⟩ := h
    rw [List.append_assoc] at hout
    exact ⟨(e, page) :: cs, hout, .data he halign hleft hslot hcs⟩
  · obtain ⟨hnext, hleft', hsum, cs, hout, hcs⟩ := h
    rw [List.append_assoc] at hout
    refine ⟨hnext, hleft', ?_, (e, page) :: cs, hout, fun r hr => ?_⟩
    · dsimp only at hsum ⊢
      obtain ⟨m, rfl⟩ : ∃ m, more = m + 1 := ⟨more - 1, by omega⟩
      rw [Nat.add_sub_cancel] at hsum ⊢
      rw [Nat.succ_mul]
      omega
    · have hdata := Walks.data he halign hleft hslot (hcs r hr)
      cases r with
      | error status => exact hdata
      | ok cs' => exact hdata
  · exact h.elim

variable (es) in
theorem slots_right {list : Nat} (hpage : HostPage page) (hlist : list % page = 0)
    {more i : Nat} (hi : i + more = page / 8) (hmore : 0 < more) (remaining : Nat)
    (out : List Chunk) : Turn.Right es page ⟨list + i * 8, remaining⟩ more out
      (slots es page list more i remaining out) := by
  induction more generalizing i remaining out with
  | zero => exact absurd hmore (Nat.lt_irrefl 0)
  | succ more ih =>
    have hlast := slot_last (i := i) hpage hlist (by omega)
    rw [slots]
    cases he : es (list + i * 8) with
    | none => exact .unreadable he
    | some e =>
      dsimp only
      by_cases halign : e % page ≠ 0
      · rw [if_pos halign]
        exact .off he halign
      rw [if_neg halign]
      rw [ne_eq, not_not] at halign
      by_cases hpoints : i + 1 = page / 8 ∧ page < remaining
      · -- the last slot, and it chains
        rw [if_pos hpoints]
        obtain rfl : more = 0 := by omega
        refine ⟨halign, hpoints.2, by simp, [], (List.append_nil out).symm, fun r hr => ?_⟩
        have hchain := Walks.chain he halign hpoints.2 (hlast.mpr hpoints.1) hr
        cases r with
        | error status => exact hchain
        | ok cs => exact hchain
      rw [if_neg hpoints]
      by_cases hleft : remaining ≤ page
      · rw [min_eq_left hleft, Nat.sub_self, if_pos rfl]
        exact ⟨_, rfl, .last he halign hleft⟩
      · have hleft' : page < remaining := by omega
        have hne : i + 1 ≠ page / 8 := fun h => hpoints ⟨h, hleft'⟩
        have hslot : (list + i * 8 + 8) % page ≠ 0 := fun h => hne (hlast.mp h)
        rw [min_eq_right hleft'.le, if_neg (by omega)]
        have hsum : i + 1 + more = page / 8 := by omega
        have hrest := ih hsum (by omega) (remaining - page) (out ++ [(e, page)])
        rw [Nat.succ_mul, ← Nat.add_assoc] at hrest
        exact hrest.data he halign hleft' hslot (by omega)

variable (es) in
theorem lists_walks (hpage : HostPage page) {more list remaining : Nat}
    (hlist : list % page = 0) (hleft : page < remaining) (out : List Chunk) :
    (∃ r, Walks es page ⟨list, remaining⟩ r ∧
      lists es page more list remaining out = r.map (out ++ ·)) ∨
    more * ((page / 8 - 1) * page) < remaining ∧
      lists es page more list remaining out = .error stDataTransfer := by
  have hlarge := hpage.large
  induction more generalizing list remaining out with
  | zero => exact .inr ⟨by omega, rfl⟩
  | succ more ih =>
    have hslots := slots_right es hpage hlist (Nat.zero_add (page / 8)) (by omega) remaining out
    rw [Nat.zero_mul, Nat.add_zero] at hslots
    rw [lists]
    generalize slots es page list (page / 8) 0 remaining out = turn at hslots ⊢
    rcases turn with status | out' | ⟨next, left, out'⟩ | _
    · exact .inl ⟨.error status, hslots, rfl⟩
    · obtain ⟨cs, hout, hcs⟩ := hslots
      exact .inl ⟨.ok cs, hcs, congrArg Except.ok hout⟩
    · obtain ⟨hnext, hleft', hsum, cs, hout, hcs⟩ := hslots
      dsimp only at hsum ⊢
      obtain ⟨r, hr, hlists⟩ | ⟨hlong, hlists⟩ := ih hnext hleft' out'
      · refine .inl ⟨r.map (cs ++ ·), hcs r hr, ?_⟩
        rw [hlists, hout]
        cases r with
        | error status => rfl
        | ok cs' => exact congrArg Except.ok (List.append_assoc out cs cs')
      · refine .inr ⟨?_, hlists⟩
        rw [Nat.succ_mul]
        omega
    · exact hslots.elim

variable {prp1 prp2 len : Nat}

/-- More is left over than the list pages that are walked can name. -/
def TooLong (prp1 len page : Nat) : Prop :=
  maxPrpLists * ((page / 8 - 1) * page) < leftOver prp1 len page

theorem HostPage.not_tooLong (h : HostPage page) (hlen : len ≤ maxTransfer) :
    ¬ TooLong prp1 len page := by
  have hlarge := h.large
  have hpages : 511 * 4096 ≤ (page / 8 - 1) * page := Nat.mul_le_mul (by omega) hlarge
  have hmax : maxTransfer = 4194304 := by decide
  have hle : leftOver prp1 len page ≤ len := Nat.sub_le _ _
  unfold TooLong
  rw [maxPrpLists]
  omega

theorem leftOver_one (h : leftOver prp1 len page = 0) : min len (page - prp1 % page) = len := by
  unfold leftOver at h
  omega

theorem leftOver_pos (h : 0 < leftOver prp1 len page) :
    0 < len ∧ min len (page - prp1 % page) = page - prp1 % page := by
  unfold leftOver at h
  omega

/-- **Chunks are what the entries describe; a status has its reason.** -/
def Answered (es : Entries) (prp1 prp2 len page : Nat) : Except UInt16 (List Chunk) → Prop
  | .ok cs => Layout es prp1 prp2 len page cs
  | .error status =>
    status = stPrpOffset ∧
      (Misaligned es prp1 prp2 len page ∨ StartsInside es prp1 prp2 len page) ∨
    status = stDataTransfer ∧ page < leftOver prp1 len page ∧ prp2 % page = 0 ∧
      (TooLong prp1 len page ∨
        ∃ q, Visits es page ⟨prp2, leftOver prp1 len page⟩ q ∧ es q.slot = none)

variable (es) in
theorem prpChunks_list (hpage : HostPage page) (halign : prp1 % page % 4 = 0)
    (hleft : page < leftOver prp1 len page) (halign₂ : prp2 % page = 0) :
    (∃ r, Walks es page ⟨prp2, leftOver prp1 len page⟩ r ∧
      prpChunks es prp1 prp2 len page = r.map ((prp1, page - prp1 % page) :: ·)) ∨
    TooLong prp1 len page ∧ prpChunks es prp1 prp2 len page = .error stDataTransfer := by
  obtain ⟨hpos, hfirst⟩ := leftOver_pos (show 0 < leftOver prp1 len page by omega)
  have heq : prpChunks es prp1 prp2 len page = lists es page maxPrpLists prp2
      (leftOver prp1 len page) [(prp1, page - prp1 % page)] := by
    unfold prpChunks
    unfold leftOver at hleft ⊢
    rw [if_neg (by omega), if_neg (not_not.mpr halign), if_neg (by omega),
      if_neg (not_not.mpr halign₂), if_neg (by omega), hfirst]
  rw [heq]
  exact lists_walks es hpage halign₂ hleft [(prp1, page - prp1 % page)]

variable (es prp1 prp2 len) in
theorem prpChunks_answered (hpage : HostPage page) :
    Answered es prp1 prp2 len page (prpChunks es prp1 prp2 len page) := by
  by_cases hempty : len = 0
  · rw [prpChunks, if_pos hempty]
    exact .empty hempty
  by_cases halign : prp1 % page % 4 ≠ 0
  · rw [prpChunks, if_neg hempty]
    rw [if_pos halign]
    exact .inl ⟨rfl, .inl (.first (by omega) halign)⟩
  have hfirst := not_not.mp halign
  by_cases hone : leftOver prp1 len page = 0
  · have hmin := leftOver_one hone
    unfold prpChunks
    rw [if_neg hempty, if_neg halign, hmin, if_pos (Nat.sub_self len)]
    exact .one (by omega) hfirst hone
  by_cases hsecond : prp2 % page ≠ 0
  · have heq : prpChunks es prp1 prp2 len page = .error stPrpOffset := by
      unfold prpChunks
      unfold leftOver at hone
      rw [if_neg hempty, if_neg halign, if_neg hone, if_pos hsecond]
    rw [heq]
    refine .inl ⟨rfl, ?_⟩
    by_cases hleft : leftOver prp1 len page ≤ page
    · exact .inl (.second (by omega) hleft hsecond)
    · by_cases hlist : prp2 % 8 = 0
      · exact .inr (.first hfirst (by omega) hlist hsecond)
      · exact .inl (.list (by omega) hlist)
  have halign₂ := not_not.mp hsecond
  by_cases hleft : leftOver prp1 len page ≤ page
  · obtain ⟨-, hmin⟩ := leftOver_pos (show 0 < leftOver prp1 len page by omega)
    have heq : prpChunks es prp1 prp2 len page =
        .ok [(prp1, page - prp1 % page), (prp2, leftOver prp1 len page)] := by
      unfold prpChunks
      unfold leftOver at hone hleft ⊢
      rw [if_neg hempty, if_neg halign, if_neg hone, if_neg hsecond, if_pos hleft, hmin]
    rw [heq]
    exact .two hfirst (by omega) hleft halign₂
  · have hmore : page < leftOver prp1 len page := by omega
    have h8 := hpage.mod_eight_of_mod halign₂
    obtain ⟨r, hr, heq⟩ | ⟨hlong, heq⟩ := prpChunks_list es hpage hfirst hmore halign₂
    · rw [heq]
      cases r with
      | ok cs => exact .more hfirst hmore h8 (hr.describes hpage cs rfl)
      | error status =>
        obtain ⟨q, hvisits, ⟨rfl, e, he, hoff⟩ | ⟨rfl, hnone⟩⟩ := hr.fails hpage status rfl
        · refine .inl ⟨rfl, ?_⟩
          by_cases hpoints : q.Points page
          · by_cases hq : e % 8 = 0
            · exact .inr (.chained hfirst hmore h8 hvisits ⟨hpoints, e, he, hq, hoff⟩)
            · exact .inl (.inList hmore h8 hvisits ⟨e, he, .inl ⟨hpoints, hq⟩⟩)
          · exact .inl (.inList hmore h8 hvisits ⟨e, he, .inr ⟨hpoints, hoff⟩⟩)
        · exact .inr ⟨rfl, hmore, halign₂, .inr ⟨q, hvisits, hnone⟩⟩
    · rw [heq]
      exact .inr ⟨rfl, hmore, halign₂, .inl hlong⟩

theorem prpChunks_startsInside (hpage : HostPage page) (hlen : len ≤ maxTransfer)
    (h : StartsInside es prp1 prp2 len page) :
    prpChunks es prp1 prp2 len page = .error stPrpOffset := by
  have hrefused : prp1 % page % 4 = 0 → page < leftOver prp1 len page → prp2 % page ≠ 0 →
      prpChunks es prp1 prp2 len page = .error stPrpOffset := by
    intro halign hleft hoff
    unfold prpChunks
    unfold leftOver at hleft
    rw [if_neg (by omega), if_neg (not_not.mpr halign), if_neg (by omega), if_pos hoff]
  cases h with
  | first halign hleft halign₂ hoff => exact hrefused halign hleft hoff
  | chained halign hleft halign₂ hvisits hinside =>
    by_cases hoff : prp2 % page ≠ 0
    · exact hrefused halign hleft hoff
    · obtain ⟨r, hr, heq⟩ | ⟨hlong, -⟩ := prpChunks_list es hpage halign hleft (not_not.mp hoff)
      · rw [heq, hr.pointsInside hvisits hinside]
        rfl
      · exact absurd hlong (hpage.not_tooLong hlen)

theorem Layout.not_misaligned (h : Layout es prp1 prp2 len page cs) :
    ¬ Misaligned es prp1 prp2 len page := by
  intro hbad
  cases h with
  | empty hlen =>
    have hzero : leftOver prp1 len page = 0 := by
      unfold leftOver
      omega
    cases hbad <;> omega
  | one hlen halign hleft =>
    cases hbad with
    | first _ h => exact h halign
    | second hpos _ _ => omega
    | list hmore _ => omega
    | inList hmore _ _ _ => omega
  | two halign hpos hleft halign₂ =>
    cases hbad with
    | first _ h => exact h halign
    | second _ _ h => exact h halign₂
    | list hmore _ => omega
    | inList hmore _ _ _ => omega
  | more halign hleft halign₂ rest =>
    cases hbad with
    | first _ h => exact h halign
    | second _ hle _ => omega
    | list _ h => exact h halign₂
    | inList _ _ hvisits h =>
      obtain ⟨cs', h'⟩ := rest.of_visits hvisits
      exact h'.not_misaligned h

theorem Layout.unique {cs' : List Chunk} (h : Layout es prp1 prp2 len page cs)
    (h' : Layout es prp1 prp2 len page cs') : cs = cs' := by
  have hzero : len = 0 → leftOver prp1 len page = 0 := by
    unfold leftOver
    omega
  cases h with
  | empty hlen =>
    cases h' with
    | empty _ => rfl
    | one _ _ _ => omega
    | two _ hpos _ _ => omega
    | more _ hleft _ _ => omega
  | one hlen halign hleft =>
    cases h' with
    | empty _ => omega
    | one _ _ _ => rfl
    | two _ hpos _ _ => omega
    | more _ hleft _ _ => omega
  | two halign hpos hleft halign₂ =>
    cases h' with
    | empty _ => omega
    | one _ _ _ => omega
    | two _ _ _ _ => rfl
    | more _ hleft _ _ => omega
  | more halign hleft halign₂ rest =>
    cases h' with
    | empty _ => omega
    | one _ _ _ => omega
    | two _ _ _ _ => omega
    | more _ _ _ rest' => rw [rest.unique rest']

theorem prpChunks_of_layout (hpage : HostPage page) (hlen : len ≤ maxTransfer)
    (h : Layout es prp1 prp2 len page cs) (hinside : ¬ StartsInside es prp1 prp2 len page) :
    prpChunks es prp1 prp2 len page = .ok cs := by
  have hanswered := prpChunks_answered es prp1 prp2 len hpage
  cases hr : prpChunks es prp1 prp2 len page with
  | ok cs' =>
    rw [hr] at hanswered
    rw [h.unique hanswered]
  | error status =>
    rw [hr] at hanswered
    rcases hanswered with ⟨-, hbad | hbad⟩ | ⟨-, hleft, -, hlong | ⟨q, hvisits, hnone⟩⟩
    · exact absurd hbad h.not_misaligned
    · exact absurd hbad hinside
    · exact absurd hlong (hpage.not_tooLong hlen)
    · -- a slot of the list cannot be read, so the list describes nothing
      cases h with
      | empty hzero =>
        unfold leftOver at hleft
        omega
      | one _ _ _ => omega
      | two _ _ _ _ => omega
      | more _ _ _ rest =>
        obtain ⟨cs', h'⟩ := rest.of_visits hvisits
        obtain ⟨e, he, -⟩ := h'.entry
        cases hnone.symm.trans he

/-- **The controller takes every legal layout**, and blames an offset only where an entry is
misaligned. -/
def AcceptsLegal (es : Entries) (prp1 prp2 len page : Nat) : Prop :=
  (∀ cs, Layout es prp1 prp2 len page cs → prpChunks es prp1 prp2 len page = .ok cs) ∧
    (prpChunks es prp1 prp2 len page = .error stPrpOffset → Misaligned es prp1 prp2 len page)

/-- **It does so just where no list starts inside a page**, or some entry is misaligned. -/
theorem acceptsLegal_iff (hpage : HostPage page) (hlen : len ≤ maxTransfer) :
    AcceptsLegal es prp1 prp2 len page ↔
      ¬ StartsInside es prp1 prp2 len page ∨ Misaligned es prp1 prp2 len page := by
  constructor
  · intro h
    by_cases hinside : StartsInside es prp1 prp2 len page
    · exact .inr (h.2 (prpChunks_startsInside hpage hlen hinside))
    · exact .inl hinside
  · intro h
    constructor
    · intro cs hcs
      rcases h with h | h
      · exact prpChunks_of_layout hpage hlen hcs h
      · exact absurd h hcs.not_misaligned
    · intro hr
      have hanswered := prpChunks_answered es prp1 prp2 len hpage
      rw [hr] at hanswered
      rcases hanswered with ⟨-, hbad | hbad⟩ | ⟨hne, -⟩
      · exact hbad
      · exact h.elim (absurd hbad) id
      · exact absurd hne (by decide)

/-- Guest memory with a list of two entries. -/
def listed (slot : Nat) : Memory :=
  Memory.put (fun _ => none) slot (Codec.leBytes 8 0x3000 ++ Codec.leBytes 8 0x5000)

/-- A list that has a page to itself. -/
theorem acceptsLegal_iff_listed :
    AcceptsLegal (entries (listed 0x2000)) 0x10000 0x2000 12288 4096 := by
  refine (acceptsLegal_iff ⟨0, by decide, rfl⟩ (by decide)).mpr (.inl ?_)
  rintro (⟨-, -, -, h⟩ | ⟨-, -, -, hvisits, ⟨hmore, hlast⟩, -⟩)
  · exact absurd rfl h
  · -- more than a page is left at the first slot only
    have hplace : ∀ p, Visits (entries (listed 0x2000)) 4096 ⟨0x2000, 8192⟩ p →
        p = ⟨0x2000, 8192⟩ ∨ p.left ≤ 4096 := by
      intro p hp
      induction hp with
      | refl => exact .inl rfl
      | tail _ hstep ih =>
        cases hstep with
        | data _ _ hleft _ =>
          rcases ih with ih | ih
          · cases ih
            exact .inr (by decide)
          · dsimp only at ih
            omega
        | chain _ _ hleft hslot =>
          rcases ih with ih | ih
          · cases ih
            cases hslot
          · dsimp only at ih
            omega
    rcases hplace _ hvisits with rfl | hle
    · cases hlast
    · omega

def pooled : Memory := listed 0x2008

theorem pooled_layout : Layout (entries pooled) 0x10000 0x2008 12288 4096
    [(0x10000, 4096), (0x3000, 4096), (0x5000, 4096)] := by
  have hfirst : entries pooled 0x2008 = some 0x3000 := by decide
  have hsecond : entries pooled 0x2010 = some 0x5000 := by decide
  refine .more (by decide) (by decide) (by decide) ?_
  refine .data hfirst (by decide) (by decide) (by decide) ?_
  exact .last hsecond (by decide) (by decide)

/-- A list from a pool smaller than a page: three pages, all aligned, and the command is refused
for an offset that no entry has. -/
theorem pooled_refused : ¬ AcceptsLegal (entries pooled) 0x10000 0x2008 12288 4096 ∧
    prpChunks (entries pooled) 0x10000 0x2008 12288 4096 = .error stPrpOffset ∧
    ¬ Misaligned (entries pooled) 0x10000 0x2008 12288 4096 := by
  have hrefused : prpChunks (entries pooled) 0x10000 0x2008 12288 4096 = .error stPrpOffset := rfl
  refine ⟨fun h => ?_, hrefused, pooled_layout.not_misaligned⟩
  exact absurd (hrefused.symm.trans (h.1 _ pooled_layout)) (by simp)

end Rsemu.Nvme
