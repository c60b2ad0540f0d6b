import Rsemu.Ir.Liveness

/-!
# Linear-scan register allocation

One home for every temporary of a block, for the whole block: a host register, or its slot in
the temporary frame. Intervals are taken by increasing start. An interval that lives across a
call may only have a register calls leave alone; when none is free, the active interval that
ends last gives up its register if it ends after the new one.

The invariant of the scan is `ScanInv`: registers of the active intervals are distinct and
none of them is free, and an interval that has a register and is no longer active ends before
anything still to come starts. `linearScan_spec` is what it gives for the finished allocation.
-/

namespace Rsemu.Ir

def maxRegs : Nat := 16

/-- Where a temporary is kept. -/
inductive Home where
  | frame
  | reg (r : Nat)
  deriving DecidableEq

/-- The registers a backend hands out: those a call into the host leaves alone, and those
it may clobber. -/
structure RegBanks where
  saved : List Nat
  volatile : List Nat

/-- Where the lowerings call into the host: after an instruction's reads and before its
writes, or in the gap ahead of it. A missing entry is no call. -/
structure CallSites where
  inside : List Bool
  before : List Bool

/-- The homes of a block's temporaries. -/
structure Allocation where
  homes : List Home
  boundary : List Bool

namespace Allocation

def home (a : Allocation) (t : Temp) : Home := a.homes[t]?.getD .frame

/-- Whether the frame slot holds the value: a spilled temporary, or one that is written
through because a boundary names it. -/
def frameBacked (a : Allocation) (t : Temp) : Bool :=
  decide (a.home t = .frame) || a.boundary[t]?.getD false

end Allocation

/-! ## Register masks -/

/-- A set of registers. -/
abbrev Mask := BitVec 16

def bit (r : Nat) : Mask := 1#16 <<< r

def maskOf (regs : List Nat) : Mask :=
  (regs.filter (· < maxRegs)).foldl (fun m r => m ||| bit r) 0#16

def trailingZeros (m : Mask) : Nat := ((List.range maxRegs).find? m.getLsbD).getD maxRegs

def take (free want : Mask) : Option (Nat × Mask) :=
  let avail := free &&& want
  if avail = 0#16 then none
  else
    let reg := trailingZeros avail
    some (reg, free &&& ~~~(bit reg))

def takeFirst (free : Mask) : List Mask → Option (Nat × Mask)
  | [] => none
  | want :: rest =>
    if want = 0#16 then takeFirst free rest
    else (take free want).or (takeFirst free rest)

/-! ## Calls -/

def prefixCounts (calls : List Bool) : Nat → List Nat
  | 0 => [0]
  | n + 1 =>
    let out := prefixCounts calls n
    out ++ [out.getLastD 0 + (calls[n]?.getD false).toNat]

def anyCall (counts : List Nat) (lo hi : Nat) : Bool :=
  if counts.isEmpty ∨ hi ≤ lo then false
  else
    let top := counts.length - 1
    let hi := min hi top
    let lo := min lo hi
    decide (counts[lo]?.getD 0 < counts[hi]?.getD 0)

def crosses (inside gaps : List Nat) (start stop : Nat) : Bool :=
  anyCall inside (start + 1) stop || anyCall gaps (start + 1) (stop + 1)

/-! ## What stays in the frame -/

def pinReads (pinned defined : List Bool) : List Temp → List Bool
  | [] => pinned
  | src :: rest =>
    pinReads (if defined[src]? = some false then pinned.set src true else pinned) defined rest

def pinUnassigned : List Bool → List Bool → List Inst → List Bool
  | pinned, _, [] => pinned
  | pinned, defined, inst :: rest =>
    pinUnassigned (pinReads pinned defined inst.srcs)
      (inst.dsts.foldl (fun defined d => defined.set d true) defined) rest

def skips (i target : Nat) (life : TempLife) : Bool :=
  life.defAt.any fun d => decide (i < d ∧ d < target ∧ target ≤ life.lastUse.getD d)

def pinSkipped (lives : List TempLife) (pinned : List Bool) (inst : Inst) (i : Nat) : List Bool :=
  if inst.op ≠ .brcond then pinned
  else if inst.aux ≤ i then pinned
  else pinned.zipIdx.map fun p => p.1 || (lives[p.2]?).any (skips i inst.aux)

def pinned (b : Block) (lives : List TempLife) (n : Nat) : List Bool :=
  b.insts.zipIdx.foldl (fun pinned p => pinSkipped lives pinned p.1 p.2)
    (pinUnassigned (List.replicate n false) (List.replicate n false) b.insts)

/-! ## The scan -/

/-- An interval that holds a register. -/
structure Live where
  start : Nat
  stop : Nat
  temp : Nat
  reg : Nat
  deriving DecidableEq

/-- An interval that ends where the next one starts gives its register on, unless it
starts there as well. -/
def Live.expired (start : Nat) (a : Live) : Bool := decide (a.stop ≤ start ∧ a.start < start)

/-- The state of the scan. -/
structure Scan where
  homes : List Home
  free : Mask
  active : List Live

def expire (start : Nat) (s : Scan) : Scan :=
  { s with
    free := s.active.foldl (fun free a => if a.expired start then free ||| bit a.reg else free)
      s.free
    active := s.active.filter fun a => !a.expired start }

def furthest (best : Option (Live × Nat)) (x : Live × Nat) : Option (Live × Nat) :=
  best.elim (some x) fun y =>
    if y.1.stop < x.1.stop ∨ y.1.stop = x.1.stop ∧ x.1.temp ≤ y.1.temp then some x else some y

def victim (cls : Mask) (active : List Live) : Option Nat :=
  ((active.zipIdx.filter fun p => cls &&& bit p.1.reg ≠ 0#16).foldl furthest none).map Prod.snd

/-- Give the interval a register that is free, or one it takes from the victim. -/
def place (saved volatile : Mask) (crossing : Bool) (s : Scan) (iv : Interval) : Scan :=
  let cls := if crossing then saved else saved ||| volatile
  let order := if crossing then [saved, 0#16] else [volatile, saved]
  match takeFirst s.free order with
  | some (reg, free) =>
    { homes := s.homes.set iv.temp (.reg reg)
      free := free
      active := s.active ++ [⟨iv.start, iv.stop, iv.temp, reg⟩] }
  | none =>
    match victim cls s.active with
    | none => s
    | some v =>
      match s.active[v]? with
      | none => s
      | some a =>
        if iv.stop < a.stop then
          { s with
            homes := (s.homes.set a.temp .frame).set iv.temp (.reg a.reg)
            active := s.active.set v ⟨iv.start, iv.stop, iv.temp, a.reg⟩ }
        else s

def scanStep (n : Nat) (pins : List Bool) (inside gaps : List Nat) (saved volatile : Mask)
    (s : Scan) (iv : Interval) : Scan :=
  if n ≤ iv.temp then s
  else
    let s := expire iv.start s
    if pins[iv.temp]?.getD false then s
    else place saved volatile (crosses inside gaps iv.start iv.stop) s iv

/-- The scan over all the intervals. -/
def scanAll (b : Block) (lives : List TempLife) (banks : RegBanks) (sites : CallSites) : Scan :=
  (intervals lives).foldl
    (scanStep b.tempCount (pinned b lives b.tempCount)
      (prefixCounts sites.inside b.insts.length) (prefixCounts sites.before b.insts.length)
      (maskOf banks.saved) (maskOf banks.volatile))
    ⟨List.replicate b.tempCount .frame, maskOf banks.saved ||| maskOf banks.volatile, []⟩

def linearScan (b : Block) (lives : List TempLife) (banks : RegBanks) (sites : CallSites) :
    Allocation :=
  ⟨(scanAll b lives banks sites).homes,
    (List.range b.tempCount).map fun t => (lives[t]?).any TempLife.atBoundary⟩

/-! ## Masks, bit by bit -/

theorem getLsbD_bit (r i : Nat) : (bit r).getLsbD i = decide (i = r ∧ r < maxRegs) := by
  unfold bit maxRegs
  by_cases h : i = r
  · subst h
    simp
  · by_cases hlt : i < r
    · simp [hlt, h]
    · have : ¬ i - r = 0 := by omega
      simp [h, this]

theorem getLsbD_foldl_bit (regs : List Nat) (m : Mask) (i : Nat) :
    (regs.foldl (fun m r => m ||| bit r) m).getLsbD i =
      (m.getLsbD i || decide (i ∈ regs ∧ i < maxRegs)) := by
  induction regs generalizing m with
  | nil => simp
  | cons r regs ih =>
    rw [List.foldl_cons, ih, BitVec.getLsbD_or, getLsbD_bit, Bool.or_assoc]
    congr 1
    by_cases h : i = r
    · subst h
      by_cases h16 : i < maxRegs <;> simp [h16]
    · simp [h]

theorem getLsbD_maskOf (regs : List Nat) (i : Nat) :
    (maskOf regs).getLsbD i = decide (i ∈ regs ∧ i < maxRegs) := by
  rw [maskOf, getLsbD_foldl_bit]
  by_cases h16 : i < maxRegs <;> simp [h16]

theorem getLsbD_trailingZeros {m : Mask} (h : m ≠ 0#16) : m.getLsbD (trailingZeros m) = true := by
  unfold trailingZeros
  cases hf : (List.range maxRegs).find? m.getLsbD with
  | some r => exact List.find?_some hf
  | none =>
    refine absurd ?_ h
    apply BitVec.eq_of_getLsbD_eq
    intro i hi
    have := List.find?_eq_none.mp hf i (List.mem_range.mpr hi)
    simpa using this

theorem take_some {free want free' : Mask} {r : Nat} (h : take free want = some (r, free')) :
    free.getLsbD r = true ∧ want.getLsbD r = true ∧
      ∀ i, free'.getLsbD i = true → free.getLsbD i = true ∧ i ≠ r := by
  simp only [take] at h
  split at h
  · exact absurd h (by simp)
  · rename_i hne
    cases h
    have hbit := getLsbD_trailingZeros hne
    rw [BitVec.getLsbD_and, Bool.and_eq_true] at hbit
    refine ⟨hbit.1, hbit.2, fun i hi => ?_⟩
    rw [BitVec.getLsbD_and, BitVec.getLsbD_not, getLsbD_bit] at hi
    simp only [Bool.and_eq_true, decide_eq_true_eq, Bool.not_eq_true',
      decide_eq_false_iff_not] at hi
    obtain ⟨hfree, hlt, hnot⟩ := hi
    exact ⟨hfree, fun he => hnot ⟨he, he ▸ hlt⟩⟩

theorem takeFirst_some {free free' : Mask} {r : Nat} {order : List Mask}
    (h : takeFirst free order = some (r, free')) :
    free.getLsbD r = true ∧ (∃ want ∈ order, want.getLsbD r = true) ∧
      ∀ i, free'.getLsbD i = true → free.getLsbD i = true ∧ i ≠ r := by
  induction order with
  | nil => exact absurd h (by simp [takeFirst])
  | cons want rest ih =>
    unfold takeFirst at h
    split at h
    · obtain ⟨hfree, ⟨w, hw, hr⟩, hrest⟩ := ih h
      exact ⟨hfree, ⟨w, by simp [hw], hr⟩, hrest⟩
    · cases ht : take free want with
      | none =>
        rw [ht] at h
        obtain ⟨hfree, ⟨w, hw, hr⟩, hrest⟩ := ih h
        exact ⟨hfree, ⟨w, by simp [hw], hr⟩, hrest⟩
      | some p =>
        rw [ht] at h
        cases h
        obtain ⟨hfree, hwant, hrest⟩ := take_some ht
        exact ⟨hfree, ⟨want, by simp, hwant⟩, hrest⟩

/-! ## The invariant of the scan -/

/-- Two intervals that may share a register: one ends no later than the other starts, and
they do not start together. -/
def Interval.Apart (x y : Interval) : Prop :=
  (x.stop ≤ y.start ∧ x.start < y.start) ∨ (y.stop ≤ x.start ∧ y.start < x.start)

/-- The interval is over before any still to be placed begins. -/
def Interval.Over (x : Interval) (todo : List Interval) : Prop :=
  ∀ y ∈ todo, x.stop ≤ y.start ∧ x.start < y.start

/-- A register the interval may have: one of the banks, the saved one when a call crosses
the interval, and none at all when the temporary is pinned. -/
structure Suits (saved volatile : Mask) (pins : List Bool) (crossing : Nat → Nat → Bool)
    (iv : Interval) (r : Nat) : Prop where
  bank : saved.getLsbD r = true ∨ volatile.getLsbD r = true
  saved : crossing iv.start iv.stop = true → saved.getLsbD r = true
  free : pins[iv.temp]?.getD false = false

/-- **The invariant of the scan** over the intervals it has taken and those to come. -/
structure ScanInv (saved volatile : Mask) (pins : List Bool) (crossing : Nat → Nat → Bool)
    (taken todo : List Interval) (s : Scan) : Prop where
  /-- No two active intervals hold the same register. -/
  distinct : (s.active.map Live.reg).Nodup
  /-- A register that is held is not free. -/
  busy : ∀ a ∈ s.active, s.free.getLsbD a.reg = false
  /-- An active interval is one that was taken, and lives in the register it holds. -/
  held : ∀ a ∈ s.active, s.homes[a.temp]? = some (.reg a.reg) ∧
    (⟨a.temp, a.start, a.stop⟩ : Interval) ∈ taken
  /-- What has a register suits it, and is active or over. -/
  homed : ∀ t r, s.homes[t]? = some (.reg r) → ∃ iv ∈ taken, iv.temp = t ∧
    Suits saved volatile pins crossing iv r ∧
    ((⟨iv.start, iv.stop, t, r⟩ : Live) ∈ s.active ∨ iv.Over todo)
  /-- Two intervals with one register are apart. -/
  apart : ∀ x ∈ taken, ∀ y ∈ taken, x.temp ≠ y.temp → ∀ r, s.homes[x.temp]? = some (.reg r) →
    s.homes[y.temp]? = some (.reg r) → x.Apart y

theorem Interval.Over.tail {x y : Interval} {todo : List Interval} (h : x.Over (y :: todo)) :
    x.Over todo := fun z hz => h z (List.mem_cons_of_mem _ hz)

section Scan

variable {saved volatile : Mask} {pins : List Bool} {crossing : Nat → Nat → Bool}
  {taken todo : List Interval} {iv : Interval} {s : Scan}

theorem getLsbD_foldl_expired (start : Nat) (active : List Live) (free : Mask) (i : Nat)
    (h : (active.foldl (fun free a => if a.expired start then free ||| bit a.reg else free)
      free).getLsbD i = true) :
    free.getLsbD i = true ∨ ∃ a ∈ active, a.expired start = true ∧ a.reg = i := by
  induction active generalizing free with
  | nil => exact .inl h
  | cons a active ih =>
    rw [List.foldl_cons] at h
    rcases ih _ h with hfree | ⟨x, hx, hexp, hreg⟩
    · split at hfree
      · rename_i hexp
        rw [BitVec.getLsbD_or, getLsbD_bit, Bool.or_eq_true, decide_eq_true_eq] at hfree
        rcases hfree with hfree | ⟨hi, -⟩
        · exact .inl hfree
        · exact .inr ⟨a, by simp, hexp, hi.symm⟩
      · exact .inl hfree
    · exact .inr ⟨x, by simp [hx], hexp, hreg⟩

section

variable (h : ScanInv saved volatile pins crossing taken (iv :: todo) s)
include h

theorem scanInv_expire
    (hsorted : ∀ y ∈ todo, iv.start ≤ y.start) :
    ScanInv saved volatile pins crossing taken (iv :: todo) (expire iv.start s) := by
  have hsub : ∀ a, a ∈ (expire iv.start s).active → a ∈ s.active ∧ a.expired iv.start = false := by
    intro a ha
    simpa [expire] using ha
  refine ⟨h.distinct.sublist (List.filter_sublist.map _), ?_,
    fun a ha => h.held a (hsub a ha).1, ?_, h.apart⟩
  · intro a ha
    obtain ⟨hact, hexp⟩ := hsub a ha
    by_contra hcon
    rw [Bool.not_eq_false] at hcon
    rcases getLsbD_foldl_expired _ _ _ _ hcon with hfree | ⟨x, hx, hxexp, hreg⟩
    · rw [h.busy a hact] at hfree
      cases hfree
    · -- The register would be held twice.
      obtain rfl := List.inj_on_of_nodup_map h.distinct hx hact hreg
      rw [hexp] at hxexp
      cases hxexp
  · intro t r ht
    obtain ⟨x, hx, hxt, hsuits, hplace⟩ := h.homed t r ht
    refine ⟨x, hx, hxt, hsuits, ?_⟩
    rcases hplace with hact | hover
    · cases hexp : (⟨x.start, x.stop, t, r⟩ : Live).expired iv.start with
      | false =>
        left
        simp only [expire, List.mem_filter, hact, hexp, true_and, Bool.not_false]
      | true =>
        right
        simp only [Live.expired, decide_eq_true_eq] at hexp
        intro y hy
        rcases List.mem_cons.mp hy with rfl | hy
        · exact hexp
        · have := hsorted y hy
          omega
    · exact .inr hover

omit h in
theorem victim_mem {cls : Mask} {active : List Live} {v : Nat} (h : victim cls active = some v) :
    ∃ a, active[v]? = some a ∧ cls.getLsbD a.reg = true := by
  obtain ⟨⟨a, w⟩, hfold, rfl⟩ := Option.map_eq_some_iff.mp h
  -- The fold gives one of the elements it goes over.
  have hmem : ∀ (l : List (Live × Nat)) (best : Option (Live × Nat)) (x : Live × Nat),
      l.foldl furthest best = some x → best = some x ∨ x ∈ l := by
    intro l
    induction l with
    | nil => intro best x hx; exact .inl hx
    | cons p l ih =>
      intro best x hx
      rcases ih _ x hx with hp | hl
      · cases best with
        | none => right; cases hp; simp
        | some y =>
          simp only [furthest, Option.elim_some] at hp
          split at hp
          · right; cases hp; simp
          · exact .inl hp
      · exact .inr (by simp [hl])
  rcases hmem _ _ _ hfold with hnone | hin
  · cases hnone
  · obtain ⟨hin, hcls⟩ := List.mem_filter.mp hin
    refine ⟨a, List.mem_zipIdx_iff_getElem?.mp hin, ?_⟩
    by_contra hbit
    rw [decide_eq_true_eq] at hcls
    apply hcls
    apply BitVec.eq_of_getLsbD_eq
    intro i hi
    rw [BitVec.getLsbD_and, getLsbD_bit]
    by_cases he : i = a.reg
    · subst he
      simp [Bool.eq_false_iff.mpr hbit]
    · simp [he]

omit h in
theorem suits_of_order {r : Nat} {crossing' : Bool}
    (hcross : crossing iv.start iv.stop = crossing') (hpin : pins[iv.temp]?.getD false = false)
    (hr : ∃ want ∈ (if crossing' then [saved, 0#16] else [volatile, saved]),
      want.getLsbD r = true) : Suits saved volatile pins crossing iv r := by
  obtain ⟨want, hw, hr⟩ := hr
  cases crossing' with
  | true =>
    simp only [if_true, List.mem_cons, List.not_mem_nil, or_false] at hw
    rcases hw with rfl | rfl
    · exact ⟨.inl hr, fun _ => hr, hpin⟩
    · exact absurd hr (by simp)
  | false =>
    simp only [Bool.false_eq_true, if_false, List.mem_cons, List.not_mem_nil, or_false] at hw
    refine ⟨?_, fun h => absurd (hcross.symm.trans h) (by simp), hpin⟩
    rcases hw with rfl | rfl
    · exact .inr hr
    · exact .inl hr

theorem scanInv_skip
    (hnew : s.homes[iv.temp]? = some .frame) :
    ScanInv saved volatile pins crossing (taken ++ [iv]) todo s := by
  refine ⟨h.distinct, h.busy, ?_, ?_, ?_⟩
  · intro a ha
    obtain ⟨hhome, hmem⟩ := h.held a ha
    exact ⟨hhome, by simp [hmem]⟩
  · intro t r ht
    obtain ⟨x, hx, hxt, hsuits, hplace⟩ := h.homed t r ht
    exact ⟨x, by simp [hx], hxt, hsuits, hplace.imp_right Interval.Over.tail⟩
  · intro x hx y hy hne r hxr hyr
    -- The new interval is in the frame, so neither of the two is it.
    have hold : ∀ z ∈ taken ++ [iv], s.homes[z.temp]? = some (.reg r) → z ∈ taken := by
      intro z hz hzr
      rcases List.mem_append.mp hz with hz | hz
      · exact hz
      · rw [List.mem_singleton.mp hz, hnew] at hzr
        cases hzr
    exact h.apart x (hold x hx hxr) y (hold y hy hyr) hne r hxr hyr

section

variable (hnodup : ((taken ++ [iv]).map Interval.temp).Nodup)
include hnodup

theorem scanInv_give {s' : Scan} {r : Nat} (hsuits : Suits saved volatile pins crossing iv r)
    (hdistinct : (s'.active.map Live.reg).Nodup)
    (hbusy : ∀ a ∈ s'.active, s'.free.getLsbD a.reg = false)
    (hnew : s'.homes[iv.temp]? = some (.reg r))
    (hmem : (⟨iv.start, iv.stop, iv.temp, r⟩ : Live) ∈ s'.active)
    (hactive : ∀ a ∈ s'.active, a = ⟨iv.start, iv.stop, iv.temp, r⟩ ∨
      a ∈ s.active ∧ s'.homes[a.temp]? = s.homes[a.temp]?)
    (hhomes : ∀ t q, t ≠ iv.temp → s'.homes[t]? = some (.reg q) → s.homes[t]? = some (.reg q) ∧
      ∀ x : Live, x ∈ s.active → x.temp = t → x ∈ s'.active ∧ x.reg ≠ r) :
    ScanInv saved volatile pins crossing (taken ++ [iv]) todo s' := by
  have huniq := List.inj_on_of_nodup_map hnodup
  have hfresh : ∀ x ∈ taken, x.temp ≠ iv.temp := by
    intro x hx he
    rw [List.map_append, List.nodup_append] at hnodup
    exact hnodup.2.2 x.temp (List.mem_map_of_mem hx) iv.temp (by simp) he
  -- Any other interval in `r` is over: it is not active, for `r` is the new one's.
  have hother : ∀ x ∈ taken, s'.homes[x.temp]? = some (.reg r) → x.Over (iv :: todo) := by
    intro x hx hxr
    obtain ⟨hold, hact⟩ := hhomes x.temp r (hfresh x hx) hxr
    obtain ⟨z, hz, hzt, -, hplace⟩ := h.homed x.temp r hold
    rcases hplace with hin | hover
    · exact absurd rfl (hact _ hin rfl).2
    · obtain rfl := huniq (List.mem_append_left _ hz) (List.mem_append_left _ hx) hzt
      exact hover
  refine ⟨hdistinct, hbusy, ?_, ?_, ?_⟩
  · intro a ha
    rcases hactive a ha with rfl | ⟨hin, hsame⟩
    · exact ⟨hnew, by simp⟩
    · obtain ⟨hhome, hmem⟩ := h.held a hin
      exact ⟨hsame.trans hhome, by simp [hmem]⟩
  · intro t q ht
    by_cases he : t = iv.temp
    · subst he
      rw [hnew] at ht
      cases ht
      exact ⟨iv, by simp, rfl, hsuits, .inl hmem⟩
    · obtain ⟨hold, hact⟩ := hhomes t q he ht
      obtain ⟨x, hx, hxt, hs, hplace⟩ := h.homed t q hold
      refine ⟨x, by simp [hx], hxt, hs, ?_⟩
      rcases hplace with hin | hover
      · exact .inl (hact _ hin rfl).1
      · exact .inr hover.tail
  · intro x hx y hy hne q hxq hyq
    -- Of the two, one may be the new interval.
    rcases List.mem_append.mp hx with hxt | hxi <;> rcases List.mem_append.mp hy with hyt | hyi
    · exact h.apart x hxt y hyt hne q (hhomes _ q (hfresh x hxt) hxq).1
        (hhomes _ q (hfresh y hyt) hyq).1
    · obtain rfl := List.mem_singleton.mp hyi
      rw [hnew] at hyq
      cases hyq
      exact .inl (hother x hxt hxq y (by simp))
    · obtain rfl := List.mem_singleton.mp hxi
      rw [hnew] at hxq
      cases hxq
      exact .inr (hother y hyt hyq x (by simp))
    · exact absurd (by rw [List.mem_singleton.mp hxi, List.mem_singleton.mp hyi]) hne

theorem scanInv_take {r : Nat} {free' : Mask}
    (hnew : s.homes[iv.temp]? = some .frame) (hsuits : Suits saved volatile pins crossing iv r)
    (hfree : s.free.getLsbD r = true)
    (hleft : ∀ i, free'.getLsbD i = true → s.free.getLsbD i = true ∧ i ≠ r) :
    ScanInv saved volatile pins crossing (taken ++ [iv]) todo
      ⟨s.homes.set iv.temp (.reg r), free', s.active ++ [⟨iv.start, iv.stop, iv.temp, r⟩]⟩ := by
  have hidle : ∀ a ∈ s.active, a.reg ≠ r := by
    intro a ha he
    rw [← he, h.busy a ha] at hfree
    cases hfree
  have hlt := (List.getElem?_eq_some_iff.mp hnew).1
  have hother : ∀ t, t ≠ iv.temp → (s.homes.set iv.temp (.reg r))[t]? = s.homes[t]? :=
    fun t ht => List.getElem?_set_ne (fun he => ht he.symm)
  refine scanInv_give h hnodup hsuits ?_ ?_ (List.getElem?_set_self hlt) (by simp) ?_ ?_
  · rw [List.map_append, List.nodup_append]
    refine ⟨h.distinct, by simp, ?_⟩
    intro q hq q' hq'
    obtain ⟨a, ha, rfl⟩ := List.mem_map.mp hq
    obtain rfl : q' = r := by simpa using hq'
    exact hidle a ha
  · intro a ha
    by_contra hcon
    obtain ⟨hwas, hne⟩ := hleft a.reg (Bool.eq_true_of_not_eq_false hcon)
    rcases List.mem_append.mp ha with ha | ha
    · rw [h.busy a ha] at hwas
      cases hwas
    · exact hne (by rw [List.mem_singleton.mp ha])
  · intro a ha
    rcases List.mem_append.mp ha with ha | ha
    · refine .inr ⟨ha, hother a.temp ?_⟩
      intro he
      rw [← he, (h.held a ha).1] at hnew
      cases hnew
    · exact .inl (List.mem_singleton.mp ha)
  · intro t q ht hq
    rw [hother t ht] at hq
    exact ⟨hq, fun x hx _ => ⟨List.mem_append_left _ hx, hidle x hx⟩⟩

theorem scanInv_evict {a : Live} {v : Nat} (hnew : s.homes[iv.temp]? = some .frame)
    (hsuits : Suits saved volatile pins crossing iv a.reg) (hv : s.active[v]? = some a) :
    ScanInv saved volatile pins crossing (taken ++ [iv]) todo
      ⟨(s.homes.set a.temp .frame).set iv.temp (.reg a.reg), s.free,
        s.active.set v ⟨iv.start, iv.stop, iv.temp, a.reg⟩⟩ := by
  have ha : a ∈ s.active := List.mem_of_getElem? hv
  have hvlt := (List.getElem?_eq_some_iff.mp hv).1
  have hlt := (List.getElem?_eq_some_iff.mp hnew).1
  -- The registers that are held are the same as before.
  have hregs : (s.active.set v ⟨iv.start, iv.stop, iv.temp, a.reg⟩).map Live.reg =
      s.active.map Live.reg := by
    apply List.ext_getElem?
    intro w
    rw [List.getElem?_map, List.getElem?_map]
    by_cases hw : v = w
    · subst hw
      rw [List.getElem?_set_self hvlt, hv]
      rfl
    · rw [List.getElem?_set_ne hw]
  have hmem : (⟨iv.start, iv.stop, iv.temp, a.reg⟩ : Live) ∈
      s.active.set v ⟨iv.start, iv.stop, iv.temp, a.reg⟩ := List.mem_set hvlt _
  -- No other active interval holds the victim's register, or is the victim's.
  have hkept : ∀ x ∈ s.active, x.temp ≠ a.temp →
      x ∈ s.active.set v ⟨iv.start, iv.stop, iv.temp, a.reg⟩ ∧ x.reg ≠ a.reg := by
    intro x hx hne
    obtain ⟨w, hw⟩ := List.mem_iff_getElem?.mp hx
    have hwv : v ≠ w := by
      intro he
      rw [he, hw] at hv
      cases hv
      exact hne rfl
    refine ⟨List.mem_iff_getElem?.mpr ⟨w, by rw [List.getElem?_set_ne hwv, hw]⟩, ?_⟩
    intro he
    exact hne (by rw [List.inj_on_of_nodup_map h.distinct hx ha he])
  have hother : ∀ t, t ≠ iv.temp → t ≠ a.temp →
      ((s.homes.set a.temp .frame).set iv.temp (.reg a.reg))[t]? = s.homes[t]? := by
    intro t ht hta
    rw [List.getElem?_set_ne (fun he => ht he.symm), List.getElem?_set_ne (fun he => hta he.symm)]
  refine scanInv_give h hnodup hsuits (by rw [hregs]; exact h.distinct) ?_ ?_ hmem ?_ ?_
  · intro x hx
    rcases List.mem_or_eq_of_mem_set hx with hx | rfl
    · exact h.busy x hx
    · exact h.busy a ha
  · exact List.getElem?_set_self (by simpa using hlt)
  · intro x hx
    by_cases hxnew : x = ⟨iv.start, iv.stop, iv.temp, a.reg⟩
    · exact .inl hxnew
    · have hin := (List.mem_or_eq_of_mem_set hx).resolve_right hxnew
      refine .inr ⟨hin, hother x.temp ?_ ?_⟩
      · intro he
        rw [← he, (h.held x hin).1] at hnew
        cases hnew
      · -- Otherwise `x` and the victim are one, and the victim is gone from the list.
        intro he
        have hreg : x.reg = a.reg := by
          have := (h.held x hin).1
          rw [he, (h.held a ha).1] at this
          simpa using this.symm
        exact hxnew (List.inj_on_of_nodup_map (by rw [hregs]; exact h.distinct) hx hmem hreg)
  · intro t q ht hq
    by_cases hta : t = a.temp
    · subst hta
      rw [List.getElem?_set_ne (fun he => ht he.symm), List.getElem?_set_self'] at hq
      exact absurd hq (by cases s.homes[a.temp]? <;> simp)
    · rw [hother t ht hta] at hq
      exact ⟨hq, fun x hx hxt => hkept x hx (hxt ▸ hta)⟩

theorem scanInv_place
    (hnew : s.homes[iv.temp]? = some .frame) (hpin : pins[iv.temp]?.getD false = false) :
    ScanInv saved volatile pins crossing (taken ++ [iv]) todo
      (place saved volatile (crossing iv.start iv.stop) s iv) := by
  simp only [place]
  split
  · rename_i r free' htake
    obtain ⟨hfree, hwant, hleft⟩ := takeFirst_some htake
    exact scanInv_take h hnodup hnew (suits_of_order rfl hpin hwant) hfree hleft
  · split
    · exact scanInv_skip h hnew
    · rename_i v hvictim
      split
      · exact scanInv_skip h hnew
      · rename_i a ha
        split
        · obtain ⟨a', ha', hcls⟩ := victim_mem hvictim
          rw [ha] at ha'
          cases ha'
          refine scanInv_evict h hnodup hnew ⟨?_, ?_, hpin⟩ ha
          · split at hcls
            · exact .inl hcls
            · rw [BitVec.getLsbD_or, Bool.or_eq_true] at hcls
              exact hcls
          · intro hcross
            rwa [hcross, if_pos rfl] at hcls
        · exact scanInv_skip h hnew

end

end

theorem place_frame {crossing' : Bool} {t : Temp} (ht : t ≠ iv.temp)
    (h : s.homes[t]? = some .frame) :
    (place saved volatile crossing' s iv).homes[t]? = some .frame := by
  simp only [place]
  split
  · exact (List.getElem?_set_ne (fun he => ht he.symm)).trans h
  · split
    · exact h
    · split
      · exact h
      · split
        · rename_i a _ _
          show ((s.homes.set a.temp .frame).set iv.temp (.reg a.reg))[t]? = some .frame
          rw [List.getElem?_set_ne (fun he => ht he.symm)]
          by_cases hta : a.temp = t
          · rw [hta, List.getElem?_set_self (List.getElem?_eq_some_iff.mp h).1]
          · rw [List.getElem?_set_ne hta, h]
        · exact h

end Scan

/-! ## The whole scan -/

section Whole

variable {saved volatile : Mask} {pins : List Bool} {inside gaps : List Nat} {n : Nat}

theorem scanInv_foldl (todo : List Interval) {taken : List Interval} {s : Scan}
    (h : ScanInv saved volatile pins (crosses inside gaps) taken todo s)
    (hnodup : ((taken ++ todo).map Interval.temp).Nodup)
    (hsorted : todo.Pairwise fun x y => x.start ≤ y.start)
    (hframe : ∀ x ∈ todo, x.temp < n ∧ s.homes[x.temp]? = some .frame) :
    ScanInv saved volatile pins (crosses inside gaps) (taken ++ todo) []
      (todo.foldl (scanStep n pins inside gaps saved volatile) s) := by
  induction todo generalizing taken s with
  | nil => simpa using h
  | cons iv todo ih =>
    obtain ⟨hle, hsorted⟩ := List.pairwise_cons.mp hsorted
    obtain ⟨hlt, hnew⟩ := hframe iv (by simp)
    have hsplit : taken ++ iv :: todo = (taken ++ [iv]) ++ todo := by simp
    have hhead : ((taken ++ [iv]).map Interval.temp).Nodup := by
      rw [hsplit, List.map_append] at hnodup
      exact (List.nodup_append.mp hnodup).1
    -- The temporaries still to come are not this one.
    have hlater : ∀ x ∈ todo, x.temp ≠ iv.temp := by
      intro x hx he
      rw [hsplit, List.map_append, List.nodup_append] at hnodup
      exact hnodup.2.2 iv.temp (by simp) x.temp (List.mem_map_of_mem hx) he.symm
    rw [List.foldl_cons, hsplit]
    have hexp := scanInv_expire h hle
    simp only [scanStep, if_neg (Nat.not_le.mpr hlt)]
    split
    · refine ih (scanInv_skip hexp hnew) (hsplit ▸ hnodup) hsorted ?_
      intro x hx
      exact hframe x (by simp [hx])
    · rename_i hpin
      refine ih (scanInv_place hexp hhead hnew (Bool.eq_false_iff.mpr hpin)) (hsplit ▸ hnodup)
        hsorted ?_
      intro x hx
      obtain ⟨hxlt, hx'⟩ := hframe x (by simp [hx])
      exact ⟨hxlt, place_frame (hlater x hx) hx'⟩

end Whole

/-! ## Calls and branches -/

def callsBelow (calls : List Bool) : Nat → Nat
  | 0 => 0
  | i + 1 => callsBelow calls i + (calls[i]?.getD false).toNat

theorem prefixCounts_eq (calls : List Bool) (n : Nat) :
    prefixCounts calls n = (List.range (n + 1)).map (callsBelow calls) := by
  induction n with
  | zero => rfl
  | succ n ih =>
    have hlast : (prefixCounts calls n).getLastD 0 = callsBelow calls n := by
      rw [ih, List.range_succ]
      simp
    have hrange : List.range (n + 1 + 1) = List.range (n + 1) ++ [n + 1] := List.range_succ
    rw [prefixCounts, hlast, ih, hrange, List.map_append]
    rfl

theorem callsBelow_mono (calls : List Bool) {i j : Nat} (h : i ≤ j) :
    callsBelow calls i ≤ callsBelow calls j := by
  induction h with
  | refl => exact Nat.le_refl _
  | step _ ih => exact Nat.le_trans ih (Nat.le_add_right _ _)

theorem anyCall_of_mem {calls : List Bool} {len lo c : Nat} (hi : Nat)
    (hcall : calls[c]? = some true)
    (hlo : lo ≤ c) (hhi : c < hi) (hlen : c < len) :
    anyCall (prefixCounts calls len) lo hi = true := by
  have hget : ∀ i, i ≤ len → (prefixCounts calls len)[i]?.getD 0 = callsBelow calls i := by
    intro i hi
    rw [prefixCounts_eq, List.getElem?_map, List.getElem?_range (by omega)]
    rfl
  have hlength : (prefixCounts calls len).length = len + 1 := by simp [prefixCounts_eq]
  have hne : (prefixCounts calls len).isEmpty = false := by
    rw [List.isEmpty_eq_false_iff_exists_mem]
    exact ⟨_, List.mem_of_getElem? (List.getElem?_eq_getElem (show 0 < _ by omega))⟩
  simp only [anyCall, hne, hlength, Nat.add_sub_cancel]
  rw [if_neg (by simp; omega), decide_eq_true_eq, hget _ (by omega), hget _ (by omega)]
  calc callsBelow calls (min lo (min hi len)) ≤ callsBelow calls c := callsBelow_mono _ (by omega)
    _ < callsBelow calls (c + 1) := by simp [callsBelow, hcall]
    _ ≤ callsBelow calls (min hi len) := callsBelow_mono _ (by omega)

theorem getElem?_pinSkipped {lives : List TempLife} {pins : List Bool} {inst : Inst} {i t : Nat}
    (ht : t < pins.length) (h : pins[t]? = some true ∨
      inst.op = .brcond ∧ i < inst.aux ∧ (lives[t]?).any (skips i inst.aux) = true) :
    (pinSkipped lives pins inst i)[t]? = some true := by
  have hpin := List.getElem?_eq_getElem ht
  unfold pinSkipped
  split
  · rename_i hop
    exact h.resolve_right fun hb => hop hb.1
  · split
    · exact h.resolve_right fun hb => by omega
    · rw [List.getElem?_map, List.getElem?_zipIdx, hpin]
      rcases h with h | ⟨-, -, hskip⟩
      · rw [hpin] at h
        simp [Option.some.inj h]
      · simp [hskip]

theorem length_pinSkipped (lives : List TempLife) (pins : List Bool) (inst : Inst) (i : Nat) :
    (pinSkipped lives pins inst i).length = pins.length := by
  unfold pinSkipped
  split
  · rfl
  · split
    · rfl
    · simp

theorem length_pinUnassigned (insts : List Inst) (pins defined : List Bool) :
    (pinUnassigned pins defined insts).length = pins.length := by
  have hreads : ∀ (srcs : List Temp) (pins defined : List Bool),
      (pinReads pins defined srcs).length = pins.length := by
    intro srcs
    induction srcs with
    | nil => intro _ _; rfl
    | cons src srcs ih => intro pins defined; rw [pinReads, ih]; split <;> simp
  induction insts generalizing pins defined with
  | nil => rfl
  | cons inst insts ih => rw [pinUnassigned, ih, hreads]

variable {b : Block}

theorem pinned_of_skips {lives : List TempLife} {n i t : Nat} {inst : Inst}
    (hi : b.insts[i]? = some inst) (hop : inst.op = .brcond) (hfwd : i < inst.aux) (ht : t < n)
    (hskip : (lives[t]?).any (skips i inst.aux) = true) : (pinned b lives n)[t]? = some true := by
  have hfold : ∀ (l : List (Inst × Nat)) (pins : List Bool), t < pins.length →
      (pins[t]? = some true ∨ (inst, i) ∈ l) →
      (l.foldl (fun pinned p => pinSkipped lives pinned p.1 p.2) pins)[t]? = some true := by
    intro l
    induction l with
    | nil =>
      intro pins _ h
      exact h.resolve_right (by simp)
    | cons p l ih =>
      intro pins hlt h
      refine ih _ (by rw [length_pinSkipped]; exact hlt) ?_
      rcases h with h | h
      · exact .inl (getElem?_pinSkipped hlt (.inl h))
      · rcases List.mem_cons.mp h with rfl | h
        · exact .inl (getElem?_pinSkipped hlt (.inr ⟨hop, hfwd, hskip⟩))
        · exact .inr h
  refine hfold _ _ (by rw [length_pinUnassigned]; simpa using ht) (.inr ?_)
  exact List.mem_zipIdx_iff_getElem?.mpr hi

/-! ## What an allocation promises -/

/-- Instruction `i` reads the temporary or may have to spill it. -/
def Block.Uses (b : Block) (i : Nat) (t : Temp) : Prop := b.Reads i t ∨ b.Names i t

/-- Assigned by instruction `i` or before it, and used after. -/
def Block.Pending (b : Block) (i : Nat) (t : Temp) : Prop :=
  (∃ d ≤ i, b.Assigns d t) ∧ ∃ j, i < j ∧ b.Uses j t

/-- **What makes an allocation sound** for a block, its banks and its call sites. -/
structure SoundAllocation (b : Block) (banks : RegBanks) (sites : CallSites) (a : Allocation) :
    Prop where
  /-- Of two temporaries with one register, the one assigned first has no use left when
  the other is assigned, and they are not assigned together. -/
  apart : ∀ t u r, t ≠ u → a.home t = .reg r → a.home u = .reg r →
    ∀ d e, b.Assigns d t → b.Assigns e u → d ≤ e → d < e ∧ ∀ j, b.Uses j t → j ≤ e
  /-- A register comes from the banks. -/
  banked : ∀ t r, a.home t = .reg r → r ∈ banks.saved ∨ r ∈ banks.volatile
  /-- A call inside an instruction strictly within the interval. -/
  inside : ∀ iv ∈ intervals (liveness b), ∀ r c, a.home iv.temp = .reg r → iv.start < c →
    c < iv.stop → sites.inside[c]? = some true → r ∈ banks.saved
  /-- A call in the gap before an instruction of the interval. -/
  before : ∀ iv ∈ intervals (liveness b), ∀ r c, a.home iv.temp = .reg r → iv.start < c →
    c ≤ iv.stop → sites.before[c]? = some true → r ∈ banks.saved
  /-- A definition that a branch skips, with a use at the branch's target or after. -/
  skipped : ∀ t d j i, ∀ inst : Inst, b.insts[i]? = some inst → inst.op = .brcond → i < d →
    d < inst.aux → inst.aux ≤ j → b.Assigns d t → b.Uses j t → a.home t = .frame
  /-- What a boundary names has its value in the frame. -/
  backed : ∀ t j, b.Names j t → a.frameBacked t = true

theorem SoundAllocation.pending {banks : RegBanks} {sites : CallSites} {a : Allocation}
    (h : SoundAllocation b banks sites a) {t u : Temp} {r : Nat} (hne : t ≠ u)
    (ht : a.home t = .reg r) (hu : a.home u = .reg r) (i : Nat) :
    ¬ (b.Pending i t ∧ b.Pending i u) := by
  rintro ⟨⟨⟨d, hd, had⟩, j, hj, huj⟩, ⟨e, he, hae⟩, k, hk, huk⟩
  rcases Nat.le_total d e with hde | hed
  · have := (h.apart t u r hne ht hu d e had hae hde).2 j huj
    omega
  · have := (h.apart u t r hne.symm hu ht e d hae had hed).2 k huk
    omega

theorem assigns_lt {i : Nat} {t : Temp} (h : b.Assigns i t) : i < b.insts.length := by
  obtain ⟨inst, hi, -⟩ := h
  exact (List.getElem?_eq_some_iff.mp hi).1

theorem uses_lt {i : Nat} {t : Temp} (h : b.Uses i t) : i < b.insts.length := by
  rcases h with ⟨inst, hi, -⟩ | ⟨inst, hi, -⟩
  · exact (List.getElem?_eq_some_iff.mp hi).1
  · exact (List.getElem?_eq_some_iff.mp hi).1

theorem interval_within {t start stop : Nat} {life : TempLife}
    (hlife : (liveness b)[t]? = some life) (hint : life.interval = some (start, stop)) :
    stop < b.insts.length := by
  have ht : t < b.tempCount := by
    rw [← length_liveness]
    exact (List.getElem?_eq_some_iff.mp hlife).1
  obtain ⟨life', hlife', hspec⟩ := liveness_spec b ht
  rw [hlife] at hlife'
  cases hlife'
  obtain ⟨d, hd, he⟩ := Option.map_eq_some_iff.mp hint
  cases he
  have hdlt := assigns_lt (hspec.assigned _ hd)
  cases hl : life.lastUse with
  | none => simpa using hdlt
  | some e =>
    have := hspec.within e hl
    simp only [Option.getD_some]
    omega

theorem interval_spec (hb : Verified b) {d t : Nat} (ha : b.Assigns d t) :
    ∃ stop, (⟨t, d, stop⟩ : Interval) ∈ intervals (liveness b) ∧ (∀ j, b.Uses j t → j ≤ stop) ∧
      ∃ life, (liveness b)[t]? = some life ∧ life.defAt = some d ∧
        ∀ j, b.Uses j t → j ≤ life.lastUse.getD d := by
  obtain ⟨life, hlife, hspec⟩ := liveness_spec b (hb.allocated d t ha)
  obtain ⟨d', hd'⟩ := hspec.defined d (assigns_lt ha) ha
  obtain rfl := hb.once d' d t (hspec.assigned d' hd') ha
  have huse : ∀ j, b.Uses j t → j ≤ life.lastUse.getD d' := by
    intro j hu
    obtain ⟨e, he, hje⟩ := hspec.used j (uses_lt hu) hu
    rw [he]
    exact hje
  refine ⟨max (life.lastUse.getD d') d', ?_, ?_, life, hlife, hd', huse⟩
  · exact mem_intervals.mpr ⟨life, hlife, by simp [TempLife.interval, hd']⟩
  · intro j hu
    exact Nat.le_trans (huse j hu) (Nat.le_max_left _ _)

theorem home_eq_reg {a : Allocation} {t r : Nat} (h : a.home t = .reg r) :
    a.homes[t]? = some (.reg r) := by
  unfold Allocation.home at h
  cases hh : a.homes[t]? with
  | none => rw [hh] at h; cases h
  | some x => rw [hh] at h; rw [← h]; rfl

theorem scanInv_scanAll (b : Block) (banks : RegBanks) (sites : CallSites) :
    ScanInv (maskOf banks.saved) (maskOf banks.volatile) (pinned b (liveness b) b.tempCount)
      (crosses (prefixCounts sites.inside b.insts.length)
        (prefixCounts sites.before b.insts.length))
      (intervals (liveness b)) [] (scanAll b (liveness b) banks sites) := by
  have hframe : ∀ t, t < b.tempCount →
      (List.replicate b.tempCount Home.frame)[t]? = some .frame := by
    intro t ht
    rw [List.getElem?_replicate, if_pos ht]
  have hstart : ScanInv (maskOf banks.saved) (maskOf banks.volatile)
      (pinned b (liveness b) b.tempCount)
      (crosses (prefixCounts sites.inside b.insts.length)
        (prefixCounts sites.before b.insts.length)) [] (intervals (liveness b))
      ⟨List.replicate b.tempCount .frame, maskOf banks.saved ||| maskOf banks.volatile, []⟩ := by
    refine ⟨by simp, by simp, by simp, ?_, by simp⟩
    intro t r ht
    rw [List.getElem?_replicate] at ht
    split at ht
    · exact absurd ht (by simp)
    · exact absurd ht (by simp)
  refine scanInv_foldl (intervals (liveness b)) hstart (intervals_nodup _)
    (intervals_sorted _) ?_
  intro x hx
  obtain ⟨life, hlife, -⟩ := mem_intervals.mp hx
  have hlt := (List.getElem?_eq_some_iff.mp hlife).1
  rw [length_liveness] at hlt
  exact ⟨hlt, hframe _ hlt⟩

theorem suits_of_home {banks : RegBanks} {sites : CallSites} {d t r stop : Nat}
    (hiv : (⟨t, d, stop⟩ : Interval) ∈ intervals (liveness b))
    (hhome : (linearScan b (liveness b) banks sites).home t = .reg r) :
    Suits (maskOf banks.saved) (maskOf banks.volatile) (pinned b (liveness b) b.tempCount)
      (crosses (prefixCounts sites.inside b.insts.length)
        (prefixCounts sites.before b.insts.length)) ⟨t, d, stop⟩ r := by
  obtain ⟨x, hx, hxt, hsuits, -⟩ := (scanInv_scanAll b banks sites).homed t r (home_eq_reg hhome)
  have := List.inj_on_of_nodup_map (intervals_nodup (liveness b)) hx hiv hxt
  rwa [this] at hsuits

theorem linearScan_sound (hb : Verified b) (banks : RegBanks) (sites : CallSites) :
    SoundAllocation b banks sites (linearScan b (liveness b) banks sites) := by
  have hmask : ∀ {regs : List Nat} {r : Nat}, (maskOf regs).getLsbD r = true → r ∈ regs := by
    intro regs r h
    rw [getLsbD_maskOf, decide_eq_true_eq] at h
    exact h.1
  have hstop : ∀ iv ∈ intervals (liveness b), iv.stop < b.insts.length := by
    intro iv hiv
    obtain ⟨life, hlife, hint⟩ := mem_intervals.mp hiv
    exact interval_within hlife hint
  refine ⟨?_, ?_, ?_, ?_, ?_, ?_⟩
  · intro t u r hne ht hu d e hd he hde
    obtain ⟨stop, hiv, huse, -⟩ := interval_spec hb hd
    obtain ⟨stop', hiv', huse', -⟩ := interval_spec hb he
    have hap := (scanInv_scanAll b banks sites).apart _ hiv _ hiv' hne r (home_eq_reg ht)
      (home_eq_reg hu)
    rcases hap with ⟨hle, hlt⟩ | ⟨-, hlt⟩
    · exact ⟨hlt, fun j hj => Nat.le_trans (huse j hj) hle⟩
    · exact absurd hlt (Nat.not_lt.mpr hde)
  · intro t r ht
    obtain ⟨x, hx, hxt, hsuits, -⟩ :=
      (scanInv_scanAll b banks sites).homed t r (home_eq_reg ht)
    exact hsuits.bank.imp hmask hmask
  · intro iv hiv r c ht hlo hhi hcall
    refine hmask ((suits_of_home hiv ht).saved ?_)
    have hany := anyCall_of_mem iv.stop hcall (show iv.start + 1 ≤ c by omega) hhi
      (Nat.lt_trans hhi (hstop iv hiv))
    simp [crosses, hany]
  · intro iv hiv r c ht hlo hhi hcall
    refine hmask ((suits_of_home hiv ht).saved ?_)
    have hany := anyCall_of_mem (iv.stop + 1) hcall (show iv.start + 1 ≤ c by omega) (by omega)
      (Nat.lt_of_le_of_lt hhi (hstop iv hiv))
    simp [crosses, hany]
  · intro t d j i inst hi hop hid hda haj hd hu
    obtain ⟨stop, hiv, -, life, hlife, hdef, huse⟩ := interval_spec hb hd
    -- It is pinned, and what has a register is not.
    have hpin := pinned_of_skips (n := b.tempCount) hi hop (Nat.lt_trans hid hda)
      (hb.allocated d t hd) (show ((liveness b)[t]?).any (skips i inst.aux) = true by
        rw [hlife]
        simp only [Option.any_some, skips, hdef, decide_eq_true_eq]
        exact ⟨hid, hda, Nat.le_trans haj (huse j hu)⟩)
    cases hh : (linearScan b (liveness b) banks sites).home t with
    | frame => rfl
    | reg r =>
      have := (suits_of_home hiv hh).free
      rw [hpin] at this
      cases this
  · intro t j hn
    obtain ⟨d, -, hd⟩ := hb.names j t hn
    have ht := hb.allocated d t hd
    obtain ⟨life, hlife, hspec⟩ := liveness_spec b ht
    have hbound := hspec.boundary j (uses_lt (.inr hn)) hn
    have hentry : (linearScan b (liveness b) banks sites).boundary[t]? = some true := by
      simp only [linearScan, List.getElem?_map]
      rw [List.getElem?_range ht, Option.map_some, hlife]
      simp [hbound]
    simp [Allocation.frameBacked, hentry]

end Rsemu.Ir
