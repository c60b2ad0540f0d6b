import Mathlib.Data.List.Nodup
import Mathlib.Data.List.Perm.Subperm
import Rsemu.Virtio.Queue

/-!
# How far a descriptor walk goes

A walk over the queue's own table ends after as many descriptors as the queue has, links or
no links. A walk over an indirect table ends after as many entries as the table has, and
how many that is, the guest says. So what bounds a walk is the chain the guest built:
`Passes` follows its links in the queue's own table, `Follows` those in an indirect table,
and a `Buffer` is a place these lead to.
-/

namespace Rsemu.Virtio

variable (mem : Reads)

/-- Following `n` links of the table from entry `i` leads to entry `j`. -/
inductive Follows (base count : Nat) : Nat → Nat → Nat → Prop where
  | here (i : Nat) : Follows base count i 0 i
  | link {i n j : Nat} {entry : Descriptor} : tableEntry mem base i = .ok entry →
      entry.has descFIndirect = false → entry.has descFNext = true → entry.next < count →
      Follows base count entry.next n j → Follows base count i (n + 1) j

/-- The table's entry can be read and is not indirect. -/
def Plain (base i : Nat) : Prop :=
  ∃ entry, tableEntry mem base i = .ok entry ∧ entry.has descFIndirect = false

variable {mem}

theorem follows_zero {base count i j : Nat} : Follows mem base count i 0 j ↔ j = i := by
  constructor
  · intro h
    cases h
    rfl
  · rintro rfl
    exact .here j

theorem follows_succ {base count i n j : Nat} {entry : Descriptor}
    (hentry : tableEntry mem base i = .ok entry) :
    Follows mem base count i (n + 1) j ↔ entry.has descFIndirect = false ∧
      entry.has descFNext = true ∧ entry.next < count ∧
      Follows mem base count entry.next n j := by
  constructor
  · intro h
    cases h with
    | link hentry' hindirect hnext hlt hrest =>
      rw [hentry] at hentry'
      obtain rfl := Except.ok.inj hentry'
      exact ⟨hindirect, hnext, hlt, hrest⟩
  · rintro ⟨hindirect, hnext, hlt, hrest⟩
    exact .link hentry hindirect hnext hlt hrest

theorem not_follows_of_error {base count i n j : Nat} {e : Fault}
    (hentry : tableEntry mem base i = .error e) : ¬ Follows mem base count i (n + 1) j := by
  intro h
  cases h with
  | link hentry' =>
    rw [hentry] at hentry'
    cases hentry'

theorem walkTable_succ (mem : Reads) (base count fuel i : Nat) :
    ((∀ n j, ¬ Follows mem base count i (n + 1) j) ∧
      (walkTable mem base count (fuel + 1) i).reads = 1 ∧
      (∀ n, n < (walkTable mem base count (fuel + 1) i).out.length ↔ n = 0 ∧ Plain mem base i) ∧
      ∀ e, (walkTable mem base count (fuel + 1) i).fault = some e ↔
        tableEntry mem base i = .error e) ∨
    ∃ entry, tableEntry mem base i = .ok entry ∧ Plain mem base i ∧
      (∀ n j, Follows mem base count i (n + 1) j ↔ Follows mem base count entry.next n j) ∧
      walkTable mem base count (fuel + 1) i =
        (walkTable mem base count fuel entry.next).after entry := by
  rw [walkTable]
  rcases hentry : tableEntry mem base i with e | entry
  · exact .inl ⟨fun _ _ => not_follows_of_error hentry, rfl, by simp [Plain, hentry], by simp⟩
  have hplain : Plain mem base i ↔ entry.has descFIndirect = false := by simp [Plain, hentry]
  have hfollows := fun n j => @follows_succ mem base count i n j entry hentry
  simp only
  by_cases hindirect : entry.has descFIndirect = true
  · exact .inl (by simp [hfollows, hplain, hindirect])
  have hplain := hplain.mpr (by simpa using hindirect)
  by_cases hnext : entry.has descFNext = true
  · by_cases hlt : count ≤ entry.next
    · exact .inl (by simp [hfollows, hplain, hindirect, hnext, hlt, Nat.not_lt.mpr hlt])
    · refine .inr ⟨entry, rfl, hplain, fun n j => ?_, by simp [hindirect, hnext, hlt]⟩
      simp [hfollows, hindirect, hnext, Nat.lt_of_not_le hlt]
  · exact .inl (by simp [hfollows, hplain, hindirect, hnext])

theorem lt_walkTable_reads {base count fuel i n : Nat} :
    n < (walkTable mem base count fuel i).reads ↔ n < fuel ∧ ∃ j, Follows mem base count i n j := by
  induction fuel generalizing i n with
  | zero => simp [walkTable]
  | succ fuel ih =>
    rcases walkTable_succ mem base count fuel i with ⟨hno, hreads, -⟩ | ⟨entry, -, -, hlink, hgo⟩
    · rw [hreads]
      cases n with
      | zero => simp [follows_zero]
      | succ n => simp [hno]
    · rw [hgo, Walk.after]
      cases n with
      | zero => simp [follows_zero]
      | succ n => simp [ih, hlink]

theorem lt_walkTable_out {base count fuel i n : Nat} :
    n < (walkTable mem base count fuel i).out.length ↔
      n < fuel ∧ ∃ j, Follows mem base count i n j ∧ Plain mem base j := by
  induction fuel generalizing i n with
  | zero => simp [walkTable]
  | succ fuel ih =>
    rcases walkTable_succ mem base count fuel i with
      ⟨hno, -, hout, -⟩ | ⟨entry, -, hplain, hlink, hgo⟩
    · rw [hout]
      cases n with
      | zero => simp [follows_zero]
      | succ n => simp [hno]
    · rw [hgo, Walk.after]
      cases n with
      | zero => simp [follows_zero, hplain]
      | succ n => simp [ih, hlink]

theorem walkTable_fault_eq {base count fuel i : Nat} {e : Fault} :
    (walkTable mem base count fuel i).fault = some e ↔
      ∃ n j, n < fuel ∧ Follows mem base count i n j ∧ tableEntry mem base j = .error e := by
  induction fuel generalizing i with
  | zero => simp [walkTable]
  | succ fuel ih =>
    rcases walkTable_succ mem base count fuel i with
      ⟨hno, -, -, hfault⟩ | ⟨entry, hentry, -, hlink, hgo⟩
    · rw [hfault]
      refine ⟨fun he => ⟨0, i, Nat.succ_pos _, .here i, he⟩, fun ⟨n, j, _, hj, he⟩ => ?_⟩
      cases n with
      | zero => exact follows_zero.mp hj ▸ he
      | succ n => exact absurd hj (hno n j)
    · rw [hgo, Walk.after, ih]
      constructor
      · intro ⟨n, j, hn, hj, he⟩
        exact ⟨n + 1, j, Nat.succ_lt_succ hn, (hlink n j).mpr hj, he⟩
      · intro ⟨n, j, hn, hj, he⟩
        cases n with
        | zero =>
          obtain rfl := follows_zero.mp hj
          cases hentry.symm.trans he
        | succ n => exact ⟨n, j, Nat.lt_of_succ_lt_succ hn, (hlink n j).mp hj, he⟩

theorem walkTable_fault {base count fuel i : Nat} :
    (walkTable mem base count fuel i).fault = none ↔
      ∀ n j, n < fuel → Follows mem base count i n j →
        ∃ entry, tableEntry mem base j = .ok entry := by
  rw [Option.eq_none_iff_forall_ne_some]
  simp only [ne_eq, walkTable_fault_eq, not_exists, not_and]
  constructor
  · intro h n j hn hj
    rcases hentry : tableEntry mem base j with e | entry
    · exact absurd hentry (h e n j hn hj)
    · exact ⟨entry, rfl⟩
  · intro h e n j hn hj he
    obtain ⟨entry, hok⟩ := h n j hn hj
    rw [hok] at he
    exact absurd he (by simp)

def Descriptor.count (desc : Descriptor) : Nat := desc.len / descSize

variable (mem)

/-- The links of the indirect table lead to entry `j` in `n` steps. -/
def Descriptor.Leads (desc : Descriptor) (n j : Nat) : Prop :=
  n < desc.count ∧ Follows mem desc.addr desc.count 0 n j

/-- Nothing faults behind a descriptor: what its table's links lead to can be read. -/
def Descriptor.Whole (desc : Descriptor) : Prop :=
  desc.has descFIndirect = true →
    ∀ n j, desc.Leads mem n j → ∃ entry, tableEntry mem desc.addr j = .ok entry

/-- The buffers a descriptor stands for: itself, or those its table's links lead to. -/
def Descriptor.Holds (desc : Descriptor) (n : Nat) : Prop :=
  if desc.has descFIndirect = true then ∃ j, desc.Leads mem n j ∧ Plain mem desc.addr j
  else n = 0

/-- Following `k` links of the queue's own table from descriptor `i` leads to `j`. -/
inductive Passes (layout : Layout) : Nat → Nat → Nat → Prop where
  | here (i : Nat) : Passes layout i 0 i
  | link {i k j : Nat} {desc : Descriptor} : descriptor mem layout i = .ok (some desc) →
      desc.Whole mem → desc.has descFNext = true → Passes layout desc.next k j →
      Passes layout i (k + 1) j

/-- The chain's walk comes to this descriptor after `k` links. -/
def Visits (layout : Layout) (head k : Nat) (desc : Descriptor) : Prop :=
  ∃ j, Passes mem layout head k j ∧ descriptor mem layout j = .ok (some desc)

/-- A buffer of the chain at `head`: which descriptor of the queue's own table, no more than
the queue has, and which entry behind it. -/
def Buffer (layout : Layout) (head : Nat) (place : Nat × Nat) : Prop :=
  place.1 < layout.size ∧ ∃ desc, Visits mem layout head place.1 desc ∧ desc.Holds mem place.2

variable {mem}

theorem expand_fault {desc : Descriptor} : (expand mem desc).2.2 = none ↔ desc.Whole mem := by
  unfold expand Descriptor.Whole
  by_cases h : desc.has descFIndirect = true
  · simp only [h, if_true, walkIndirect, walkTable_fault, forall_const, Descriptor.Leads,
      Descriptor.count, and_imp]
  · simp [h]

theorem lt_expand_found {desc : Descriptor} {n : Nat} :
    n < (expand mem desc).2.1.length ↔ desc.Holds mem n := by
  unfold expand Descriptor.Holds
  by_cases h : desc.has descFIndirect = true
  · simp only [h, if_true, walkIndirect, lt_walkTable_out, Descriptor.Leads, Descriptor.count]
    constructor
    · rintro ⟨hn, j, hj, hp⟩
      exact ⟨j, ⟨hn, hj⟩, hp⟩
    · rintro ⟨j, ⟨hn, hj⟩, hp⟩
      exact ⟨hn, j, hj, hp⟩
  · simp [h]

theorem expand_tables {desc : Descriptor} {count : Nat} :
    (∀ n ∈ (expand mem desc).1, n ≤ count) ↔
      (desc.has descFIndirect = true → ∀ j, ¬ desc.Leads mem count j) := by
  unfold expand
  by_cases h : desc.has descFIndirect = true
  · simp only [h, if_true, List.mem_singleton, forall_eq, forall_const, Descriptor.Leads,
      Descriptor.count, walkIndirect]
    rw [← Nat.not_lt, lt_walkTable_reads]
    simp only [not_and, not_exists]
    exact ⟨fun hno j hn => hno hn j, fun hno hn j => hno j hn⟩
  · simp [h]

theorem passes_zero {layout : Layout} {i j : Nat} : Passes mem layout i 0 j ↔ j = i := by
  constructor
  · intro h
    cases h
    rfl
  · rintro rfl
    exact .here j

theorem passes_succ {layout : Layout} {i k j : Nat} {desc : Descriptor}
    (hdesc : descriptor mem layout i = .ok (some desc)) :
    Passes mem layout i (k + 1) j ↔ desc.Whole mem ∧ desc.has descFNext = true ∧
      Passes mem layout desc.next k j := by
  constructor
  · intro h
    cases h with
    | link hdesc' hwhole hnext hrest =>
      rw [hdesc] at hdesc'
      obtain rfl := Option.some.inj (Except.ok.inj hdesc')
      exact ⟨hwhole, hnext, hrest⟩
  · rintro ⟨hwhole, hnext, hrest⟩
    exact .link hdesc hwhole hnext hrest

theorem visits_zero {layout : Layout} {i : Nat} {desc : Descriptor} :
    Visits mem layout i 0 desc ↔ descriptor mem layout i = .ok (some desc) := by
  unfold Visits
  simp [passes_zero]

theorem visits_succ {layout : Layout} {i k : Nat} {desc next : Descriptor}
    (hdesc : descriptor mem layout i = .ok (some desc)) :
    Visits mem layout i (k + 1) next ↔ desc.Whole mem ∧ desc.has descFNext = true ∧
      Visits mem layout desc.next k next := by
  unfold Visits
  simp only [passes_succ hdesc, and_assoc]
  simp

theorem not_visits {layout : Layout} {i k : Nat} {next : Descriptor}
    (hdesc : ∀ desc, descriptor mem layout i ≠ .ok (some desc)) : ¬ Visits mem layout i k next := by
  rintro ⟨j, hj, hnext⟩
  cases hj with
  | here => exact hdesc next hnext
  | link hdesc' => exact hdesc _ hdesc'

theorem chainFrom_link {layout : Layout} {fuel i : Nat} {desc : Descriptor}
    (hdesc : descriptor mem layout i = .ok (some desc)) (hwhole : desc.Whole mem)
    (hnext : desc.has descFNext = true) :
    chainFrom mem layout (fuel + 1) i = (chainFrom mem layout fuel desc.next).after
      (expand mem desc).1 (expand mem desc).2.1 := by
  have hfault := expand_fault.mpr hwhole
  rw [chainFrom, hdesc]
  rcases hexpand : expand mem desc with ⟨tables, found, fault⟩
  rw [hexpand] at hfault
  obtain rfl : fault = none := hfault
  simp [hexpand, hnext]

theorem chainFrom_last {layout : Layout} {fuel i : Nat} {desc : Descriptor}
    (hdesc : descriptor mem layout i = .ok (some desc))
    (hlast : ¬ (desc.Whole mem ∧ desc.has descFNext = true)) :
    (chainFrom mem layout (fuel + 1) i).tables = (expand mem desc).1 ∧
      (chainFrom mem layout (fuel + 1) i).out = (expand mem desc).2.1 := by
  rw [← expand_fault] at hlast
  rw [chainFrom, hdesc]
  rcases hexpand : expand mem desc with ⟨tables, found, _ | e⟩
  · rw [hexpand] at hlast
    have hnext : ¬ desc.has descFNext = true := fun h => hlast ⟨rfl, h⟩
    simp [hexpand, hnext]
  · simp [hexpand]

theorem chainFrom_none {layout : Layout} {fuel i : Nat}
    (hdesc : ∀ desc, descriptor mem layout i ≠ .ok (some desc)) :
    (chainFrom mem layout (fuel + 1) i).tables = [] ∧
      (chainFrom mem layout (fuel + 1) i).out = [] := by
  rw [chainFrom]
  rcases h : descriptor mem layout i with e | _ | desc
  · exact ⟨rfl, rfl⟩
  · exact ⟨rfl, rfl⟩
  · exact absurd h (hdesc desc)

theorem chainFrom_reads_le {layout : Layout} {fuel i : Nat} :
    (chainFrom mem layout fuel i).reads ≤ fuel := by
  induction fuel generalizing i with
  | zero => simp [chainFrom]
  | succ fuel ih =>
    unfold chainFrom
    split
    · exact Nat.succ_pos fuel
    · exact Nat.zero_le _
    · split
      · exact Nat.succ_pos fuel
      · split
        · exact Nat.succ_pos fuel
        · exact Nat.succ_le_succ ih

theorem chainFrom_tables {layout : Layout} {count fuel i : Nat} :
    (∀ n ∈ (chainFrom mem layout fuel i).tables, n ≤ count) ↔
      ∀ k desc, k < fuel → Visits mem layout i k desc → desc.has descFIndirect = true →
        ∀ j, ¬ desc.Leads mem count j := by
  induction fuel generalizing i with
  | zero => simp [chainFrom]
  | succ fuel ih =>
    by_cases hdesc : ∃ desc, descriptor mem layout i = .ok (some desc)
    · obtain ⟨desc, hdesc⟩ := hdesc
      by_cases hlink : desc.Whole mem ∧ desc.has descFNext = true
      · obtain ⟨hwhole, hnext⟩ := hlink
        rw [chainFrom_link hdesc hwhole hnext, ChainWalk.after, List.forall_mem_append, ih,
          expand_tables]
        constructor
        · intro h k next hk hvisits
          cases k with
          | zero =>
            rw [visits_zero, hdesc] at hvisits
            obtain rfl := Option.some.inj (Except.ok.inj hvisits)
            exact h.1
          | succ k =>
            exact h.2 k next (Nat.lt_of_succ_lt_succ hk) ((visits_succ hdesc).mp hvisits).2.2
        · intro h
          refine ⟨h 0 desc (Nat.succ_pos _) (visits_zero.mpr hdesc), fun k next hk hvisits => ?_⟩
          exact h (k + 1) next (Nat.succ_lt_succ hk)
            ((visits_succ hdesc).mpr ⟨hwhole, hnext, hvisits⟩)
      · rw [(chainFrom_last hdesc hlink).1, expand_tables]
        constructor
        · intro h k next _ hvisits
          cases k with
          | zero =>
            rw [visits_zero, hdesc] at hvisits
            obtain rfl := Option.some.inj (Except.ok.inj hvisits)
            exact h
          | succ k =>
            have hgo := (visits_succ hdesc).mp hvisits
            exact absurd ⟨hgo.1, hgo.2.1⟩ hlink
        · intro h
          exact h 0 desc (Nat.succ_pos _) (visits_zero.mpr hdesc)
    · have hnone : ∀ desc, descriptor mem layout i ≠ .ok (some desc) := fun desc h =>
        hdesc ⟨desc, h⟩
      rw [(chainFrom_none hnone).1]
      exact iff_of_true (by simp) fun k next _ hvisits => absurd hvisits (not_visits hnone)

theorem exists_places (mem : Reads) (layout : Layout) (fuel i : Nat) :
    ∃ places : List (Nat × Nat), places.Nodup ∧
      places.length = (chainFrom mem layout fuel i).out.length ∧
      ∀ place, place ∈ places ↔ place.1 < fuel ∧
        ∃ desc, Visits mem layout i place.1 desc ∧ desc.Holds mem place.2 := by
  induction fuel generalizing i with
  | zero => exact ⟨[], by simp [chainFrom]⟩
  | succ fuel ih =>
    by_cases hdesc : ∃ desc, descriptor mem layout i = .ok (some desc)
    · obtain ⟨desc, hdesc⟩ := hdesc
      -- the places behind this descriptor come first
      have hnodup : ((List.range (expand mem desc).2.1.length).map
          fun n => ((0 : Nat), n)).Nodup :=
        List.Nodup.map (fun a b h => (Prod.mk.inj h).2) List.nodup_range
      have hfirst : ∀ next, Visits mem layout i 0 next ↔ desc = next := by
        intro next
        rw [visits_zero, hdesc]
        simp
      by_cases hlink : desc.Whole mem ∧ desc.has descFNext = true
      · obtain ⟨hwhole, hnext⟩ := hlink
        obtain ⟨places, hplaces, hlen, hmem⟩ := ih desc.next
        refine ⟨(List.range (expand mem desc).2.1.length).map (fun n => (0, n)) ++
          places.map fun p => (p.1 + 1, p.2), ?_, ?_, ?_⟩
        · refine List.Nodup.append hnodup (List.Nodup.map (fun a b h => ?_) hplaces) ?_
          · have h := Prod.mk.inj h
            exact Prod.ext (Nat.succ.inj h.1) h.2
          · intro p hp hq
            obtain ⟨n, -, rfl⟩ := List.mem_map.mp hp
            obtain ⟨q, -, hq⟩ := List.mem_map.mp hq
            exact absurd (Prod.mk.inj hq).1 (Nat.succ_ne_zero _)
        · rw [chainFrom_link hdesc hwhole hnext, ChainWalk.after, List.length_append,
            List.length_append, List.length_map, List.length_map, List.length_range, hlen]
        · intro ⟨k, n⟩
          cases k with
          | zero => simp [lt_expand_found, hfirst]
          | succ k => simp [hmem, visits_succ hdesc, hwhole, hnext]
      · refine ⟨(List.range (expand mem desc).2.1.length).map fun n => (0, n), hnodup, ?_, ?_⟩
        · rw [(chainFrom_last hdesc hlink).2, List.length_map, List.length_range]
        · intro ⟨k, n⟩
          cases k with
          | zero => simp [lt_expand_found, hfirst]
          | succ k =>
            refine iff_of_false (by simp) ?_
            rintro ⟨-, next, hvisits, -⟩
            have hgo := (visits_succ hdesc).mp hvisits
            exact hlink ⟨hgo.1, hgo.2.1⟩
    · have hnone : ∀ desc, descriptor mem layout i ≠ .ok (some desc) := fun desc h =>
        hdesc ⟨desc, h⟩
      refine ⟨[], List.nodup_nil, by rw [(chainFrom_none hnone).2]; rfl, fun p => ?_⟩
      refine iff_of_false (by simp) ?_
      rintro ⟨-, next, hvisits, -⟩
      exact not_visits hnone hvisits

/-- A walk within the queue's size: descriptor reads in each table, and descriptors put in
the chain. -/
def ChainWalk.Bounded (w : ChainWalk) (size : Nat) : Prop :=
  w.reads ≤ size ∧ (∀ n ∈ w.tables, n ≤ size) ∧ w.out.length ≤ size

instance (w : ChainWalk) (size : Nat) : Decidable (w.Bounded size) :=
  inferInstanceAs (Decidable (_ ∧ _ ∧ _))

/-- **What bounds a walk.** A walk stays within the queue's size exactly when no indirect
table it visits leads to as many entries as the queue has and one more, and the chain has
no more buffers than the queue has descriptors. -/
theorem walkChain_bounded_iff (mem : Reads) (layout : Layout) (head : Nat) :
    (walkChain mem layout head).Bounded layout.size ↔
      (∀ k desc, k < layout.size → Visits mem layout head k desc →
        desc.has descFIndirect = true → ∀ j, ¬ desc.Leads mem layout.size j) ∧
      ∀ places : List (Nat × Nat), places.Nodup →
        (∀ place ∈ places, Buffer mem layout head place) → places.length ≤ layout.size := by
  obtain ⟨places, hnodup, hlen, hmem⟩ := exists_places mem layout layout.size head
  unfold ChainWalk.Bounded walkChain
  rw [chainFrom_tables, ← hlen]
  constructor
  · rintro ⟨-, htables, hout⟩
    refine ⟨htables, fun others hothers hbuffers => le_trans ?_ hout⟩
    refine (List.subperm_of_subset hothers fun place hplace => ?_).length_le
    exact (hmem place).mpr (hbuffers place hplace)
  · rintro ⟨htables, hbuffers⟩
    exact ⟨chainFrom_reads_le, htables, hbuffers places hnodup fun place => (hmem place).mp⟩

/-- Guest memory with one indirect descriptor at 4096, whose table of three entries is at
8192, each linked to the next. -/
def longTable : Reads := fun at_ _ =>
  if at_ = 4096 then some 8192
  else if at_ = 4104 then some 48
  else if at_ = 4108 then some descFIndirect
  else if at_ < 8192 then some 0
  else if at_ % 16 = 12 then some descFNext
  else if at_ % 16 = 14 then some ((at_ - 8192) / 16 + 1)
  else some 64

/-- A queue of one descriptor that yields a chain of three: only the table's length, which
the guest chose, ends the walk. -/
theorem walk_outgrows_queue :
    (chain longTable ⟨1, 4096, 1024, 2048, true⟩ 0).toOption.map List.length = some 3 ∧
      ¬ (walkChain longTable ⟨1, 4096, 1024, 2048, true⟩ 0).Bounded 1 := by
  decide +kernel

end Rsemu.Virtio
