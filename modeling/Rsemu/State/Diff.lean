import Rsemu.State.Shape
import Rsemu.Base.Pairing

/-!
# What two machines disagree about

A snapshot is refused by a machine of another shape, and the refusal is a list of the
differences: a device, a region, a feature or an architecture that one has and the other does
not, a device of another class, and a region that moved, which is one of the snapshot's paired
off with one of the machine's under the same name.

Read as edits, the differences turn the snapshot's shape into the machine's (`editAll_diff`),
and each thing the two disagree about is mentioned once (`mentioned_once`): the pairing
neither drops a region nor reports it twice.
-/

namespace Rsemu.State

open Pairing

/-- One way in which two shapes differ. -/
inductive ShapeDifference where
  | deviceMissing (path cls : Str)
  | deviceUnexpected (path cls : Str)
  | deviceClassChanged (path snapshotClass machineClass : Str)
  | regionMissing (region : RegionShape)
  | regionUnexpected (region : RegionShape)
  | regionMoved (snapshot machine : RegionShape)
  | featureMissing (feature : Str)
  | featureUnexpected (feature : Str)
  | archMissing (arch : Str)
  | archUnexpected (arch : Str)

namespace ShapeDifference

/-- A difference as a line of the report. -/
def display : ShapeDifference → String
  | .deviceMissing path cls =>
    "- device `" ++ path.text ++ "` (class `" ++ cls.text
      ++ "`) is in the snapshot but not in this machine"
  | .deviceUnexpected path cls =>
    "+ device `" ++ path.text ++ "` (class `" ++ cls.text
      ++ "`) is in this machine but not in the snapshot"
  | .deviceClassChanged path snapshotClass machineClass =>
    "! device `" ++ path.text ++ "` is class `" ++ machineClass.text ++ "` here but `"
      ++ snapshotClass.text ++ "` in the snapshot"
  | .regionMissing r => "- region " ++ r.display ++ " is in the snapshot but not in this machine"
  | .regionUnexpected r =>
    "+ region " ++ r.display ++ " is in this machine but not in the snapshot"
  | .regionMoved snapshot machine =>
    "! region " ++ machine.space.text ++ "/" ++ machine.name.text ++ " is at "
      ++ RegionShape.hex machine.base.toNat ++ "+" ++ RegionShape.hex machine.size.toNat
      ++ " here but " ++ RegionShape.hex snapshot.base.toNat ++ "+"
      ++ RegionShape.hex snapshot.size.toNat ++ " in the snapshot"
  | .featureMissing feature =>
    "- the snapshot needs feature `" ++ feature.text ++ "`, which this build does not have"
  | .featureUnexpected feature =>
    "+ this build has feature `" ++ feature.text
      ++ "`, which the snapshot was not taken with"
  | .archMissing arch =>
    "- the snapshot has guest architecture `" ++ arch.text ++ "`, absent from this machine"
  | .archUnexpected arch =>
    "+ this machine has guest architecture `" ++ arch.text ++ "`, absent from the snapshot"

end ShapeDifference

def maxDiffLines : Nat := 32

/-- The report. -/
def displayDiff (differences : List ShapeDifference) : String :=
  if differences.isEmpty then "machine shapes match"
  else
    "snapshot does not match this machine (" ++ toString differences.length ++ " difference(s)):"
      ++ String.join ((differences.take maxDiffLines).map fun d => "\n  " ++ d.display)
      ++ if maxDiffLines < differences.length then
          "\n  ... and " ++ toString (differences.length - maxDiffLines) ++ " more"
        else ""

namespace MachineShape

def diffDevices (snapshot machine : MachineShape) : List ShapeDifference :=
  snapshot.devices.entries.filterMap fun e =>
    match machine.devices.get e.1 with
    | none => some (.deviceMissing e.1 e.2)
    | some other => if other ≠ e.2 then some (.deviceClassChanged e.1 e.2 other) else none

def unexpectedDevices (snapshot machine : MachineShape) : List ShapeDifference :=
  machine.devices.entries.filterMap fun e =>
    if (snapshot.devices.get e.1).isNone then some (.deviceUnexpected e.1 e.2) else none

def sameRegion (snap m : RegionShape) : Bool := m.space = snap.space && m.name = snap.name

/-- A move is reported as a move: a region of the snapshot's, with the machine's it is paired
with. -/
def regionDifference (pair : RegionShape × Option RegionShape) : ShapeDifference :=
  match pair.2 with
  | some m => .regionMoved pair.1 m
  | none => .regionMissing pair.1

def pairRegions (snapshot machine : MachineShape) :
    List (RegionShape × Option RegionShape) × List (RegionShape × Bool) :=
  pairUp sameRegion (snapshot.regions.only machine.regions)
    ((machine.regions.only snapshot.regions).map fun m => (m, false))

def diffRegions (snapshot machine : MachineShape) : List ShapeDifference :=
  (pairRegions snapshot machine).1.map regionDifference ++
    (unpaired (pairRegions snapshot machine).2).map .regionUnexpected

/-- Compare a snapshot's shape with a machine's: devices, then regions, then features, then
architectures. -/
def diff (snapshot machine : MachineShape) : List ShapeDifference :=
  diffDevices snapshot machine ++ unexpectedDevices snapshot machine ++
    diffRegions snapshot machine ++
    (snapshot.features.only machine.features).map .featureMissing ++
    (machine.features.only snapshot.features).map .featureUnexpected ++
    (snapshot.arches.only machine.arches).map .archMissing ++
    (machine.arches.only snapshot.arches).map .archUnexpected

def checkShape (snapshot machine : MachineShape) : Except String Unit :=
  if (diff snapshot machine).isEmpty then .ok () else .error (displayDiff (diff snapshot machine))

end MachineShape

/-- What a difference is about. -/
inductive Topic where
  | device (path : Str)
  | region (region : RegionShape)
  | feature (feature : Str)
  | arch (arch : Str)
  deriving DecidableEq

/-- What a difference mentions. -/
def ShapeDifference.mentions : ShapeDifference → List Topic
  | .deviceMissing path _ => [.device path]
  | .deviceUnexpected path _ => [.device path]
  | .deviceClassChanged path _ _ => [.device path]
  | .regionMissing r => [.region r]
  | .regionUnexpected r => [.region r]
  | .regionMoved snapshot machine => [.region snapshot, .region machine]
  | .featureMissing feature => [.feature feature]
  | .featureUnexpected feature => [.feature feature]
  | .archMissing arch => [.arch arch]
  | .archUnexpected arch => [.arch arch]

namespace MachineShape

/-- Whether two shapes say the same of a thing. -/
def Agree (m n : MachineShape) : Topic → Prop
  | .device path => m.devices.get path = n.devices.get path
  | .region r => m.regions.get r = n.regions.get r
  | .feature feature => m.features.get feature = n.features.get feature
  | .arch arch => m.arches.get arch = n.arches.get arch

instance (m n : MachineShape) : ∀ t, Decidable (m.Agree n t)
  | .device path => inferInstanceAs (Decidable (m.devices.get path = n.devices.get path))
  | .region r => inferInstanceAs (Decidable (m.regions.get r = n.regions.get r))
  | .feature feature =>
    inferInstanceAs (Decidable (m.features.get feature = n.features.get feature))
  | .arch arch => inferInstanceAs (Decidable (m.arches.get arch = n.arches.get arch))

/-- The shape once a difference is made good: what is missing removed, what is unexpected
added, a class changed, a region moved. -/
def edit (m : MachineShape) : ShapeDifference → MachineShape
  | .deviceMissing path _ => { m with devices := m.devices.erase path }
  | .deviceUnexpected path cls => { m with devices := m.devices.insert path cls }
  | .deviceClassChanged path _ cls => { m with devices := m.devices.insert path cls }
  | .regionMissing r => { m with regions := m.regions.erase r }
  | .regionUnexpected r => { m with regions := m.regions.insert r () }
  | .regionMoved snapshot machine =>
    { m with regions := (m.regions.erase snapshot).insert machine () }
  | .featureMissing feature => { m with features := m.features.erase feature }
  | .featureUnexpected feature => { m with features := m.features.insert feature () }
  | .archMissing arch => { m with arches := m.arches.erase arch }
  | .archUnexpected arch => { m with arches := m.arches.insert arch () }

def editAll (m : MachineShape) (differences : List ShapeDifference) : MachineShape :=
  differences.foldl edit m

theorem ext_agree {m n : MachineShape} (h : ∀ t, m.Agree n t) : m = n := by
  have hdevices : m.devices = n.devices := SortedMap.ext_get fun path => h (.device path)
  have hregions : m.regions = n.regions := SortedMap.ext_get fun r => h (.region r)
  have hfeatures : m.features = n.features := SortedMap.ext_get fun feature => h (.feature feature)
  have harches : m.arches = n.arches := SortedMap.ext_get fun arch => h (.arch arch)
  obtain ⟨_, _, _, _⟩ := m
  subst hdevices hregions hfeatures harches
  rfl

/-- Everything two shapes disagree about. -/
def topics (snapshot machine : MachineShape) : List Topic :=
  (snapshot.devices.changed machine.devices ++ machine.devices.only snapshot.devices).map .device ++
    ((snapshot.regions.changed machine.regions ++
      machine.regions.only snapshot.regions).map .region ++
    ((snapshot.features.changed machine.features ++
      machine.features.only snapshot.features).map .feature ++
    (snapshot.arches.changed machine.arches ++ machine.arches.only snapshot.arches).map .arch))

variable {b : MachineShape} {d : ShapeDifference}

theorem mem_topics {a : MachineShape} {t : Topic} : t ∈ a.topics b ↔ ¬ a.Agree b t := by
  unfold topics
  cases t with
  | device path =>
    have := SortedMap.mem_changed_or_only (m := a.devices) (n := b.devices) (k := path)
    simpa [Agree] using this
  | region r =>
    have := SortedMap.mem_changed_or_only (m := a.regions) (n := b.regions) (k := r)
    simpa [Agree] using this
  | feature feature =>
    have := SortedMap.mem_changed_or_only (m := a.features) (n := b.features) (k := feature)
    simpa [Agree] using this
  | arch arch =>
    have := SortedMap.mem_changed_or_only (m := a.arches) (n := b.arches) (k := arch)
    simpa [Agree] using this

theorem topics_nodup (a b : MachineShape) : (a.topics b).Nodup := by
  have hdevices := (a.devices.changed_or_only_nodup b.devices).map
    fun _ _ h => Topic.device.inj h
  have hregions := (a.regions.changed_or_only_nodup b.regions).map
    fun _ _ h => Topic.region.inj h
  have hfeatures := (a.features.changed_or_only_nodup b.features).map
    fun _ _ h => Topic.feature.inj h
  have harches := (a.arches.changed_or_only_nodup b.arches).map
    fun _ _ h => Topic.arch.inj h
  refine List.nodup_append'.mpr ⟨hdevices, List.nodup_append'.mpr ⟨hregions,
    List.nodup_append'.mpr ⟨hfeatures, harches, ?_⟩, ?_⟩, ?_⟩
  all_goals
    intro t ht ht'
    obtain ⟨x, -, rfl⟩ := List.mem_map.mp ht
    simp at ht'

theorem mentions_each {α : Type} {f : α → ShapeDifference} {g : α → Topic}
    (h : ∀ x, (f x).mentions = [g x]) (xs : List α) :
    (xs.map f).flatMap ShapeDifference.mentions = xs.map g := by
  rw [List.flatMap_map, List.map_eq_flatMap]
  exact List.flatMap_congr fun x _ => h x

theorem mentions_diffDevices (a b : MachineShape) :
    (diffDevices a b).flatMap ShapeDifference.mentions =
      (a.devices.changed b.devices).map .device := by
  unfold diffDevices SortedMap.changed
  induction a.devices.entries with
  | nil => rfl
  | cons e es ih =>
    cases hget : b.devices.get e.1 with
    | none =>
      rw [List.filterMap_cons_some (by rw [hget]), List.flatMap_cons, ih,
        List.filter_cons_of_pos (by simp [hget])]
      rfl
    | some other =>
      by_cases hother : other = e.2
      · rw [List.filterMap_cons_none (by rw [hget]; simp [hother]), ih,
          List.filter_cons_of_neg (by simp [hget, hother])]
      · rw [List.filterMap_cons_some (by rw [hget]; simp only; rw [if_pos hother]),
          List.flatMap_cons, ih, List.filter_cons_of_pos (by simp [hget, hother])]
        rfl

theorem mentions_unexpectedDevices (a b : MachineShape) :
    (unexpectedDevices a b).flatMap ShapeDifference.mentions =
      (b.devices.only a.devices).map .device := by
  unfold unexpectedDevices SortedMap.only
  induction b.devices.entries with
  | nil => rfl
  | cons e es ih =>
    by_cases hnone : (a.devices.get e.1).isNone = true
    · rw [List.filterMap_cons_some (by rw [if_pos hnone]), List.flatMap_cons, ih,
        List.filter_cons_of_pos (by exact hnone)]
      rfl
    · rw [List.filterMap_cons_none (by rw [if_neg hnone]), ih,
        List.filter_cons_of_neg (by exact hnone)]

theorem mentions_diffRegions (a b : MachineShape) :
    ((diffRegions a b).flatMap ShapeDifference.mentions).Perm
      ((a.regions.changed b.regions ++ b.regions.only a.regions).map .region) := by
  have hpairs : ((pairRegions a b).1.map regionDifference).flatMap ShapeDifference.mentions =
      (pairRegions a b).1.flatMap fun pair =>
        Topic.region pair.1 :: (pair.2.map Topic.region).toList := by
    rw [List.flatMap_map]
    refine List.flatMap_congr fun pair _ => ?_
    obtain ⟨r, mate⟩ := pair
    cases mate <;> rfl
  have hleft : (pairRegions a b).1.map (·.1) = a.regions.only b.regions := pairUp_fst _ _ _
  have hright : (b.regions.only a.regions).Perm
      ((pairRegions a b).1.filterMap (·.2) ++ unpaired (pairRegions a b).2) := by
    have := pairUp_perm sameRegion (a.regions.only b.regions)
      ((b.regions.only a.regions).map fun m => (m, false))
    rwa [unpaired_new] at this
  have hrest := mentions_each (f := .regionUnexpected) (fun _ => rfl) (unpaired (pairRegions a b).2)
  have hsides := sides_perm Topic.region Topic.region (pairRegions a b).1
  rw [diffRegions, List.flatMap_append, hpairs, hrest, ← SortedMap.only_eq_changed,
    List.map_append]
  rw [hleft] at hsides
  refine (hsides.append_right _).trans ?_
  rw [List.append_assoc, ← List.map_append]
  exact (hright.symm.map _).append_left _

theorem mentions_diff (a b : MachineShape) :
    ((a.diff b).flatMap ShapeDifference.mentions).Perm (a.topics b) := by
  have hset : ∀ {κ : Type} [LinearOrder κ] (m n : SortedMap κ Unit) (f : κ → Topic),
      (m.only n).map f ++ (n.only m).map f = (m.changed n ++ n.only m).map f := by
    intro κ _ m n f
    rw [SortedMap.only_eq_changed, List.map_append]
  unfold diff topics
  simp only [List.flatMap_append, mentions_diffDevices, mentions_unexpectedDevices]
  rw [mentions_each (f := .featureMissing) fun _ => rfl,
    mentions_each (f := .featureUnexpected) fun _ => rfl,
    mentions_each (f := .archMissing) fun _ => rfl,
    mentions_each (f := .archUnexpected) fun _ => rfl]
  simp only [List.append_assoc]
  rw [hset, ← List.append_assoc (List.map Topic.feature _), hset, ← List.append_assoc,
    ← List.map_append]
  exact ((mentions_diffRegions a b).append_right _).append_left _

theorem mentioned_once (a b : MachineShape) (t : Topic) :
    ((a.diff b).flatMap ShapeDifference.mentions).count t = if a.Agree b t then 0 else 1 := by
  rw [(mentions_diff a b).count_eq]
  by_cases h : a.Agree b t
  · rw [if_pos h]
    exact List.count_eq_zero_of_not_mem fun hmem => mem_topics.mp hmem h
  · rw [if_neg h]
    exact List.count_eq_one_of_mem (topics_nodup a b) (mem_topics.mpr h)

/-- What a difference says of the machine. -/
def Says (b : MachineShape) : ShapeDifference → Prop
  | .deviceMissing path _ => b.devices.get path = none
  | .deviceUnexpected path cls => b.devices.get path = some cls
  | .deviceClassChanged path _ cls => b.devices.get path = some cls
  | .regionMissing r => b.regions.get r = none
  | .regionUnexpected r => b.regions.get r = some ()
  | .regionMoved snapshot machine =>
    b.regions.get snapshot = none ∧ b.regions.get machine = some ()
  | .featureMissing feature => b.features.get feature = none
  | .featureUnexpected feature => b.features.get feature = some ()
  | .archMissing arch => b.arches.get arch = none
  | .archUnexpected arch => b.arches.get arch = some ()

theorem edit_frame (m : MachineShape) {t : Topic} (h : t ∉ d.mentions) : (m.edit d).Agree m t := by
  cases d <;> cases t <;> simp_all [Agree, edit, ShapeDifference.mentions, SortedMap.get_erase,
    SortedMap.get_insert]

theorem edit_makes_good (m : MachineShape) (hsaid : b.Says d) {t : Topic} (h : t ∈ d.mentions) :
    (m.edit d).Agree b t := by
  cases d with
  | regionMoved snapshot machine =>
    obtain ⟨hgone, hhere⟩ := hsaid
    have hne : snapshot ≠ machine := fun heq => by
      rw [heq, hhere] at hgone
      cases hgone
    rcases List.mem_cons.mp h with rfl | h
    · simp [Agree, edit, SortedMap.get_erase, SortedMap.get_insert, hne, hgone]
    · obtain rfl := List.mem_singleton.mp h
      simp [Agree, edit, SortedMap.get_insert, hhere]
  | _ =>
    obtain rfl := List.mem_singleton.mp h
    simp [Agree, edit, SortedMap.get_erase, SortedMap.get_insert, hsaid.symm]

theorem diffRegions_says {a : MachineShape} (h : d ∈ diffRegions a b) : b.Says d := by
  have hleft : (pairRegions a b).1.map (·.1) = a.regions.only b.regions := pairUp_fst _ _ _
  have hright := pairUp_perm sameRegion (a.regions.only b.regions)
    ((b.regions.only a.regions).map fun m => (m, false))
  rw [unpaired_new] at hright
  have hhere : ∀ {m}, m ∈ b.regions.only a.regions → b.regions.get m = some () := fun hm => by
    obtain ⟨⟨u, hu⟩, -⟩ := SortedMap.mem_only.mp hm
    exact hu
  rcases List.mem_append.mp h with h | h
  · obtain ⟨pair, hpair, rfl⟩ := List.mem_map.mp h
    have hgone : b.regions.get pair.1 = none := by
      have hmem := List.mem_map_of_mem (f := (·.1)) hpair
      rw [hleft] at hmem
      exact (SortedMap.mem_only.mp hmem).2
    obtain ⟨snap, mate⟩ := pair
    cases mate with
    | none => exact hgone
    | some m =>
      refine ⟨hgone, hhere (hright.mem_iff.mpr (List.mem_append_left _ ?_))⟩
      exact List.mem_filterMap.mpr ⟨_, hpair, rfl⟩
  · obtain ⟨m, hm, rfl⟩ := List.mem_map.mp h
    exact hhere (hright.mem_iff.mpr (List.mem_append_right _ hm))

theorem diff_says {a : MachineShape} (h : d ∈ a.diff b) : b.Says d := by
  have hhere : ∀ {κ : Type} [LinearOrder κ] {m n : SortedMap κ Unit} {k : κ},
      k ∈ m.only n → m.get k = some () := by
    intro κ _ m n k hk
    obtain ⟨⟨u, hu⟩, -⟩ := SortedMap.mem_only.mp hk
    exact hu
  simp only [diff, List.mem_append] at h
  rcases h with (((((h | h) | h) | h) | h) | h) | h
  · obtain ⟨e, -, he⟩ := List.mem_filterMap.mp h
    cases hget : b.devices.get e.1 with
    | none =>
      rw [hget] at he
      obtain rfl := Option.some.inj he
      exact hget
    | some other =>
      rw [hget] at he
      simp only at he
      split at he
      · obtain rfl := Option.some.inj he
        exact hget
      · cases he
  · obtain ⟨e, hmem, he⟩ := List.mem_filterMap.mp h
    split at he
    · obtain rfl := Option.some.inj he
      exact SortedMap.get_eq_some.mpr hmem
    · cases he
  · exact diffRegions_says h
  · obtain ⟨k, hk, rfl⟩ := List.mem_map.mp h
    exact (SortedMap.mem_only.mp hk).2
  · obtain ⟨k, hk, rfl⟩ := List.mem_map.mp h
    exact hhere hk
  · obtain ⟨k, hk, rfl⟩ := List.mem_map.mp h
    exact (SortedMap.mem_only.mp hk).2
  · obtain ⟨k, hk, rfl⟩ := List.mem_map.mp h
    exact hhere hk

theorem Agree.trans {l m n : MachineShape} {t : Topic} (h : l.Agree m t) (h' : m.Agree n t) :
    l.Agree n t := by
  cases t <;> exact Eq.trans h h'

theorem editAll_agree {differences : List ShapeDifference} (hsaid : ∀ d ∈ differences, b.Says d)
    (m : MachineShape) (t : Topic) :
    (t ∈ differences.flatMap ShapeDifference.mentions → (m.editAll differences).Agree b t) ∧
      (t ∉ differences.flatMap ShapeDifference.mentions → (m.editAll differences).Agree m t) := by
  induction differences generalizing m with
  | nil =>
    refine ⟨fun h => absurd h List.not_mem_nil, fun _ => ?_⟩
    cases t <;> rfl
  | cons d differences ih =>
    obtain ⟨hin, hout⟩ := ih (fun e he => hsaid e (List.mem_cons_of_mem _ he)) (m.edit d)
    have hd := hsaid d (List.mem_cons_self ..)
    rw [List.flatMap_cons, List.mem_append]
    constructor
    · intro h
      by_cases hrest : t ∈ differences.flatMap ShapeDifference.mentions
      · exact hin hrest
      · exact (hout hrest).trans (edit_makes_good m hd (h.resolve_right hrest))
    · intro h
      obtain ⟨hnot, hrest⟩ := not_or.mp h
      exact (hout hrest).trans (edit_frame m hnot)

theorem editAll_diff (a b : MachineShape) : a.editAll (a.diff b) = b := by
  refine ext_agree fun t => ?_
  obtain ⟨hin, hout⟩ := editAll_agree (fun _ hd => diff_says hd) a t
  by_cases h : t ∈ (a.diff b).flatMap ShapeDifference.mentions
  · exact hin h
  · refine (hout h).trans ?_
    by_contra hdiffer
    exact h ((mentions_diff a b).mem_iff.mpr (mem_topics.mpr hdiffer))

theorem diff_self (a : MachineShape) : a.diff a = [] := by
  refine List.eq_nil_iff_forall_not_mem.mpr fun d hd => ?_
  have hmentions : ∃ t, t ∈ d.mentions := by
    cases d <;> exact ⟨_, List.mem_cons_self ..⟩
  obtain ⟨t, ht⟩ := hmentions
  have hmem := (mentions_diff a a).mem_iff.mp (List.mem_flatMap.mpr ⟨d, hd, ht⟩)
  refine mem_topics.mp hmem ?_
  cases t <;> rfl

/-- **The report is sound and complete**: it is empty exactly for equal shapes, and then only
the snapshot is accepted; as edits it makes the snapshot's shape the machine's; and it mentions
everything the two disagree about once, and nothing else. -/
theorem diff_sound_and_complete (a b : MachineShape) :
    (a.diff b = [] ↔ a = b) ∧ (a.checkShape b = .ok () ↔ a = b) ∧
      a.editAll (a.diff b) = b ∧
      ∀ t, ((a.diff b).flatMap ShapeDifference.mentions).count t =
        if a.Agree b t then 0 else 1 := by
  have hempty : a.diff b = [] ↔ a = b := by
    constructor
    · intro h
      have := editAll_diff a b
      rwa [h] at this
    · rintro rfl
      exact diff_self a
  refine ⟨hempty, ?_, editAll_diff a b, mentioned_once a b⟩
  rw [← hempty, checkShape]
  cases a.diff b with
  | nil => simp
  | cons d ds => simp

end MachineShape

end Rsemu.State
