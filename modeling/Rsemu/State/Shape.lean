import Rsemu.State.Wire

/-!
# The shape of a machine

The structural fingerprint a snapshot carries: device classes by instance path, the region
layout, the build's features and the guest architectures, each an ordered collection. The
encoding lists every collection in its order, and the decoder refuses any other order, so a
shape has one encoding.

Three of the four collections are sets; they are maps to `Unit`.
-/

namespace Rsemu.State

open Codec

/-- One mapped region, as it contributes to the machine's identity. -/
structure RegionShape where
  space : Str
  base : UInt64
  size : UInt64
  name : Str
  deriving DecidableEq

namespace RegionShape

def key (r : RegionShape) : Str ×ₗ (Nat ×ₗ (Nat ×ₗ Str)) :=
  toLex (r.space, toLex (r.base.toNat, toLex (r.size.toNat, r.name)))

theorem key_injective : Function.Injective key := by
  intro r s h
  obtain ⟨h1, h⟩ := Prod.mk.inj (toLex.injective h)
  obtain ⟨h2, h⟩ := Prod.mk.inj (toLex.injective h)
  obtain ⟨h3, h4⟩ := Prod.mk.inj (toLex.injective h)
  obtain ⟨_, _, _, _⟩ := r
  cases h1
  cases h4
  cases UInt64.toNat_inj.mp h2
  cases UInt64.toNat_inj.mp h3
  rfl

instance : LinearOrder RegionShape := LinearOrder.lift' key key_injective

def hex (n : Nat) : String := "0x" ++ String.ofList (Nat.toDigits 16 n)

def display (r : RegionShape) : String :=
  r.space.text ++ "/" ++ r.name.text ++ " @ " ++ hex r.base.toNat ++ "+" ++ hex r.size.toNat

end RegionShape

/-- What a snapshot requires of a machine. -/
structure MachineShape where
  /-- Instance path to class name. -/
  devices : SortedMap Str Str
  regions : SortedMap RegionShape Unit
  features : SortedMap Str Unit
  arches : SortedMap Str Unit

namespace MachineShape

def new : MachineShape := ⟨.empty, .empty, .empty, .empty⟩

def addDevice (m : MachineShape) (path cls : Str) : Except StateError MachineShape :=
  match m.devices.get path with
  | some existing => .error (.duplicateDevice path existing)
  | none => .ok { m with devices := m.devices.insert path cls }

def addRegion (m : MachineShape) (space name : Str) (base size : UInt64) : MachineShape :=
  { m with regions := m.regions.insert ⟨space, base, size, name⟩ () }

def addFeature (m : MachineShape) (feature : Str) : MachineShape :=
  { m with features := m.features.insert feature () }

def addArch (m : MachineShape) (arch : Str) : MachineShape :=
  { m with arches := m.arches.insert arch () }

end MachineShape

/-- The calls that build a shape. -/
inductive ShapeOp where
  | device (path cls : Str)
  | region (space name : Str) (base size : UInt64)
  | feature (feature : Str)
  | arch (arch : Str)

namespace MachineShape

def add (m : MachineShape) : ShapeOp → Except StateError MachineShape
  | .device path cls => m.addDevice path cls
  | .region space name base size => .ok (m.addRegion space name base size)
  | .feature feature => .ok (m.addFeature feature)
  | .arch arch => .ok (m.addArch arch)

def addAll (m : MachineShape) (ops : List ShapeOp) : Except StateError MachineShape :=
  ops.foldlM add m

end MachineShape

def ShapeOp.path? : ShapeOp → Option Str
  | .device path _ => some path
  | _ => none

namespace MachineShape

def put (m : MachineShape) : ShapeOp → MachineShape
  | .device path cls => { m with devices := m.devices.insert path cls }
  | .region space name base size => m.addRegion space name base size
  | .feature feature => m.addFeature feature
  | .arch arch => m.addArch arch

theorem add_eq_ok {m m' : MachineShape} {op : ShapeOp} :
    m.add op = .ok m' ↔ (∀ path ∈ op.path?, m.devices.get path = none) ∧ m' = m.put op := by
  cases op with
  | device path cls =>
    simp only [add, addDevice, put, ShapeOp.path?, Option.mem_some_iff, forall_eq']
    cases hget : m.devices.get path with
    | some existing => simp
    | none => simp [eq_comm]
  | region space name base size => simp [add, put, ShapeOp.path?, eq_comm]
  | feature feature => simp [add, put, ShapeOp.path?, eq_comm]
  | arch arch => simp [add, put, ShapeOp.path?, eq_comm]

theorem put_comm (m : MachineShape) {a b : ShapeOp}
    (h : ∀ path ∈ a.path?, ∀ path' ∈ b.path?, path ≠ path') :
    (m.put a).put b = (m.put b).put a := by
  cases a <;> cases b <;>
    simp only [put, addRegion, addFeature, addArch, MachineShape.mk.injEq, true_and, and_true]
  case device.device =>
    refine SortedMap.insert_comm _ fun heq => absurd heq ?_
    exact h _ rfl _ rfl
  all_goals exact SortedMap.insert_comm _ fun _ => rfl

theorem get_put (m : MachineShape) (op : ShapeOp) {path : Str} (h : path ∉ op.path?) :
    (m.put op).devices.get path = m.devices.get path := by
  cases op with
  | device p cls =>
    have hne : path ≠ p := fun heq => h (heq ▸ rfl)
    simp only [put, SortedMap.get_insert, if_neg hne]
  | region space name base size => rfl
  | feature feature => rfl
  | arch arch => rfl

theorem get_put_self (m : MachineShape) {op : ShapeOp} {path : Str} (h : path ∈ op.path?) :
    (m.put op).devices.get path ≠ none := by
  cases op with
  | device p cls =>
    cases h
    simp [put, SortedMap.get_insert]
  | region space name base size => exact absurd h (by simp [ShapeOp.path?])
  | feature feature => exact absurd h (by simp [ShapeOp.path?])
  | arch arch => exact absurd h (by simp [ShapeOp.path?])

theorem add_swap (m : MachineShape) (a b : ShapeOp) (n : MachineShape)
    (h : (m.add a).bind (·.add b) = .ok n) : (m.add b).bind (·.add a) = .ok n := by
  cases ha : m.add a with
  | error e => rw [ha] at h; exact absurd h (by simp [Except.bind])
  | ok m' =>
    rw [ha] at h
    obtain ⟨hfa, rfl⟩ := add_eq_ok.mp ha
    obtain ⟨hfb, rfl⟩ := add_eq_ok.mp (show (m.put a).add b = .ok n from h)
    have hne : ∀ path ∈ a.path?, ∀ path' ∈ b.path?, path ≠ path' := by
      intro path hp path' hp' heq
      exact get_put_self m hp (hfb path (heq ▸ hp'))
    have hb : m.add b = .ok (m.put b) := by
      refine add_eq_ok.mpr ⟨fun path hp => ?_, rfl⟩
      rw [← get_put m a fun hpa => hne path hpa path hp rfl]
      exact hfb path hp
    have hab : (m.put b).add a = .ok ((m.put a).put b) := by
      refine add_eq_ok.mpr ⟨fun path hp => ?_, put_comm m hne⟩
      rw [get_put m b fun hpb => hne path hp path hpb rfl]
      exact hfa path hp
    rw [hb]
    exact hab

theorem addAll_perm {ops ops' : List ShapeOp} (h : ops.Perm ops') {m n : MachineShape}
    (hn : m.addAll ops = .ok n) : m.addAll ops' = .ok n :=
  foldlM_perm add_swap h hn

end MachineShape

section Collections

variable {κ ν : Type} [LinearOrder κ]

def writeMap (encode : κ × ν → Bytes) (m : SortedMap κ ν) : Bytes :=
  writeSeqLen m.entries.length ++ m.entries.flatMap encode

def placeEntry (outOfOrder : κ → κ → StateError) (state : Option κ × SortedMap κ ν)
    (e : κ × ν) : Source (Option κ × SortedMap κ ν) :=
  match state.1 with
  | some prev =>
    if e.1 ≤ prev then fail (outOfOrder e.1 prev)
    else pure (some e.1, state.2.insert e.1 e.2)
  | none => pure (some e.1, state.2.insert e.1 e.2)

def readEntry (read : Source (κ × ν)) (outOfOrder : κ → κ → StateError)
    (state : Option κ × SortedMap κ ν) : Source (Option κ × SortedMap κ ν) := do
  let e ← read
  placeEntry outOfOrder state e

def readMap (minElementBytes : Nat) (read : Source (κ × ν)) (outOfOrder : κ → κ → StateError) :
    Source (SortedMap κ ν) := do
  let count ← readSeqLen minElementBytes
  let state ← times (readEntry read outOfOrder) count (none, .empty)
  pure state.2

def SortedMap.takeFirst (m : SortedMap κ ν) (i : Nat) : SortedMap κ ν :=
  ⟨m.entries.take i, m.sorted.sublist (List.take_sublist i _)⟩

theorem takeFirst_succ {m : SortedMap κ ν} {i : Nat} {e : κ × ν} (h : m.entries[i]? = some e) :
    (∀ f ∈ m.entries.take i, f.1 < e.1) ∧
      (SortedMap.takeFirst m i).insert e.1 e.2 = SortedMap.takeFirst m (i + 1) := by
  obtain ⟨hi, hget⟩ := List.getElem?_eq_some_iff.mp h
  have hsplit : m.entries.take (i + 1) = m.entries.take i ++ [e] := by
    rw [List.take_succ_eq_append_getElem hi, hget]
  have hbelow : ∀ f ∈ m.entries.take i, f.1 < e.1 := by
    intro f hf
    have hs := m.sorted.sublist (List.take_sublist (i + 1) _)
    rw [hsplit] at hs
    exact (List.pairwise_append.mp hs).2.2 f hf e (List.mem_singleton_self e)
  refine ⟨hbelow, ?_⟩
  unfold SortedMap.takeFirst SortedMap.insert
  simp only [SortedMap.mk.injEq]
  rw [SortedMap.insertEntry_last hbelow, hsplit]

theorem reads_map {encode : κ × ν → Bytes} {read : Source (κ × ν)}
    {outOfOrder : κ → κ → StateError} {minBytes : Nat} {m : SortedMap κ ν} (hmin : 1 ≤ minBytes)
    (hread : ∀ e ∈ m.entries, Reads read (encode e) e)
    (hroom : ∀ e ∈ m.entries, minBytes ≤ (encode e).length)
    (h64 : (m.entries.flatMap encode).length < 2 ^ 64) :
    Reads (readMap minBytes read outOfOrder) (writeMap encode m) m := by
  have hlen : m.entries.length * max minBytes 1 ≤ (m.entries.flatMap encode).length := by
    revert hroom
    generalize m.entries = es
    intro hroom
    induction es with
    | nil => simp
    | cons e es ih =>
      have h1 := hroom e (List.mem_cons_self ..)
      have h2 := ih fun f hf => hroom f (List.mem_cons_of_mem _ hf)
      rw [List.flatMap_cons, List.length_append, List.length_cons, Nat.succ_mul]
      omega
  -- the state after `i` entries: the last key, and the first `i` bindings
  let state : Nat → Option κ × SortedMap κ ν := fun i =>
    ((m.entries.take i).getLast?.map (·.1), SortedMap.takeFirst m i)
  have hstep : ∀ i e, m.entries[i]? = some e →
      Reads (readEntry read outOfOrder (state i)) (encode e) (state (i + 1)) := by
    intro i e he
    obtain ⟨hbelow, hinsert⟩ := takeFirst_succ he
    obtain ⟨hi, hget⟩ := List.getElem?_eq_some_iff.mp he
    have hlast : state (i + 1) = (some e.1, SortedMap.takeFirst m (i + 1)) := by
      simp only [state]
      rw [List.take_succ_eq_append_getElem hi, hget]
      simp
    rw [hlast, ← hinsert]
    have hafter : Reads (placeEntry outOfOrder (state i) e) []
        (some e.1, (SortedMap.takeFirst m i).insert e.1 e.2) := by
      cases hl : (m.entries.take i).getLast? with
      | none =>
        simp only [placeEntry, state, hl, Option.map_none]
        exact Reads.pure _
      | some f =>
        have hlt := hbelow f (List.mem_of_getLast? hl)
        simp only [placeEntry, state, hl, Option.map_some, if_neg (not_le.mpr hlt)]
        exact Reads.pure _
    have hb := Reads.bind (hread e (List.mem_of_getElem? he)) hafter
    rw [List.append_nil] at hb
    exact hb
  have hloop := Reads.times hstep
  have hfinal : state m.entries.length = (m.entries.getLast?.map (·.1), m) := by
    simp only [state, SortedMap.takeFirst, List.take_length]
  rw [hfinal] at hloop
  exact reads_seqLen hlen h64 (hloop.map (·.2))

end Collections

namespace MachineShape

def encodeDevice (e : Str × Str) : Bytes := writeStr e.1 ++ writeStr e.2

def encodeRegion (e : RegionShape × Unit) : Bytes :=
  writeStr e.1.space ++ (writeU64 e.1.base.toNat ++ (writeU64 e.1.size.toNat ++ writeStr e.1.name))

def encodeItem (e : Str × Unit) : Bytes := writeStr e.1

def writeStringSet (set : SortedMap Str Unit) : Bytes := writeMap encodeItem set

def encodeInto (m : MachineShape) : Bytes :=
  writeMap encodeDevice m.devices ++ (writeMap encodeRegion m.regions ++
    (writeStringSet m.features ++ writeStringSet m.arches))

variable (ptr : Nat)

def readDevice : Source (Str × Str) := do
  let path ← readStr ptr
  let cls ← readStr ptr
  pure (path, cls)

def readRegion : Source (RegionShape × Unit) := do
  let space ← readStr ptr
  let base ← readU64
  let size ← readU64
  let name ← readStr ptr
  pure (⟨space, UInt64.ofNat base, UInt64.ofNat size, name⟩, ())

def readItem : Source (Str × Unit) := do
  let item ← readStr ptr
  pure (item, ())

def readStringSet (what : String) : Source (SortedMap Str Unit) :=
  readMap 8 (readItem ptr) (.entriesOutOfOrder what)

def readDevices : Source (SortedMap Str Str) := readMap 16 (readDevice ptr) .devicesOutOfOrder

def readRegions : Source (SortedMap RegionShape Unit) :=
  readMap 32 (readRegion ptr) fun region prev => .regionsOutOfOrder region.display prev.display

def decodeFrom : Source MachineShape := do
  let devices ← readDevices ptr
  let regions ← readRegions ptr
  let features ← readStringSet ptr "feature"
  let arches ← readStringSet ptr "arch"
  pure ⟨devices, regions, features, arches⟩

end MachineShape

section Reading

variable {ptr : Nat}

theorem length_writeStr (s : Str) : (writeStr s).length = 8 + s.bytes.length := by
  rw [writeStr, writeBytes, List.length_append, writeU64, length_leBytes]

theorem length_le_flatMap {α : Type} {f : α → Bytes} {l : List α} {a : α} (h : a ∈ l) :
    (f a).length ≤ (l.flatMap f).length := by
  obtain ⟨xs, ys, rfl⟩ := List.append_of_mem h
  rw [List.flatMap_append, List.flatMap_cons, List.length_append, List.length_append]
  omega

theorem entry_fits {κ ν : Type} [LinearOrder κ] {encode : κ × ν → Bytes} {m : SortedMap κ ν}
    (h : (writeMap encode m).length < 2 ^ ptr) {e : κ × ν} (he : e ∈ m.entries) :
    (encode e).length < 2 ^ ptr := by
  have := length_le_flatMap (f := encode) he
  rw [writeMap, List.length_append] at h
  omega

section

variable (hptr : ptr ≤ 64)
include hptr

theorem reads_item {e : Str × Unit}
    (h : (MachineShape.encodeItem e).length < 2 ^ ptr) :
    Reads (MachineShape.readItem ptr) (MachineShape.encodeItem e) e := by
  rw [MachineShape.encodeItem, length_writeStr] at h
  exact (reads_str hptr (by omega)).map fun item => (item, ())

theorem reads_device {e : Str × Str}
    (h : (MachineShape.encodeDevice e).length < 2 ^ ptr) :
    Reads (MachineShape.readDevice ptr) (MachineShape.encodeDevice e) e := by
  rw [MachineShape.encodeDevice, List.length_append, length_writeStr, length_writeStr] at h
  exact Reads.bind (reads_str hptr (by omega))
    ((reads_str hptr (by omega)).map fun cls => (e.1, cls))

theorem reads_region {e : RegionShape × Unit}
    (h : (MachineShape.encodeRegion e).length < 2 ^ ptr) :
    Reads (MachineShape.readRegion ptr) (MachineShape.encodeRegion e) e := by
  simp only [MachineShape.encodeRegion, List.length_append, length_writeStr] at h
  obtain ⟨⟨space, base, size, name⟩, _⟩ := e
  have hname := (reads_str hptr (s := name) (by simp only at h; omega)).map fun name' =>
    ((⟨space, UInt64.ofNat base.toNat, UInt64.ofNat size.toNat, name'⟩ : RegionShape), ())
  simp only [UInt64.ofNat_toNat] at hname
  refine Reads.bind (reads_str hptr (s := space) (by simp only at h; omega)) ?_
  refine Reads.bind (reads_u64 base.toNat_lt) ?_
  refine Reads.bind (reads_u64 size.toNat_lt) ?_
  simp only [UInt64.ofNat_toNat]
  exact hname

theorem reads_stringSet (what : String) {set : SortedMap Str Unit}
    (h : (MachineShape.writeStringSet set).length < 2 ^ ptr) :
    Reads (MachineShape.readStringSet ptr what) (MachineShape.writeStringSet set) set := by
  have h64 : 2 ^ ptr ≤ 2 ^ 64 := Nat.pow_le_pow_right (by decide) hptr
  refine reads_map (by decide) (fun e he => reads_item hptr (entry_fits h he)) (fun e _ => ?_) ?_
  · rw [MachineShape.encodeItem, length_writeStr]
    omega
  · rw [MachineShape.writeStringSet, writeMap, List.length_append] at h
    omega

theorem reads_devices {m : SortedMap Str Str}
    (h : (writeMap MachineShape.encodeDevice m).length < 2 ^ ptr) :
    Reads (MachineShape.readDevices ptr) (writeMap MachineShape.encodeDevice m) m := by
  have h64 : 2 ^ ptr ≤ 2 ^ 64 := Nat.pow_le_pow_right (by decide) hptr
  refine reads_map (by decide) (fun e he => reads_device hptr (entry_fits h he)) (fun e _ => ?_) ?_
  · rw [MachineShape.encodeDevice, List.length_append, length_writeStr, length_writeStr]
    omega
  · rw [writeMap, List.length_append] at h
    omega

theorem reads_regions {m : SortedMap RegionShape Unit}
    (h : (writeMap MachineShape.encodeRegion m).length < 2 ^ ptr) :
    Reads (MachineShape.readRegions ptr) (writeMap MachineShape.encodeRegion m) m := by
  have h64 : 2 ^ ptr ≤ 2 ^ 64 := Nat.pow_le_pow_right (by decide) hptr
  refine reads_map (by decide) (fun e he => reads_region hptr (entry_fits h he)) (fun e _ => ?_) ?_
  · simp only [MachineShape.encodeRegion, List.length_append, length_writeStr, writeU64,
      length_leBytes]
    omega
  · rw [writeMap, List.length_append] at h
    omega

theorem reads_shape {m : MachineShape} (h : m.encodeInto.length < 2 ^ ptr) :
    Reads (MachineShape.decodeFrom ptr) m.encodeInto m := by
  simp only [MachineShape.encodeInto, List.length_append] at h
  refine Reads.bind (reads_devices hptr (by omega)) ?_
  refine Reads.bind (reads_regions hptr (by omega)) ?_
  refine Reads.bind (reads_stringSet hptr "feature" (by omega)) ?_
  exact (reads_stringSet hptr "arch" (by omega)).map fun arches =>
    (⟨m.devices, m.regions, m.features, arches⟩ : MachineShape)

end

end Reading

end Rsemu.State
