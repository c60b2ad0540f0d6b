import Mathlib.Algebra.BigOperators.Group.Finset.Basic
import Mathlib.Algebra.GroupWithZero.Nat
import Mathlib.Algebra.Order.BigOperators.Group.Finset
import Mathlib.Data.List.TakeWhile
import Rsemu.Base.Fallible
import Rsemu.Fdt.Reader

/-!
# What is written is read

Every token the writer appends is read back as the event it was written for, wherever the
blocks grow to (`Encodes`), so the structure block is read back as the events of the calls.

What is read back is then a tree or not. The builder counts open nodes and looks at nothing
else, so it lets through calls that describe no tree, and a reservation of nothing at address
0 ends the block it stands in. `promised_iff` says that these are the only ways to get a blob
that does not say what the calls did.
-/

namespace Rsemu.Fdt

open Codec

/-! ## Words -/

@[simp] theorem length_be32 (v : UInt32) : (be32 v).length = 4 := by
  rw [be32, beBytes, List.length_reverse, length_leBytes]

@[simp] theorem length_be64 (v : UInt64) : (be64 v).length = 8 := by
  rw [be64, beBytes, List.length_reverse, length_leBytes]

theorem reads_word (v : UInt32) : Reads word (be32 v) v := by
  have htake := reads_take (fun _ _ => ()) (be32 v)
  have hread := htake.map fun bytes => UInt32.ofNat (fromLe bytes.reverse)
  have hvalue : UInt32.ofNat (fromLe (be32 v).reverse) = v := by
    rw [be32, beBytes, List.reverse_reverse, fromLe_leBytes (by exact v.toNat_lt),
      UInt32.ofNat_toNat]
  rwa [hvalue] at hread

theorem reads_dword (v : UInt64) : Reads dword (be64 v) v := by
  have htake := reads_take (fun _ _ => ()) (be64 v)
  have hread := htake.map fun bytes => UInt64.ofNat (fromLe bytes.reverse)
  have hvalue : UInt64.ofNat (fromLe (be64 v).reverse) = v := by
    rw [be64, beBytes, List.reverse_reverse, fromLe_leBytes (by exact v.toNat_lt),
      UInt64.ofNat_toNat]
  rwa [hvalue] at hread

theorem reads_words (ws : List UInt32) : Reads (words ws.length) (ws.flatMap be32) ws := by
  induction ws with
  | nil => exact Reads.pure _
  | cons w ws ih =>
    exact (reads_word w).bind (ih.map fun ws => w :: ws)

theorem leBytes_add (n m v : Nat) : leBytes (n + m) v = leBytes n v ++ leBytes m (v / 256 ^ n) := by
  induction n generalizing v with
  | zero => simp [leBytes]
  | succ n ih =>
    rw [Nat.add_right_comm, leBytes, leBytes, ih, Nat.div_div_eq_div_mul, ← Nat.pow_succ']
    rfl

theorem leBytes_mod (n v : Nat) : leBytes n (v % 256 ^ n) = leBytes n v := by
  induction n generalizing v with
  | zero => rfl
  | succ n ih =>
    have hlow : UInt8.ofNat (v % 256 ^ (n + 1)) = UInt8.ofNat v := by
      apply UInt8.toNat_inj.mp
      rw [UInt8.toNat_ofNat', UInt8.toNat_ofNat', Nat.pow_succ']
      exact Nat.mod_mul_right_mod v 256 (256 ^ n)
    rw [leBytes, leBytes, hlow, Nat.pow_succ', Nat.mod_mul_right_div_self, ih]

theorem be64_eq (v : UInt64) : be64 v = be32 (v >>> 32).toUInt32 ++ be32 v.toUInt32 := by
  have hhigh : (v >>> 32).toUInt32.toNat = v.toNat / 256 ^ 4 := by
    have := v.toNat_lt
    change v.toNat >>> 32 % 2 ^ 32 = v.toNat / 256 ^ 4
    omega
  have hlow : v.toUInt32.toNat = v.toNat % 256 ^ 4 := UInt64.toNat_toUInt32 v
  rw [be32, be32, be64, beBytes, beBytes, beBytes, hhigh, hlow, leBytes_mod, ← List.reverse_append,
    ← leBytes_add]

theorem cells_reg64 (pairs : List (UInt64 × UInt64)) :
    (pairs.flatMap fun (addr, size) => [(addr >>> 32).toUInt32, addr.toUInt32,
      (size >>> 32).toUInt32, size.toUInt32]).flatMap be32 =
      pairs.flatMap fun (addr, size) => be64 addr ++ be64 size := by
  induction pairs with
  | nil => rfl
  | cons p pairs ih =>
    obtain ⟨addr, size⟩ := p
    have hpair : [(addr >>> 32).toUInt32, addr.toUInt32, (size >>> 32).toUInt32,
        size.toUInt32].flatMap be32 = be64 addr ++ be64 size := by
      rw [be64_eq, be64_eq]
      simp
    rw [List.flatMap_cons, List.flatMap_append, ih]
    exact congrArg (· ++ _) hpair

/-! ## Strings and padding -/

theorem takeWhile_cstring {name : Bytes} (h : (0 : UInt8) ∉ name) (rest : Bytes) :
    (name ++ 0 :: rest).takeWhile (· ≠ 0) = name ∧
      (name ++ 0 :: rest).dropWhile (· ≠ 0) = 0 :: rest := by
  have hall : ∀ c ∈ name, decide (c ≠ 0) = true := fun c hc =>
    decide_eq_true fun hzero => h (hzero ▸ hc)
  rw [List.takeWhile_append_of_pos hall, List.dropWhile_append_of_pos hall]
  simp

theorem reads_cstring {name : Bytes} (h : (0 : UInt8) ∉ name) : Reads cstring (name ++ [0]) name := by
  intro rest
  obtain ⟨htake, hdrop⟩ := takeWhile_cstring h rest
  rw [List.append_assoc, List.singleton_append]
  unfold cstring
  rw [if_pos (by simp), htake, hdrop]
  rfl

theorem reads_padding (n : Nat) : Reads (padding n) (List.replicate ((4 - n % 4) % 4) 0) () := by
  have htake := reads_take (fun _ _ => ()) (List.replicate ((4 - n % 4) % 4) (0 : UInt8))
  rw [List.length_replicate] at htake
  have hpure : Reads (if (List.replicate ((4 - n % 4) % 4) (0 : UInt8)).all (· = 0) then pure ()
      else fail () : Parser Unit) [] () := by
    rw [if_pos (by simp)]
    exact Reads.pure ()
  have := htake.bind (f := fun bytes => if bytes.all (· = 0) then pure () else fail ()) hpure
  rwa [List.append_nil] at this

def padded (n : Nat) : Nat := n + (4 - n % 4) % 4

theorem padded_aligned (n : Nat) : padded n % 4 = 0 := by
  unfold padded
  omega

theorem pad4_append {block piece : Bytes} (h : block.length % 4 = 0) :
    pad4 (block ++ piece) = block ++ (piece ++ List.replicate ((4 - piece.length % 4) % 4) 0) := by
  have hlength : (block ++ piece).length % 4 = piece.length % 4 := by
    rw [List.length_append]
    omega
  unfold pad4
  rw [hlength, List.append_assoc]

/-! ## Tokens -/

/-- **A piece of the structure block is read as an event**, whatever follows in either block. -/
def Encodes (strings piece : Bytes) (e : Event) : Prop :=
  ∀ more, Reads (token (strings ++ more)) piece (.event e)

theorem Encodes.grow {strings piece : Bytes} {e : Event} (h : Encodes strings piece e)
    (more : Bytes) : Encodes (strings ++ more) piece e := by
  intro more'
  rw [List.append_assoc]
  exact h (more ++ more')

theorem encodes_begin {name : Bytes} (h : (0 : UInt8) ∉ name) (strings : Bytes) :
    Encodes strings
      (be32 1 ++ ((name ++ [0]) ++ List.replicate ((4 - (name.length + 1) % 4) % 4) 0))
      (.begin_ name) := by
  intro more
  refine (reads_word 1).bind ?_
  rw [if_pos rfl]
  refine (reads_cstring h).bind ?_
  exact (reads_padding (name.length + 1)).map fun _ => Token.event (.begin_ name)

theorem encodes_end (strings : Bytes) : Encodes strings (be32 2) .end_ := by
  intro more
  refine (reads_word 2).bind ?_
  exact Reads.pure _

/-- **An offset of the strings block is a name's**, whatever is added to the block. -/
def Names (strings : Bytes) (off : Nat) (name : Bytes) : Prop :=
  ∀ more, Reads (nameAt (strings ++ more) off) [] name

theorem Names.grow {strings : Bytes} {off : Nat} {name : Bytes} (h : Names strings off name)
    (more : Bytes) : Names (strings ++ more) off name := by
  intro more'
  rw [List.append_assoc]
  exact h (more ++ more')

theorem names_added {name : Bytes} (h : (0 : UInt8) ∉ name) (strings : Bytes) :
    Names (strings ++ name ++ [0]) strings.length name := by
  intro more rest
  unfold nameAt
  have hread := reads_cstring h more
  rw [List.append_assoc, List.append_assoc, List.drop_left, ← List.append_assoc, hread]
  rfl

theorem encodes_prop {strings name value : Bytes} {off : UInt32} (hlen : value.length < 2 ^ 32)
    (hname : Names strings off.toNat name) :
    Encodes strings
      (be32 3 ++ (be32 (UInt32.ofNat value.length) ++ (be32 off ++
        (value ++ List.replicate ((4 - value.length % 4) % 4) 0)))) (.prop name value) := by
  intro more
  have hvalue : (UInt32.ofNat value.length).toNat = value.length :=
    UInt32.toNat_ofNat_of_lt' hlen
  refine (reads_word 3).bind ?_
  rw [if_neg (by decide), if_neg (by decide), if_pos rfl]
  refine (reads_word _).bind ((reads_word off).bind ?_)
  rw [hvalue]
  refine (reads_take _ value).bind ?_
  rw [← List.append_nil (List.replicate _ _)]
  refine (reads_padding value.length).bind ?_
  exact (hname more).map _

/-! ## Blocks -/

/-- **A structure block is read as events**, one after the other. -/
inductive Wrote (strings : Bytes) : Bytes → List Event → Prop
  | nil : Wrote strings [] []
  | snoc {block piece : Bytes} {es : List Event} {e : Event} (h : Wrote strings block es)
      (he : Encodes strings piece e) : Wrote strings (block ++ piece) (es ++ [e])

theorem Wrote.grow {strings block : Bytes} {es : List Event} (h : Wrote strings block es)
    (more : Bytes) : Wrote (strings ++ more) block es := by
  induction h with
  | nil => exact .nil
  | snoc _ he ih => exact .snoc ih (he.grow more)

theorem Wrote.tokens {strings block : Bytes} {es : List Event} (h : Wrote strings block es)
    (fuel : Nat) (rest : Bytes) :
    tokens strings (fuel + es.length) (block ++ rest) =
      (tokens strings fuel rest).map (es ++ ·) := by
  induction h generalizing fuel rest with
  | nil => simp
  | @snoc block piece es e _ he ih =>
    have hread := he [] rest
    rw [List.append_nil] at hread
    rw [List.append_assoc, List.length_append, List.length_singleton,
      show fuel + (es.length + 1) = fuel + 1 + es.length by omega, ih, Fdt.tokens, hread]
    dsimp only
    rw [Option.map_map]
    congr 1
    funext es'
    simp

/-! ## What the calls come to -/

def begins (es : List Event) : Nat := es.countP fun e => e matches .begin_ _

def ends (es : List Event) : Nat := es.countP fun e => e matches .end_

/-- No prefix closes more nodes than it opens. -/
def NeverBelow (es : List Event) : Prop := ∀ es', es' <+: es → ends es' ≤ begins es'

/-- **Every node that begins ends, and none ends before it begins.** -/
def Balanced (es : List Event) : Prop := NeverBelow es ∧ begins es = ends es

def Event.size : Event → Nat
  | .begin_ name => 4 + padded (name.length + 1)
  | .prop _ value => 12 + padded value.length
  | .end_ => 4

def structSize (es : List Event) : Nat := (es.map Event.size).sum

def Event.propName : Event → Option Bytes
  | .prop name _ => some name
  | _ => none

def stringsSize (es : List Event) : Nat :=
  ∑ name ∈ (es.filterMap Event.propName).toFinset, (name.length + 1)

/-- **The size of the blob** that calls come to. -/
def imageSize (calls : List Call) : Nat :=
  40 + 16 * ((reservations calls).length + 1) + (structSize (events calls) + 4) +
    stringsSize (events calls)

/-- **What ties a builder to the calls made so far.** -/
structure Tracks (w : FdtWriter) (es : List Event) : Prop where
  never : NeverBelow es
  depth : w.depth + ends es = begins es
  aligned : w.structs.length % 4 = 0
  structs : w.structs.length = structSize es
  strings : w.strings.length = stringsSize es
  interned : ∀ name, (w.interned.lookup name).isSome = true ↔ name ∈ es.filterMap Event.propName
  /-- While a name's offset fits, it is the name's. -/
  named : w.strings.length < 2 ^ 32 → ∀ name off, w.interned.lookup name = some off →
    Names w.strings off.toNat name
  /-- While the blocks fit, they are read as the events. -/
  wrote : w.strings.length < 2 ^ 32 → w.structs.length < 2 ^ 32 → Wrote w.strings w.structs es

variable {w : FdtWriter} {es : List Event}

theorem tracks_new : Tracks {} [] where
  never := by
    intro es' h
    rw [List.prefix_nil.mp h]
    exact le_rfl
  depth := rfl
  aligned := rfl
  structs := rfl
  strings := rfl
  interned name := by simp
  named _ name off h := by cases h
  wrote _ _ := .nil

theorem neverBelow_snoc {e : Event} (h : NeverBelow es)
    (hlast : ends (es ++ [e]) ≤ begins (es ++ [e])) : NeverBelow (es ++ [e]) := by
  intro es' hes'
  rcases List.prefix_concat_iff.mp hes' with rfl | hes'
  · exact hlast
  · exact h es' hes'

theorem count_snoc (e : Event) :
    begins (es ++ [e]) = begins es + begins [e] ∧ ends (es ++ [e]) = ends es + ends [e] :=
  ⟨List.countP_append, List.countP_append⟩

theorem Event.size_aligned (e : Event) : e.size % 4 = 0 := by
  cases e with
  | begin_ name =>
    have := padded_aligned (name.length + 1)
    change (4 + padded (name.length + 1)) % 4 = 0
    omega
  | prop name value =>
    have := padded_aligned value.length
    change (12 + padded value.length) % 4 = 0
    omega
  | end_ => rfl

theorem structSize_snoc (e : Event) : structSize (es ++ [e]) = structSize es + e.size := by
  unfold structSize
  rw [List.map_append, List.sum_append]
  rfl

theorem Tracks.snoc {w' : FdtWriter} {piece more : Bytes} {e : Event} (h : Tracks w es)
    (hstructs : w'.structs = w.structs ++ piece) (hstrings : w'.strings = w.strings ++ more)
    (hsize : piece.length = e.size) (hdepth : w'.depth + ends (es ++ [e]) = begins (es ++ [e]))
    (hnames : w'.strings.length = stringsSize (es ++ [e]))
    (hinterned : ∀ name, (w'.interned.lookup name).isSome = true ↔
      name ∈ (es ++ [e]).filterMap Event.propName)
    (hnamed : w'.strings.length < 2 ^ 32 → ∀ name off, w'.interned.lookup name = some off →
      Names w'.strings off.toNat name)
    (hencodes : w'.strings.length < 2 ^ 32 → w'.structs.length < 2 ^ 32 →
      Encodes w'.strings piece e) : Tracks w' (es ++ [e]) where
  never := neverBelow_snoc h.never (by omega)
  depth := hdepth
  aligned := by
    have := h.aligned
    have := e.size_aligned
    rw [hstructs, List.length_append, hsize]
    omega
  structs := by rw [hstructs, List.length_append, hsize, h.structs, structSize_snoc]
  strings := hnames
  interned := hinterned
  named := hnamed
  wrote := by
    intro hfit hfit'
    have hpiece := hencodes hfit hfit'
    rw [hstrings] at hfit hpiece ⊢
    rw [hstructs] at hfit' ⊢
    rw [List.length_append] at hfit hfit'
    exact .snoc ((h.wrote (by omega) (by omega)).grow more) hpiece

theorem Tracks.snoc_plain {w' : FdtWriter} {piece : Bytes} {e : Event} (h : Tracks w es)
    (hstructs : w'.structs = w.structs ++ piece) (hstrings : w'.strings = w.strings)
    (hinterned : w'.interned = w.interned) (hsize : piece.length = e.size)
    (hdepth : w'.depth + ends (es ++ [e]) = begins (es ++ [e])) (hplain : e.propName = none)
    (hencodes : Encodes w.strings piece e) : Tracks w' (es ++ [e]) := by
  have hnames : (es ++ [e]).filterMap Event.propName = es.filterMap Event.propName := by
    rw [List.filterMap_append, List.filterMap_cons_none hplain, List.filterMap_nil, List.append_nil]
  refine @Tracks.snoc w es w' piece [] e h hstructs (by rw [hstrings, List.append_nil]) hsize hdepth
    ?_ ?_ ?_ ?_
  · unfold stringsSize
    rw [hstrings, hnames]
    exact h.strings
  · rw [hinterned, hnames]
    exact h.interned
  · rw [hinterned, hstrings]
    exact h.named
  · intro _ _
    rw [hstrings]
    exact hencodes

theorem Tracks.beginNode {name : Bytes} (h : Tracks w es) (hname : (0 : UInt8) ∉ name) :
    Tracks (w.beginNode name) (es ++ [.begin_ name]) := by
  obtain ⟨hbegins, hends⟩ := @count_snoc es (.begin_ name)
  have hone : begins [.begin_ name] = 1 ∧ ends [.begin_ name] = 0 := ⟨rfl, rfl⟩
  have hdepth := h.depth
  refine h.snoc_plain ?_ rfl rfl ?_ ?_ rfl (encodes_begin hname _)
  · have halign : (w.structs ++ be32 tokBeginNode).length % 4 = 0 := by
      have := h.aligned
      rw [List.length_append, length_be32]
      omega
    unfold FdtWriter.beginNode
    rw [List.append_assoc _ name [0], pad4_append halign, List.append_assoc, List.length_append]
    rfl
  · simp [Event.size, padded]
    omega
  · change w.depth + 1 + _ = _
    omega

theorem Tracks.endNode {w' : FdtWriter} (h : Tracks w es) (hw : w.endNode = .ok w') :
    Tracks w' (es ++ [.end_]) := by
  obtain ⟨hbegins, hends⟩ := @count_snoc es .end_
  have hone : begins [.end_] = 0 ∧ ends [.end_] = 1 := ⟨rfl, rfl⟩
  have hdepth := h.depth
  unfold FdtWriter.endNode at hw
  split at hw
  · cases hw
  · cases hw
    refine h.snoc_plain rfl rfl rfl (length_be32 _) ?_ rfl (encodes_end _)
    change w.depth - 1 + _ = _
    omega

theorem propNames_snoc (name value : Bytes) :
    (es ++ [Event.prop name value]).filterMap Event.propName =
      es.filterMap Event.propName ++ [name] := by
  rw [List.filterMap_append]
  rfl

theorem stringsSize_snoc (name value : Bytes) :
    stringsSize (es ++ [.prop name value]) = stringsSize es +
      if name ∈ es.filterMap Event.propName then 0 else name.length + 1 := by
  unfold stringsSize
  rw [propNames_snoc, List.toFinset_append]
  split
  · rename_i hmem
    rw [Finset.union_eq_left.mpr (by simpa using hmem), Nat.add_zero]
  · rename_i hmem
    rw [Finset.sum_union (by simpa using hmem)]
    simp

/-- **The name of a property is known or added**, and either way the offset is its own. -/
structure Interns (w : FdtWriter) (es : List Event) (name value : Bytes)
    (r : FdtWriter × UInt32) : Prop where
  structs : r.1.structs = w.structs
  depth : r.1.depth = w.depth
  grown : ∃ more, r.1.strings = w.strings ++ more
  size : r.1.strings.length = stringsSize (es ++ [.prop name value])
  found : r.1.interned.lookup name = some r.2
  interned : ∀ x, (r.1.interned.lookup x).isSome = true ↔
    x ∈ (es ++ [Event.prop name value]).filterMap Event.propName
  named : r.1.strings.length < 2 ^ 32 → ∀ x off, r.1.interned.lookup x = some off →
    Names r.1.strings off.toNat x

theorem Tracks.intern {name : Bytes} (h : Tracks w es) (hname : (0 : UInt8) ∉ name)
    (value : Bytes) : Interns w es name value (w.intern name) := by
  have hknown := h.interned name
  have hsize := @stringsSize_snoc es name value
  have hstrings := h.strings
  unfold FdtWriter.intern
  cases hl : w.interned.lookup name with
  | some off =>
    rw [hl] at hknown
    have hmem := hknown.mp rfl
    rw [if_pos hmem] at hsize
    refine ⟨rfl, rfl, ⟨[], (List.append_nil _).symm⟩, hstrings.trans hsize.symm, hl, fun x => ?_,
      h.named⟩
    rw [h.interned x, propNames_snoc, List.mem_append, List.mem_singleton]
    constructor
    · exact Or.inl
    · rintro (hx | rfl)
      · exact hx
      · exact hmem
  | none =>
    rw [hl] at hknown
    have hmem : name ∉ es.filterMap Event.propName := fun hm => by cases hknown.mpr hm
    rw [if_neg hmem] at hsize
    have hlookup : ∀ x, List.lookup x ((name, UInt32.ofNat w.strings.length) :: w.interned) =
        if x = name then some (UInt32.ofNat w.strings.length) else w.interned.lookup x := by
      intro x
      rw [List.lookup_cons]
      by_cases hx : x = name
      · simp [hx]
      · rw [if_neg hx, beq_eq_false_iff_ne.mpr hx]
    refine ⟨rfl, rfl, ⟨name ++ [0], List.append_assoc _ _ _⟩, ?_, ?_, fun x => ?_, ?_⟩
    · rw [List.length_append, List.length_append, List.length_singleton, hsize]
      omega
    · exact (hlookup name).trans (if_pos rfl)
    · rw [hlookup, propNames_snoc, List.mem_append, List.mem_singleton, ← h.interned x]
      by_cases hx : x = name <;> simp [hx]
    · intro hfit x off hx
      rw [List.length_append, List.length_append] at hfit
      rw [hlookup] at hx
      split at hx
      · rename_i heq
        cases hx
        have hlt : w.strings.length < 2 ^ 32 := by omega
        rw [UInt32.toNat_ofNat_of_lt' hlt, heq]
        exact names_added hname _
      · rw [List.append_assoc]
        exact (h.named (by omega) x off hx).grow _

theorem Tracks.propBytes {name value : Bytes} (h : Tracks w es) (hname : (0 : UInt8) ∉ name) :
    Tracks (w.propBytes name value) (es ++ [.prop name value]) := by
  obtain ⟨hbegins, hends⟩ := @count_snoc es (.prop name value)
  have hone : begins [.prop name value] = 0 ∧ ends [.prop name value] = 0 := ⟨rfl, rfl⟩
  have hdepth := h.depth
  have hi := h.intern hname value
  obtain ⟨more, hmore⟩ := hi.grown
  have hstructs : (w.propBytes name value).structs = w.structs ++ (be32 3 ++
      (be32 (UInt32.ofNat value.length) ++ (be32 (w.intern name).2 ++
        (value ++ List.replicate ((4 - value.length % 4) % 4) 0)))) := by
    have halign : (w.structs ++ be32 tokProp ++ be32 (UInt32.ofNat value.length) ++
        be32 (w.intern name).2).length % 4 = 0 := by
      have := h.aligned
      simp only [List.length_append, length_be32]
      omega
    unfold FdtWriter.propBytes
    dsimp only
    rw [hi.structs, pad4_append halign]
    simp only [List.append_assoc]
    rfl
  refine h.snoc hstructs hmore ?_ ?_ hi.size hi.interned hi.named fun hfit hfit' => ?_
  · simp [Event.size, padded]
    omega
  · change (w.intern name).1.depth + _ = _
    rw [hi.depth]
    omega
  · rw [hstructs] at hfit'
    simp only [List.length_append, length_be32] at hfit'
    exact encodes_prop (by omega) (hi.named hfit name _ hi.found)

/-! ## Runs -/

theorem Tracks.call {c : Call} {w' : FdtWriter} (h : Tracks w es) (hplain : c.Plain)
    (hw : w.call c = .ok w') : Tracks w' (es ++ c.event.toList) := by
  have hprop : ∀ name value, c.event = some (.prop name value) → Except.ok (w.propBytes name value) =
      Except.ok (ε := FdtError) w' → Tracks w' (es ++ c.event.toList) := by
    intro name value hc hw
    cases hw
    rw [hc]
    exact h.propBytes (hplain (.prop name value) (by rw [hc]; rfl))
  cases c with
  | beginNode name =>
    cases hw
    exact h.beginNode (hplain _ rfl)
  | endNode => exact h.endNode hw
  | propBytes name value => exact hprop _ _ rfl hw
  | propEmpty name => exact hprop _ _ rfl hw
  | propStr name value => exact hprop _ _ rfl hw
  | propStrList name values => exact hprop _ _ rfl hw
  | propU32 name value => exact hprop _ _ rfl hw
  | propU64 name value => exact hprop _ _ rfl hw
  | propCells name cells => exact hprop _ _ rfl hw
  | propReg64 pairs =>
    refine hprop _ _ rfl ?_
    rw [← hw]
    change _ = Except.ok (w.propBytes FdtWriter.regName _)
    rw [cells_reg64]
  | reserve address size =>
    cases hw
    rw [show (Call.reserve address size).event.toList = [] from rfl, List.append_nil]
    exact ⟨h.never, h.depth, h.aligned, h.structs, h.strings, h.interned, h.named, h.wrote⟩
  | setBootCpu id =>
    cases hw
    rw [show (Call.setBootCpu id).event.toList = [] from rfl, List.append_nil]
    exact ⟨h.never, h.depth, h.aligned, h.structs, h.strings, h.interned, h.named, h.wrote⟩

theorem call_rest {c : Call} {w' : FdtWriter} (hw : w.call c = .ok w') :
    w'.reservations = w.reservations ++ c.reservation.toList ∧
      w'.bootCpu = c.cpu.getD w.bootCpu := by
  have hprop : ∀ name value, Except.ok (w.propBytes name value) = Except.ok (ε := FdtError) w' →
      w'.reservations = w.reservations ++ [] ∧ w'.bootCpu = w.bootCpu := by
    intro name value hw
    cases hw
    unfold FdtWriter.propBytes FdtWriter.intern
    cases w.interned.lookup name <;> exact ⟨(List.append_nil _).symm, rfl⟩
  cases c with
  | beginNode name =>
    cases hw
    exact ⟨(List.append_nil _).symm, rfl⟩
  | endNode =>
    change w.endNode = _ at hw
    unfold FdtWriter.endNode at hw
    split at hw
    · cases hw
    · cases hw
      exact ⟨(List.append_nil _).symm, rfl⟩
  | reserve address size =>
    cases hw
    exact ⟨rfl, rfl⟩
  | setBootCpu id =>
    cases hw
    exact ⟨(List.append_nil _).symm, rfl⟩
  | propBytes name value => exact hprop _ _ hw
  | propEmpty name => exact hprop _ _ hw
  | propStr name value => exact hprop _ _ hw
  | propStrList name values => exact hprop _ _ hw
  | propU32 name value => exact hprop _ _ hw
  | propU64 name value => exact hprop _ _ hw
  | propCells name cells => exact hprop _ _ hw
  | propReg64 pairs => exact hprop _ _ hw

theorem Tracks.run {calls : List Call} {w' : FdtWriter} (h : Tracks w es)
    (hplain : ∀ c ∈ calls, c.Plain) (hw : calls.foldlM FdtWriter.call w = .ok w') :
    Tracks w' (es ++ events calls) ∧ w'.reservations = w.reservations ++ reservations calls ∧
      w'.bootCpu = (calls.filterMap Call.cpu).getLast?.getD w.bootCpu := by
  induction calls generalizing w es with
  | nil =>
    cases hw
    exact ⟨by rw [events, List.filterMap_nil, List.append_nil]; exact h,
      (List.append_nil _).symm, rfl⟩
  | cons c calls ih =>
    rw [List.foldlM_cons] at hw
    obtain ⟨next, hnext, hw⟩ := Fallible.ok_of_bind hw
    obtain ⟨hres, hcpu⟩ := call_rest hnext
    obtain ⟨htracks, hres', hcpu'⟩ := ih (h.call (hplain c List.mem_cons_self) hnext)
      (fun c hc => hplain c (List.mem_cons_of_mem _ hc)) hw
    have hcons : ∀ {β : Type} (f : Call → Option β), (c :: calls).filterMap f =
        (f c).toList ++ calls.filterMap f := by
      intro β f
      rw [List.filterMap_cons]
      cases f c <;> rfl
    refine ⟨?_, ?_, ?_⟩
    · rw [events, hcons, ← List.append_assoc]
      exact htracks
    · rw [hres', hres, reservations, reservations, hcons, List.append_assoc]
    · rw [hcpu', hcpu, hcons]
      cases c.cpu with
      | none => rfl
      | some id => exact (congrArg (Option.getD · w.bootCpu) List.getLast?_cons).symm

theorem Tracks.run_ok {calls : List Call} (h : Tracks w es) (hplain : ∀ c ∈ calls, c.Plain)
    (hnever : NeverBelow (es ++ events calls)) : ∃ w', calls.foldlM FdtWriter.call w = .ok w' := by
  induction calls generalizing w es with
  | nil => exact ⟨w, rfl⟩
  | cons c calls ih =>
    have hcons : events (c :: calls) = c.event.toList ++ events calls := by
      unfold events
      rw [List.filterMap_cons]
      cases c.event <;> rfl
    rw [hcons, ← List.append_assoc] at hnever
    have hcall : ∃ next, w.call c = .ok next := by
      cases c with
      | endNode =>
        -- the prefix that ends here has not gone below
        have hprefix := hnever (es ++ [.end_]) (List.prefix_append _ _)
        obtain ⟨hbegins, hends⟩ := @count_snoc es .end_
        have hone : begins [.end_] = 0 ∧ ends [.end_] = 1 := ⟨rfl, rfl⟩
        have hdepth := h.depth
        exact ⟨_, if_neg (by omega)⟩
      | _ => exact ⟨_, rfl⟩
    obtain ⟨next, hnext⟩ := hcall
    obtain ⟨w', hw'⟩ := ih (h.call (hplain c List.mem_cons_self) hnext)
      (fun c hc => hplain c (List.mem_cons_of_mem _ hc)) hnever
    refine ⟨w', ?_⟩
    rw [List.foldlM_cons, hnext]
    exact hw'

/-! ## The blob -/

theorem length_rsv : w.rsv.length = 16 * (w.reservations.length + 1) := by
  unfold FdtWriter.rsv
  have hentries : ∀ rs : List (UInt64 × UInt64),
      (rs.flatMap fun (address, size) => be64 address ++ be64 size).length = 16 * rs.length := by
    intro rs
    induction rs with
    | nil => rfl
    | cons r rs ih =>
      simp
      omega
  rw [List.length_append, List.length_append, hentries, length_be64]
  omega

/-- The ten words of the header. -/
def header (rsv structs strings : Bytes) (bootCpu : UInt32) : List UInt32 :=
  [fdtMagic, UInt32.ofNat (40 + rsv.length + structs.length + strings.length),
    UInt32.ofNat (40 + rsv.length), UInt32.ofNat (40 + rsv.length + structs.length),
    UInt32.ofNat 40, fdtVersion, fdtLastCompVersion, bootCpu, UInt32.ofNat strings.length,
    UInt32.ofNat structs.length]

theorem finish_eq_ok {dtb : Bytes} :
    w.finish = .ok dtb ↔
      w.depth = 0 ∧ 40 + w.rsv.length + (w.structs ++ be32 tokEnd).length + w.strings.length < 2 ^ 32 ∧
        dtb = (header w.rsv (w.structs ++ be32 tokEnd) w.strings w.bootCpu).flatMap be32 ++ w.rsv ++
          (w.structs ++ be32 tokEnd) ++ w.strings := by
  unfold FdtWriter.finish
  by_cases hdepth : w.depth = 0
  · rw [if_neg (not_not.mpr hdepth)]
    by_cases hfit : 40 + w.rsv.length + (w.structs ++ be32 tokEnd).length + w.strings.length < 2 ^ 32
    · have hfits : ∀ v, v < 2 ^ 32 → FdtWriter.fits v = .ok (UInt32.ofNat v) := fun v hv => if_pos hv
      have hall : ∀ v, v ≤ 40 + w.rsv.length + (w.structs ++ be32 tokEnd).length + w.strings.length →
          FdtWriter.fits v = .ok (UInt32.ofNat v) := fun v hv => hfits v (by omega)
      simp only [headerLen]
      rw [hall _ le_rfl, hall (40 + w.rsv.length) (by omega),
        hall (40 + w.rsv.length + (w.structs ++ be32 tokEnd).length) (by omega), hall 40 (by omega),
        hall w.strings.length (by omega), hall (w.structs ++ be32 tokEnd).length (by omega)]
      constructor
      · intro he
        exact ⟨hdepth, hfit, (Except.ok.inj he).symm⟩
      · rintro ⟨-, -, rfl⟩
        rfl
    · refine ⟨fun he => ?_, fun he => absurd he.2.1 hfit⟩
      obtain ⟨total, htotal, -⟩ := Fallible.ok_of_bind he
      unfold FdtWriter.fits at htotal
      rw [show headerLen = 40 from rfl, if_neg hfit] at htotal
      cases htotal
  · rw [if_pos hdepth]
    exact ⟨fun he => (nomatch he), fun he => absurd he.1 hdepth⟩

theorem reads_entry (e : UInt64 × UInt64) : Reads entry (be64 e.1 ++ be64 e.2) e :=
  (reads_dword e.1).bind ((reads_dword e.2).map fun size => (e.1, size))

theorem entries_rsv (rs : List (UInt64 × UInt64)) {fuel : Nat} (hfuel : rs.length < fuel) :
    entries fuel ((rs.flatMap fun (address, size) => be64 address ++ be64 size) ++ be64 0 ++ be64 0) =
      some (rs.takeWhile (· ≠ (0, 0))) := by
  induction rs generalizing fuel with
  | nil =>
    obtain ⟨fuel, rfl⟩ : ∃ n, fuel = n + 1 := ⟨fuel - 1, by omega⟩
    have hread := reads_entry (0, 0) []
    rw [List.append_nil] at hread
    rw [List.flatMap_nil, List.nil_append, entries, hread]
    rfl
  | cons r rs ih =>
    obtain ⟨fuel, rfl⟩ : ∃ n, fuel = n + 1 := ⟨fuel - 1, by omega⟩
    rw [List.length_cons] at hfuel
    rw [List.flatMap_cons, List.append_assoc, List.append_assoc]
    rw [entries, reads_entry r]
    dsimp only
    by_cases hzero : r = (0, 0)
    · rw [if_pos hzero, List.takeWhile_cons_of_neg (by simp [hzero])]
    · rw [if_neg hzero, ← List.append_assoc, ih (by omega),
        List.takeWhile_cons_of_pos (by simp [hzero])]
      rfl

theorem length_le_structSize (es : List Event) : es.length ≤ structSize es := by
  induction es with
  | nil => exact le_rfl
  | cons e es ih =>
    have hone : 1 ≤ e.size := by
      cases e
      · exact Nat.le_add_right_of_le (by decide)
      · exact Nat.le_add_right_of_le (by decide)
      · decide
    unfold structSize at ih ⊢
    rw [List.length_cons, List.map_cons, List.sum_cons]
    omega

theorem Wrote.tokens_end {strings block : Bytes} {es : List Event} (h : Wrote strings block es)
    {fuel : Nat} (hfuel : es.length < fuel) :
    Fdt.tokens strings fuel (block ++ be32 tokEnd) = some es := by
  obtain ⟨n, rfl⟩ : ∃ n, fuel = n + 1 + es.length := ⟨fuel - es.length - 1, by omega⟩
  have hend : Reads (token strings) (be32 tokEnd) .end_ := by
    refine (reads_word _).bind ?_
    exact Reads.pure _
  have hread := hend []
  rw [List.append_nil] at hread
  rw [h.tokens, Fdt.tokens, hread]
  simp

theorem parse_blocks {rsv structs strings : Bytes} {bootCpu : UInt32}
    (hfit : 40 + rsv.length + structs.length + strings.length < 2 ^ 32)
    (hrsv : rsv.length % 4 = 0) {dtb : Bytes}
    (hdtb : dtb = (header rsv structs strings bootCpu).flatMap be32 ++ rsv ++ structs ++ strings) :
    parse dtb = (entries dtb.length rsv).bind fun reserved =>
      (tokens strings dtb.length structs).bind fun es =>
        (assemble [] es).map fun root => ⟨root, reserved, bootCpu⟩ := by
  have hheader : ((header rsv structs strings bootCpu).flatMap be32).length = 40 := by
    simp [header]
  have hlength : dtb.length = 40 + rsv.length + structs.length + strings.length := by
    rw [hdtb, List.length_append, List.length_append, List.length_append, hheader]
  have hwords : words 10 dtb =
      .ok (header rsv structs strings bootCpu, rsv ++ (structs ++ strings)) := by
    rw [hdtb, List.append_assoc, List.append_assoc]
    exact reads_words (header rsv structs strings bootCpu) _
  have hnat : ∀ v, v ≤ dtb.length → (UInt32.ofNat v).toNat = v := fun v hv =>
    UInt32.toNat_ofNat_of_lt' (show v < 2 ^ 32 by omega)
  have hdrop : dtb.drop 40 = rsv ++ (structs ++ strings) := by
    rw [hdtb, List.append_assoc, List.append_assoc, ← hheader, List.drop_left]
  have hdropstructs : dtb.drop (40 + rsv.length) = structs ++ strings := by
    rw [← List.drop_drop, hdrop, List.drop_left]
  have hdropstrings : dtb.drop (40 + rsv.length + structs.length) = strings := by
    rw [← List.drop_drop, hdropstructs, List.drop_left]
  unfold parse
  rw [hwords]
  unfold header
  dsimp only
  rw [if_pos]
  · rw [hnat (40 + rsv.length + structs.length) (by omega), hnat strings.length (by omega),
      hnat 40 (by omega), hnat (40 + rsv.length) (by omega), hnat structs.length (by omega),
      hdropstrings, hdropstructs, hdrop, Nat.add_sub_cancel_left, List.take_left, List.take_left,
      List.take_length]
  · unfold LaidOut
    rw [hnat _ (by omega), hnat (40 + rsv.length + structs.length) (by omega),
      hnat strings.length (by omega), hnat 40 (by omega), hnat (40 + rsv.length) (by omega),
      hnat structs.length (by omega)]
    exact ⟨rfl, hlength.symm, by decide, by decide, by omega, by omega, by omega, by omega, by omega,
      by omega⟩

/-! ## What is promised -/

/-- **A blob says what the calls did.** -/
structure Describes (calls : List Call) (tree : DeviceTree) : Prop where
  /-- The one root has no name. -/
  root : tree.root.name = []
  events : tree.root.events = events calls
  reservations : tree.reservations = reservations calls
  bootCpu : tree.bootCpu = bootCpu calls

/-- **What is promised of a sequence of calls**: something is refused, or the blob is parsed to what
the calls did. What describes no tree is then refused. -/
def Promised (calls : List Call) : Prop :=
  (∃ e, image calls = .error e) ∨
    ∃ dtb tree, image calls = .ok dtb ∧ parse dtb = some tree ∧ Describes calls tree

/-- **The calls are of a tree** with one root, which has no name. -/
def OfTree (calls : List Call) : Prop := ∃ root : Node, root.name = [] ∧ root.events = events calls

variable {calls : List Call}

theorem image_ok (hplain : ∀ c ∈ calls, c.Plain) :
    ((∃ dtb, image calls = .ok dtb) ↔ Balanced (events calls) ∧ imageSize calls < 2 ^ 32) ∧
      ∀ dtb, image calls = .ok dtb → parse dtb = (assemble [] (events calls)).map fun root =>
        ⟨root, (reservations calls).takeWhile (· ≠ (0, 0)), bootCpu calls⟩ := by
  have hsize : ∀ w', Tracks w' (events calls) → w'.reservations = reservations calls →
      40 + w'.rsv.length + (w'.structs ++ be32 tokEnd).length + w'.strings.length =
        imageSize calls := by
    intro w' ht hr
    rw [length_rsv, List.length_append, length_be32, hr, ht.structs, ht.strings]
    rfl
  constructor
  · constructor
    · rintro ⟨dtb, h⟩
      obtain ⟨w', hw', hfinish⟩ := Fallible.ok_of_bind h
      obtain ⟨ht, hr, -⟩ := tracks_new.run hplain hw'
      rw [List.nil_append] at ht hr
      obtain ⟨hdepth, hfit, -⟩ := finish_eq_ok.mp hfinish
      rw [hsize w' ht hr] at hfit
      have hcount := ht.depth
      exact ⟨⟨ht.never, by omega⟩, hfit⟩
    · rintro ⟨⟨hnever, hequal⟩, hfit⟩
      obtain ⟨w', hw'⟩ := tracks_new.run_ok hplain hnever
      obtain ⟨ht, hr, -⟩ := tracks_new.run hplain hw'
      rw [List.nil_append] at ht hr
      rw [← hsize w' ht hr] at hfit
      have hcount := ht.depth
      obtain ⟨dtb, hdtb⟩ : ∃ dtb, w'.finish = .ok dtb :=
        ⟨_, finish_eq_ok.mpr ⟨by omega, hfit, rfl⟩⟩
      exact ⟨dtb, (congrArg (Except.bind · FdtWriter.finish) hw').trans hdtb⟩
  · intro dtb h
    obtain ⟨w', hw', hfinish⟩ := Fallible.ok_of_bind h
    obtain ⟨ht, hr, hb⟩ := tracks_new.run hplain hw'
    rw [List.nil_append] at ht hr
    obtain ⟨-, hfit, hdtb⟩ := finish_eq_ok.mp hfinish
    have hlength := congrArg List.length hdtb
    rw [List.length_append, List.length_append, List.length_append] at hlength
    have hevents := length_le_structSize (events calls)
    have hstructs := ht.structs
    have hrsvlen := @length_rsv w'
    rw [parse_blocks hfit (by rw [hrsvlen]; omega) hdtb]
    have hentries : entries dtb.length w'.rsv =
        some ((reservations calls).takeWhile (· ≠ (0, 0))) := by
      rw [← hr]
      exact entries_rsv _ (by omega)
    have htokens : tokens w'.strings dtb.length (w'.structs ++ be32 tokEnd) =
        some (events calls) := by
      rw [List.length_append] at hfit hlength
      exact (ht.wrote (by omega) (by omega)).tokens_end (by omega)
    rw [hentries, htokens, hb]
    rfl

/-- **The blob says what the calls did, or nothing comes out**, exactly of calls that are
unbalanced, or too much for 32-bit offsets, or of a tree with no reservation of nothing at 0. -/
theorem promised_iff (hplain : ∀ c ∈ calls, c.Plain) :
    Promised calls ↔
      ¬ Balanced (events calls) ∨ 2 ^ 32 ≤ imageSize calls ∨
        (OfTree calls ∧ (0, 0) ∉ reservations calls) := by
  obtain ⟨hok, hparse⟩ := image_ok hplain
  by_cases hout : Balanced (events calls) ∧ imageSize calls < 2 ^ 32
  · obtain ⟨dtb, himage⟩ := hok.mpr hout
    have hread := hparse dtb himage
    have hwhole : (reservations calls).takeWhile (· ≠ (0, 0)) = reservations calls ↔
        (0, 0) ∉ reservations calls := by
      rw [List.takeWhile_eq_self_iff]
      constructor
      · intro h hmem
        exact absurd (h _ hmem) (by simp)
      · intro h r hr
        exact decide_eq_true fun hzero => h (hzero ▸ hr)
    constructor
    · rintro (⟨e, he⟩ | ⟨dtb', tree, himage', htree, hd⟩)
      · rw [himage] at he
        cases he
      · rw [himage] at himage'
        cases himage'
        rw [hread] at htree
        obtain ⟨root, -, rfl⟩ := Option.map_eq_some_iff.mp htree
        exact Or.inr (Or.inr ⟨⟨root, hd.root, hd.events⟩, hwhole.mp hd.reservations⟩)
    · rintro (hunbalanced | hlarge | ⟨⟨root, hname, hevents⟩, hzero⟩)
      · exact absurd hout.1 hunbalanced
      · exact absurd hout.2 (by omega)
      · rw [assemble_eq_some_iff.mpr ⟨hname, hevents⟩] at hread
        exact Or.inr ⟨dtb, _, himage, hread, hname, hevents, hwhole.mpr hzero, rfl⟩
  · have hrefused : ∃ e, image calls = .error e := by
      cases himage : image calls with
      | error e => exact ⟨e, rfl⟩
      | ok dtb => exact absurd (hok.mp ⟨dtb, himage⟩) hout
    refine ⟨fun _ => ?_, fun _ => Or.inl hrefused⟩
    by_cases hbalanced : Balanced (events calls)
    · exact Or.inr (Or.inl (by
        by_contra hfit
        exact hout ⟨hbalanced, by omega⟩))
    · exact Or.inl hbalanced

def board : List Call :=
  [.reserve 0x80000000 0x1000, .setBootCpu 1, .beginNode [], .propU32 [0x61] 2, .beginNode [0x62],
    .propReg64 [(0x10000000, 0x100)], .endNode, .endNode]

theorem board_promised : (∀ c ∈ board, c.Plain) ∧ Promised board := by
  have hplain : ∀ c ∈ board, c.Plain := by
    simp [board, Call.Plain, Call.event, Event.name, FdtWriter.regName]
  refine ⟨hplain, (promised_iff hplain).mpr (Or.inr (Or.inr ⟨⟨.mk [] [([0x61], be32 2)]
    [.mk [0x62] [(FdtWriter.regName, be64 0x10000000 ++ be64 0x100)] []], rfl, ?_⟩, by decide⟩))⟩
  rfl

def late : List Call := [.beginNode [], .beginNode [0x61], .endNode, .propEmpty [0x62], .endNode]

/-- **A property after a child is written**, and the blob is no tree. -/
theorem property_after_child :
    (∀ c ∈ late, c.Plain) ∧ (∃ dtb, image late = .ok dtb ∧ parse dtb = none) ∧ ¬ Promised late := by
  have hplain : ∀ c ∈ late, c.Plain := by simp [late, Call.Plain, Call.event, Event.name]
  obtain ⟨dtb, himage⟩ : ∃ dtb, image late = .ok dtb := ⟨_, rfl⟩
  have hnone : parse dtb = none := by
    rw [(image_ok hplain).2 dtb himage, show assemble [] (events late) = none from rfl,
      Option.map_none]
  refine ⟨hplain, ⟨dtb, himage, hnone⟩, ?_⟩
  rintro (⟨e, he⟩ | ⟨dtb', tree, himage', htree, -⟩)
  · cases he
  · rw [himage] at himage'
    cases himage'
    rw [hnone] at htree
    cases htree

end Rsemu.Fdt
