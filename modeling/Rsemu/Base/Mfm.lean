import Mathlib.Data.Nat.ModEq
import Mathlib.Data.List.Basic
import Mathlib.Algebra.Order.Ring.Nat
import Mathlib.Data.List.GetD
import Mathlib.Data.List.Induction

/-!
# Clocked cells

A data bit is laid down as two cells: a clock, set where two zeros meet, and the bit. An entry
may have its clock left out, and a reader finds its place again by such a gap: sixteen cells
that ordinary data cannot show, at either alignment. `reads_even` and `reads_odd` say what a
stream must hold, and must have left out, to show them. `reads_iff` concludes for a stream
that leaves clocks out of two bytes only, each followed by bits that do not complete a false
one.
-/

namespace Rsemu.Mfm

def shiftIn {w : Nat} (x : BitVec w) (b : Bool) : BitVec w :=
  (x <<< 1) ||| (BitVec.ofBool b).setWidth w

theorem getLsbD_shiftIn {w : Nat} (x : BitVec w) (b : Bool) (j : Nat) (hj : j < w) :
    (shiftIn x b).getLsbD j = if j = 0 then b else x.getLsbD (j - 1) := by
  unfold shiftIn
  rw [BitVec.getLsbD_or, BitVec.getLsbD_shiftLeft, BitVec.getLsbD_setWidth]
  rcases j with _ | j
  · cases b <;> simp [hj]
  · simp [hj]

theorem getLsbD_foldl_shiftIn {w : Nat} (x : BitVec w) (bits : List Bool) (j : Nat) (hj : j < w) :
    (bits.foldl shiftIn x).getLsbD j =
      if j < bits.length then bits.getD (bits.length - 1 - j) false
      else x.getLsbD (j - bits.length) := by
  induction bits using List.reverseRecOn generalizing j with
  | nil => simp
  | append_singleton bits b ih =>
    rw [List.foldl_append, List.foldl_cons, List.foldl_nil, getLsbD_shiftIn _ _ _ hj,
      List.length_append, List.length_singleton]
    rcases j with _ | j
    · simp
    · rw [if_neg (by omega), Nat.add_sub_cancel, ih j (by omega)]
      by_cases h : j < bits.length
      · rw [if_pos h, if_pos (by omega), List.getD_append _ _ _ _ (by omega)]
        congr 1
        omega
      · rw [if_neg h, if_neg (by omega)]
        congr 1
        omega

/-- A data bit, and whether the clock before it is left out. -/
structure Entry where
  data : Bool
  missing : Bool := false
deriving DecidableEq, Inhabited

def clock (prev : Bool) (e : Entry) : Bool := !prev && !e.data && !e.missing

def cells : Bool → List Entry → List Bool
  | _, [] => []
  | prev, e :: es => clock prev e :: e.data :: cells e.data es

def last (prev : Bool) (es : List Entry) : Bool := es.foldl (fun _ e => e.data) prev

@[simp] theorem length_cells (prev : Bool) (es : List Entry) :
    (cells prev es).length = 2 * es.length := by
  induction es generalizing prev with
  | nil => rfl
  | cons e es ih =>
    simp only [cells, List.length_cons, ih]
    omega

theorem last_append (prev : Bool) (xs ys : List Entry) :
    last prev (xs ++ ys) = last (last prev xs) ys := by
  unfold last
  rw [List.foldl_append]

theorem cells_append (prev : Bool) (xs ys : List Entry) :
    cells prev (xs ++ ys) = cells prev xs ++ cells (last prev xs) ys := by
  induction xs generalizing prev with
  | nil => rfl
  | cons e es ih =>
    rw [List.cons_append, cells, ih]
    rfl

variable {es : List Entry}

theorem cells_data (prev : Bool) {i : Nat} {e : Entry} (h : es[i]? = some e) :
    (cells prev es)[2 * i + 1]? = some e.data := by
  induction es generalizing prev i with
  | nil => simp at h
  | cons e' es ih =>
    rcases i with _ | i
    · simp only [List.getElem?_cons_zero, Option.some.injEq] at h
      rw [h]
      rfl
    · exact ih e'.data (by simpa using h)

theorem cells_clock (prev : Bool) {i : Nat} {e e' : Entry} (h : es[i]? = some e)
    (h' : es[i + 1]? = some e') : (cells prev es)[2 * (i + 1)]? = some (clock e.data e') := by
  induction es generalizing prev i with
  | nil => simp at h
  | cons e₀ es ih =>
    rcases i with _ | i
    · simp only [List.getElem?_cons_zero, Option.some.injEq] at h
      rw [← h]
      cases es with
      | nil => simp at h'
      | cons e₁ es =>
        have : e₁ = e' := by simpa using h'
        rw [← this]
        rfl
    · exact ih e₀.data (by simpa using h) (by simpa using h')

theorem cells_first (prev : Bool) {e : Entry} (h : es[0]? = some e) :
    (cells prev es)[0]? = some (clock prev e) := by
  cases es with
  | nil => simp at h
  | cons e₀ es =>
    have : e₀ = e := by simpa using h
    rw [← this]
    rfl

def around {α : Type} [Inhabited α] (xs : List α) (i : Nat) : α := xs.getD (i % xs.length) default

theorem around_add {α : Type} [Inhabited α] (xs : List α) (t i : Nat) :
    around xs (xs.length * t + i) = around xs i := by
  unfold around
  rw [Nat.mul_add_mod]

theorem around_of_getElem? {α : Type} [Inhabited α] {xs : List α} {i : Nat} {x : α}
    (h : xs[i]? = some x) : around xs i = x := by
  have hi : i < xs.length := (List.getElem?_eq_some_iff.mp h).1
  unfold around
  rw [Nat.mod_eq_of_lt hi, List.getD_eq_getElem?_getD, h]
  rfl

/-- An endless stream: its entries, and the cells a reader sees. A clock may be set where the
writer had just started, so only what a clear one means is promised of it. -/
structure Stream where
  entry : Nat → Entry
  cell : Nat → Bool
  period : Nat
  period_pos : 0 < period
  entry_period : ∀ i, entry (i + period) = entry i
  data : ∀ i, cell (2 * i + 1) = (entry i).data
  clock_clear : ∀ i, cell (2 * (i + 1)) = false → (entry i).data = false →
    (entry (i + 1)).data = false → (entry (i + 1)).missing = true

theorem two_mul_mod (i n : Nat) : 2 * i % (2 * n) = 2 * (i % n) := Nat.mul_mod_mul_left 2 i n

theorem two_mul_add_one_mod {n : Nat} (hn : 0 < n) (i : Nat) :
    (2 * i + 1) % (2 * n) = 2 * (i % n) + 1 := by
  have hlt := Nat.mod_lt i hn
  have hdiv := Nat.div_add_mod i n
  have hsplit : 2 * i + 1 = 2 * n * (i / n) + (2 * (i % n) + 1) := by
    rw [Nat.mul_assoc]
    omega
  rw [hsplit, Nat.mul_add_mod, Nat.mod_eq_of_lt (by omega)]

theorem succ_mod {n : Nat} (hn : 0 < n) (i : Nat) : (i + 1) % n = 0 ∨ (i + 1) % n = i % n + 1 := by
  have hlt := Nat.mod_lt i hn
  have hdiv := Nat.div_add_mod i n
  rcases Nat.lt_or_ge (i % n + 1) n with h | h
  · right
    have hsplit : i + 1 = n * (i / n) + (i % n + 1) := by omega
    rw [hsplit, Nat.mul_add_mod, Nat.mod_eq_of_lt h]
  · left
    have hsplit : i + 1 = n * (i / n + 1) := by
      rw [Nat.mul_succ]
      omega
    rw [hsplit, Nat.mul_mod_right]

theorem getElem?_mod {α : Type} [Inhabited α] {xs : List α} (hpos : 0 < xs.length) (i : Nat) :
    xs[i % xs.length]? = some (around xs i) := by
  have hlt := Nat.mod_lt i hpos
  unfold around
  rw [List.getElem?_eq_getElem hlt, List.getD_eq_getElem _ _ hlt]

/-- **A track written once round**, with nothing before its first bit. -/
def ring (es : List Entry) (hpos : 0 < es.length) : Stream where
  entry := around es
  cell := around (cells false es)
  period := es.length
  period_pos := hpos
  entry_period := by
    intro i
    unfold around
    rw [Nat.add_mod_right]
  data := by
    intro i
    have h := cells_data false (getElem?_mod hpos i)
    have hmod := two_mul_add_one_mod hpos i
    unfold around at h ⊢
    rw [length_cells, hmod, List.getD_eq_getElem?_getD, h]
    rfl
  clock_clear := by
    intro i hclock hdata hdata'
    have hcell : (cells false es)[2 * ((i + 1) % es.length)]? =
        some (around (cells false es) (2 * (i + 1))) := by
      have hcells : 0 < (cells false es).length := by simpa using hpos
      have := getElem?_mod hcells (2 * (i + 1))
      rwa [length_cells, two_mul_mod] at this
    rw [hclock] at hcell
    rcases succ_mod hpos i with hwrap | hnext
    · -- the first entry: no bit before it
      have hfirst := cells_first false (hwrap ▸ getElem?_mod hpos (i + 1))
      rw [hwrap] at hcell
      have := Option.some.inj (hfirst.symm.trans hcell)
      simpa [clock, hdata'] using this
    · have hthis := cells_clock false (getElem?_mod hpos i)
        (hnext ▸ getElem?_mod hpos (i + 1))
      rw [hnext] at hcell
      have := Option.some.inj (hthis.symm.trans hcell)
      simpa [clock, hdata, hdata'] using this

def sync : BitVec 16 := 0x4489

/-- The sync word stands at a cell. -/
def Reads (cell : Nat → Bool) (at_ : Nat) : Prop :=
  ∀ k < 16, cell (at_ + k) = sync.getLsbD (15 - k)

def word (cell : Nat → Bool) (at_ : Nat) : BitVec 16 :=
  (List.range 16).foldl (fun w i => shiftIn w (cell (at_ + i))) 0

theorem getLsbD_word (cell : Nat → Bool) (at_ k : Nat) (hk : k < 16) :
    (word cell at_).getLsbD (15 - k) = cell (at_ + k) := by
  have hfold : word cell at_ =
      (((List.range 16).map fun i => cell (at_ + i)).foldl shiftIn 0) := by
    unfold word
    rw [List.foldl_map]
  rw [hfold, getLsbD_foldl_shiftIn _ _ _ (by omega), List.length_map, List.length_range,
    if_pos (by omega), show 16 - 1 - (15 - k) = k by omega, List.getD_eq_getElem?_getD,
    List.getElem?_map, List.getElem?_range hk]
  rfl

theorem word_eq_sync_iff {cell : Nat → Bool} {at_ : Nat} :
    word cell at_ = sync ↔ Reads cell at_ := by
  constructor
  · intro h k hk
    rw [← h, getLsbD_word cell at_ k hk]
  · intro h
    refine BitVec.eq_of_getLsbD_eq fun j hj => ?_
    have hword := getLsbD_word cell at_ (15 - j) (by omega)
    have hsync := h (15 - j) (by omega)
    rw [show 15 - (15 - j) = j by omega] at hword hsync
    rw [hword, hsync]

namespace Stream

variable {s : Stream} {p : Nat}

/-- The stream's data bits from a position on. -/
def Shows (s : Stream) : Nat → List Bool → Prop
  | _, [] => True
  | p, b :: bits => (s.entry p).data = b ∧ s.Shows (p + 1) bits

def a1 : List Bool := [true, false, true, false, false, false, false, true]

def c2 : List Bool := [true, true, false, false, false, false, true, false]

theorem reads_even (h : Reads s.cell (2 * p)) :
    s.Shows p a1 ∧ (s.entry (p + 5)).missing = true := by
  have hdata : ∀ j, j < 8 → (s.entry (p + j)).data = sync.getLsbD (15 - (2 * j + 1)) := by
    intro j hj
    rw [← s.data (p + j), ← h (2 * j + 1) (by omega)]
    congr 1
    omega
  have hclock : s.cell (2 * (p + 4 + 1)) = false := h 10 (by omega)
  refine ⟨⟨hdata 0 (by omega), hdata 1 (by omega), hdata 2 (by omega), hdata 3 (by omega),
    hdata 4 (by omega), hdata 5 (by omega), hdata 6 (by omega), hdata 7 (by omega), trivial⟩, ?_⟩
  exact s.clock_clear (p + 4) hclock (hdata 4 (by omega)) (hdata 5 (by omega))

theorem reads_odd (h : Reads s.cell (2 * p + 1)) :
    s.Shows p [false, false, false, false, true, false, true, false] ∧
      (s.entry (p + 2)).missing = true := by
  have hdata : ∀ j, j < 8 → (s.entry (p + j)).data = sync.getLsbD (15 - 2 * j) := by
    intro j hj
    rw [← s.data (p + j), ← h (2 * j) (by omega)]
    congr 1
    omega
  have hclock : s.cell (2 * (p + 1 + 1)) = false := h 3 (by omega)
  refine ⟨⟨hdata 0 (by omega), hdata 1 (by omega), hdata 2 (by omega), hdata 3 (by omega),
    hdata 4 (by omega), hdata 5 (by omega), hdata 6 (by omega), hdata 7 (by omega), trivial⟩, ?_⟩
  exact s.clock_clear (p + 1) hclock (hdata 1 (by omega)) (hdata 2 (by omega))

theorem entry_add (s : Stream) (i t : Nat) : s.entry (i + s.period * t) = s.entry i := by
  induction t with
  | zero => rfl
  | succ t ih => rw [Nat.mul_succ, ← Nat.add_assoc, s.entry_period, ih]

/-- **Clocks are left out of two bytes only**: of `$A1` before a one, and of `$C2` before two
ones. -/
def Marked (s : Stream) : Prop :=
  ∀ p, (s.entry (p + 5)).missing = true →
    s.Shows p (a1 ++ [true]) ∨ s.Shows (p + 1) (c2 ++ [true, true])

theorem Marked.reads (hs : s.Marked) {at_ : Nat} (h : Reads s.cell at_) :
    ∃ p, at_ = 2 * p ∧ s.Shows p (a1 ++ [true]) ∧ (s.entry (p + 5)).missing = true := by
  rcases Nat.mod_two_eq_zero_or_one at_ with heven | hodd
  · obtain ⟨p, rfl⟩ : ∃ p, at_ = 2 * p := ⟨at_ / 2, by omega⟩
    obtain ⟨hshows, hmissing⟩ := reads_even h
    refine ⟨p, rfl, ?_, hmissing⟩
    rcases hs p hmissing with ha1 | hc2
    · exact ha1
    · -- the byte would be `$C2` one pair on, whose first bit is not the second of `$A1`
      cases hc2.1.symm.trans hshows.2.1
  · obtain ⟨p, rfl⟩ : ∃ p, at_ = 2 * p + 1 := ⟨at_ / 2, by omega⟩
    obtain ⟨hshows, hmissing⟩ := reads_odd h
    obtain ⟨_, _, _, _, _, h5, h6, h7, _⟩ := hshows
    -- the byte the clock is missing from starts three pairs before, or two
    have hround : p + 3 * s.period - 3 + 5 = p + 2 + s.period * 3 := by
      have := s.period_pos
      omega
    rcases hs (p + 3 * s.period - 3) (by rw [hround, s.entry_add]; exact hmissing) with ha1 | hc2
    · have h8 := ha1.2.2.2.2.2.2.2.2.1
      rw [show p + 3 * s.period - 3 + 1 + 1 + 1 + 1 + 1 + 1 + 1 + 1 = p + 5 + s.period * 3 by
        omega, s.entry_add] at h8
      cases h8.symm.trans h5
    · have h9 := hc2.2.2.2.2.2.2.2.2.2.1
      rw [show p + 3 * s.period - 3 + 1 + 1 + 1 + 1 + 1 + 1 + 1 + 1 + 1 + 1 =
        p + 7 + s.period * 3 by have := s.period_pos; omega, s.entry_add] at h9
      cases h9.symm.trans h7

end Stream

theorem around_of_drop {xs rest : List Entry} {q i : Nat} {e : Entry} (h : es.drop q = xs ++ rest)
    (hi : xs[i]? = some e) (t : Nat) : around es (es.length * t + (q + i)) = e := by
  have hlt : i < xs.length := (List.getElem?_eq_some_iff.mp hi).1
  rw [around_add]
  refine around_of_getElem? ?_
  rw [← List.getElem?_drop, h, List.getElem?_append_left hlt, hi]

theorem shows_of_drop {xs rest : List Entry} (hpos : 0 < es.length) {q : Nat}
    (h : es.drop q = xs ++ rest) (t : Nat) :
    (ring es hpos).Shows (es.length * t + q) (xs.map Entry.data) := by
  induction xs generalizing q with
  | nil => trivial
  | cons x xs ih =>
    have hnext : es.drop (q + 1) = xs ++ rest := by
      rw [← List.drop_drop, h]
      rfl
    have hfirst : (x :: xs)[0]? = some x := rfl
    exact ⟨congrArg Entry.data (around_of_drop h hfirst t), ih hnext⟩

def syncEntries : List Entry :=
  [⟨true, false⟩, ⟨false, false⟩, ⟨true, false⟩, ⟨false, false⟩, ⟨false, false⟩, ⟨false, true⟩,
    ⟨false, false⟩, ⟨true, false⟩]

theorem cells_syncEntries (prev : Bool) :
    cells prev syncEntries = (List.range 16).map fun k => sync.getLsbD (15 - k) := by
  cases prev <;> decide

theorem reads_written (pre post : List Entry) (at_ : Nat)
    (hat : at_ % (2 * (pre ++ syncEntries ++ post).length) = 2 * pre.length) :
    Reads (around (cells false (pre ++ syncEntries ++ post))) at_ := by
  intro k hk
  have hcell : (cells false (pre ++ syncEntries ++ post))[2 * pre.length + k]? =
      some (sync.getLsbD (15 - k)) := by
    rw [cells_append, cells_append, List.getElem?_append_left, List.getElem?_append_right,
      length_cells, Nat.add_sub_cancel_left, cells_syncEntries, List.getElem?_map,
      List.getElem?_range hk]
    · rfl
    · rw [length_cells]
      omega
    · simp only [List.length_append, length_cells, syncEntries, List.length_cons, List.length_nil]
      omega
  have hround := Nat.div_add_mod at_ (2 * (pre ++ syncEntries ++ post).length)
  rw [hat] at hround
  rw [← hround, Nat.add_assoc, ← length_cells false, around_add]
  exact around_of_getElem? hcell

end Rsemu.Mfm
