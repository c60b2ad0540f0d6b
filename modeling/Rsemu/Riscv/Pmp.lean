import Rsemu.Base.FirstMatch
import Rsemu.Riscv.Csr

/-!
# Physical memory protection, and the memo in front of it

Entries are matched in order and the first match decides; `pmpAllows` is that scan. The
translation cache remembers, per privilege mode, the largest span around the last address
asked about on which the scan's answer is one answer, and the generation of the
configuration it was computed under.

A span is exact by `FirstMatch.firstMatch_span`. What is left is the generation: it is a
64-bit counter, so the memo is the scan as long as fewer than 2^64 writes to the
protection registers fall between two questions, and `stale_span` shows what it says
after exactly that many.
-/

namespace Rsemu.Riscv

open FirstMatch (Range Outcome firstMatch)

/-- What an access is for. -/
inductive Access where
  | fetch
  | load
  | store
deriving DecidableEq

def pmpBit : Access → BitVec 8
  | .load => 0b001
  | .store => 0b010
  | .fetch => 0b100

def trailingZeros (x : U64) : Nat := x.ctz.toNat

def napot (addr : U64) : U64 × U64 :=
  let ones := trailingZeros (~~~addr)
  if ones ≥ 62 then (0, BitVec.allOnes 64)
  else
    let base := (addr &&& ~~~((1 : U64) <<< ones - 1)) <<< 2
    (base, base + 1 <<< (ones + 3))

namespace Csrs

/-- The range of an entry. -/
def pmpBounds (c : Csrs) (i : Nat) : Option (U64 × U64) :=
  let mode := c.pmpcfg i >>> 3 &&& 3
  if mode = 0 then none
  -- the previous entry's address is the bottom of the range
  else if mode = 1 then some (if i = 0 then 0 else c.pmpaddr (i - 1) <<< 2, c.pmpaddr i <<< 2)
  else if mode = 2 then some (c.pmpaddr i <<< 2, c.pmpaddr i <<< 2 + 4)
  else some (napot (c.pmpaddr i))

def pmpRange (c : Csrs) (i : Nat) : Option (Range Nat (BitVec 8)) :=
  (c.pmpBounds i).bind fun (lo, hi) =>
    if lo < hi then some ⟨lo.toNat, hi.toNat, c.pmpcfg i⟩ else none

def pmpRanges (c : Csrs) : List (Range Nat (BitVec 8)) :=
  (List.range c.pmpCount).filterMap c.pmpRange

def pmpGrants (cfg : BitVec 8) (kind : Access) (mode : Priv) : Bool :=
  (mode == .machine && cfg &&& 0x80 == 0) || cfg &&& pmpBit kind != 0

def pmpDefault (c : Csrs) (mode : Priv) : Bool := mode == .machine || c.pmpCount == 0

def lastOf (addr len : U64) : U64 := addr + (if len = 0 then 0 else len - 1)

def pmpVerdict (c : Csrs) (kind : Access) (mode : Priv) : Outcome (BitVec 8) → Bool
  | .refused => false
  | .hit cfg => pmpGrants cfg kind mode
  | .miss => c.pmpDefault mode

def pmpAllows (c : Csrs) (addr len : U64) (kind : Access) (mode : Priv) : Bool :=
  c.pmpVerdict kind mode (firstMatch addr.toNat (lastOf addr len).toNat c.pmpRanges)

end Csrs

/-- A span of physical addresses over which protection gives one answer, and that answer. -/
structure PmpSpan where
  lo : Nat
  hi : Nat
  /-- One bit per access kind. -/
  perms : BitVec 8

def PmpSpan.empty : PmpSpan := ⟨0, 0, 0⟩

def PmpSpan.covers (span : PmpSpan) (addr last : U64) : Bool :=
  decide (span.lo ≤ addr.toNat ∧ last.toNat < span.hi)

def PmpSpan.permits (span : PmpSpan) (kind : Access) : Bool := span.perms &&& pmpBit kind != 0

def Csrs.pmpPerms (c : Csrs) (mode : Priv) : Option (BitVec 8) → BitVec 8
  | some cfg => if mode = .machine ∧ cfg &&& 0x80 = 0 then 0b111 else cfg &&& 0b111
  | none => if c.pmpDefault mode then 0b111 else 0

def Csrs.pmpSpan (c : Csrs) (addr : U64) (mode : Priv) : PmpSpan :=
  let span := FirstMatch.span addr.toNat 0 (2 ^ 64 - 1) c.pmpRanges
  ⟨span.lo, span.hi, c.pmpPerms mode span.value⟩

/-- One remembered span per privilege mode, and the configuration they were computed under. -/
structure PmpCache where
  spans : Priv → PmpSpan
  generation : U64

def PmpCache.new : PmpCache := ⟨fun _ => .empty, 0⟩

def PmpCache.refresh (cache : PmpCache) (c : Csrs) : PmpCache :=
  if cache.generation ≠ c.pmpGen then { PmpCache.new with generation := c.pmpGen } else cache

/-- `pmpAllows`, remembering the span the answer holds over. -/
def PmpCache.allows (cache : PmpCache) (c : Csrs) (addr len : U64) (kind : Access) (mode : Priv) :
    Bool × PmpCache :=
  let last := Csrs.lastOf addr len
  -- an access past the top of the address space is no span's to answer
  if last < addr then (c.pmpAllows addr len kind mode, cache)
  else
    let cache := cache.refresh c
    if (cache.spans mode).covers addr last then ((cache.spans mode).permits kind, cache)
    else
      let span := c.pmpSpan addr mode
      let cache := { cache with spans := Function.update cache.spans mode span }
      if span.covers addr last then (span.permits kind, cache)
      else (c.pmpAllows addr len kind mode, cache)

def Csrs.pmpPageUniform (c : Csrs) (page : U64) (kind : Access) (mode : Priv) : Bool :=
  if page.toNat + 4096 ≥ 2 ^ 64 then false
  else
    (c.pmpRanges.all fun r =>
      decide (r.hi ≤ page.toNat ∨ page.toNat + 4096 ≤ r.lo) ||
        decide (¬ (r.lo > page.toNat ∨ r.hi < page.toNat + 4096))) &&
      c.pmpAllows page 4096 kind mode

/-- The span answers as the scan does, wherever it covers. -/
def PmpSpan.Exact (span : PmpSpan) (c : Csrs) (mode : Priv) : Prop :=
  ∀ addr len kind, ¬ Csrs.lastOf addr len < addr → span.covers addr (Csrs.lastOf addr len) = true →
    span.permits kind = c.pmpAllows addr len kind mode

theorem PmpSpan.exact_empty (c : Csrs) (mode : Priv) : PmpSpan.empty.Exact c mode := by
  intro addr len kind _ hcovers
  have hin := of_decide_eq_true hcovers
  exact absurd hin.2 (Nat.not_lt_zero _)

theorem and_pmpBit (cfg : BitVec 8) (kind : Access) :
    cfg &&& 0b111 &&& pmpBit kind = cfg &&& pmpBit kind := by
  rw [BitVec.and_assoc]
  cases kind <;> rfl

theorem all_pmpBit (kind : Access) : ((0b111 : BitVec 8) &&& pmpBit kind != 0) = true := by
  cases kind <;> rfl

theorem no_pmpBit (kind : Access) : ((0 : BitVec 8) &&& pmpBit kind != 0) = false := by
  cases kind <;> decide

theorem Csrs.pmpPerms_bit (c : Csrs) (kind : Access) (mode : Priv) (value : Option (BitVec 8)) :
    (c.pmpPerms mode value &&& pmpBit kind != 0) =
      c.pmpVerdict kind mode (Outcome.ofValue value) := by
  cases value with
  | none =>
    unfold Csrs.pmpPerms Outcome.ofValue Csrs.pmpVerdict
    cases c.pmpDefault mode with
    | true => exact all_pmpBit kind
    | false => exact no_pmpBit kind
  | some cfg =>
    unfold Csrs.pmpPerms Outcome.ofValue Csrs.pmpVerdict Csrs.pmpGrants
    dsimp only
    by_cases hopen : mode = .machine ∧ cfg &&& 0x80 = 0
    · rw [if_pos hopen, all_pmpBit, hopen.1, hopen.2]
      rfl
    · have hclosed : (mode == .machine && cfg &&& 0x80 == 0) = false := by
        rw [Bool.and_eq_false_iff, beq_eq_false_iff_ne, beq_eq_false_iff_ne]
        exact not_and_or.mp hopen
      rw [if_neg hopen, and_pmpBit, hclosed, Bool.false_or]

theorem Csrs.exact_pmpSpan (c : Csrs) (point : U64) (mode : Priv) :
    (c.pmpSpan point mode).Exact c mode := by
  intro addr len kind hwrap hcovers
  obtain ⟨hlo, hhi⟩ := of_decide_eq_true hcovers
  have hle : addr.toNat ≤ (Csrs.lastOf addr len).toNat := Nat.le_of_not_lt hwrap
  unfold Csrs.pmpAllows
  rw [FirstMatch.firstMatch_span hle hlo hhi]
  exact c.pmpPerms_bit kind mode _

theorem Csrs.toNat_lastOf {a l : U64} (hl : 0 < l.toNat) (hsum : a.toNat + l.toNat ≤ 2 ^ 64) :
    (Csrs.lastOf a l).toNat = a.toNat + l.toNat - 1 := by
  have hone : (1 : U64).toNat = 1 := rfl
  have hne : l ≠ 0 := by
    intro hzero
    rw [hzero] at hl
    exact Nat.lt_irrefl _ hl
  unfold Csrs.lastOf
  rw [if_neg hne, BitVec.toNat_add, BitVec.toNat_sub, hone]
  omega

variable {c : Csrs} {cache : PmpCache}

theorem Csrs.pmpAllows_of_uniform {page addr len : U64} {kind : Access} {mode : Priv}
    (h : c.pmpPageUniform page kind mode = true) (hlen : 0 < len.toNat)
    (hlo : page.toNat ≤ addr.toNat) (hhi : addr.toNat + len.toNat ≤ page.toNat + 4096) :
    c.pmpAllows addr len kind mode = true := by
  unfold Csrs.pmpPageUniform at h
  split at h
  · cases h
  rw [Bool.and_eq_true, List.all_eq_true] at h
  obtain ⟨hedges, hpage⟩ := h
  have hpageLen : (4096 : U64).toNat = 4096 := rfl
  have hwhole := Csrs.toNat_lastOf (a := page) (l := 4096)
    (by rw [hpageLen]; omega) (by rw [hpageLen]; omega)
  have hpart := Csrs.toNat_lastOf (a := addr) hlen (by omega)
  have hsame : firstMatch addr.toNat (Csrs.lastOf addr len).toNat c.pmpRanges =
      firstMatch page.toNat (Csrs.lastOf page 4096).toNat c.pmpRanges := by
    refine FirstMatch.firstMatch_uniform hlo (by omega) (by omega) fun r hr => ?_
    have hedge := hedges r hr
    rw [Bool.or_eq_true, decide_eq_true_iff, decide_eq_true_iff] at hedge
    unfold Range.NoEdge
    omega
  exact (congrArg (c.pmpVerdict kind mode) hsame).trans hpage

/-- A hart's protection registers and the memo in front of them. -/
structure Memo where
  csrs : Csrs
  cache : PmpCache

def Memo.reset (xlen : Xlen) (ext : Extensions) (hartid : U64) (pmpCount : Nat) : Memo :=
  ⟨Csrs.new xlen ext hartid pmpCount, .new⟩

/-- What can happen around the memo. -/
inductive PmpOp where
  | write (num : Nat) (value pending : U64)
  | setPriv (mode : Priv)
  | query (addr len : U64) (kind : Access) (mode : Priv)

/-- A write, or a question put to the memo. -/
def Memo.on (m : Memo) : PmpOp → Memo
  | .write num value pending =>
    match m.csrs.write num value pending with
    | some (csrs, _) => { m with csrs := csrs }
    | none => m
  | .setPriv mode => { m with csrs := { m.csrs with privMode := mode } }
  | .query addr len kind mode => { m with cache := (m.cache.allows m.csrs addr len kind mode).2 }

/-- **Every question of the run is answered as the scan answers it at that moment.** -/
def Memo.Exact : Memo → List PmpOp → Prop
  | _, [] => True
  | m, op :: ops =>
    (∀ addr len kind mode, op = .query addr len kind mode →
      (m.cache.allows m.csrs addr len kind mode).1 = m.csrs.pmpAllows addr len kind mode) ∧
    (m.on op).Exact ops

def PmpOp.isPmpWrite : PmpOp → Bool
  | .write num _ _ => decide (Num.pmpcfg0 ≤ num ∧ num < Num.tselect)
  | _ => false

def PmpOp.isPlainQuery : PmpOp → Bool
  | .query addr len _ _ => !decide (Csrs.lastOf addr len < addr)
  | _ => false

/-- Fewer than 2^64 writes to the protection registers fall between a question and the one
before it, of those that do not run past the top of the address space; `n` have fallen. -/
def Spaced : Nat → List PmpOp → Prop
  | _, [] => True
  | n, op :: ops =>
    if op.isPlainQuery then n < 2 ^ 64 ∧ Spaced 0 ops
    else if op.isPmpWrite then Spaced (n + 1) ops
    else Spaced n ops

instance Spaced.decidable : ∀ n ops, Decidable (Spaced n ops)
  | _, [] => inferInstanceAs (Decidable True)
  | n, op :: ops =>
    have := Spaced.decidable 0 ops
    have := Spaced.decidable (n + 1) ops
    have := Spaced.decidable n ops
    inferInstanceAs (Decidable (if op.isPlainQuery then n < 2 ^ 64 ∧ Spaced 0 ops
      else if op.isPmpWrite then Spaced (n + 1) ops else Spaced n ops))

/-- What is remembered for each mode is right. -/
def PmpCache.Exact (cache : PmpCache) (c : Csrs) : Prop :=
  ∀ mode, (cache.spans mode).Exact c mode

theorem PmpCache.exact_empty (c : Csrs) (generation : U64) :
    PmpCache.Exact { PmpCache.new with generation := generation } c :=
  fun mode => PmpSpan.exact_empty c mode

theorem Csrs.pmpAllows_congr {c' : Csrs} (hcount : c'.pmpCount = c.pmpCount)
    (hcfg : c'.pmpcfg = c.pmpcfg) (haddr : c'.pmpaddr = c.pmpaddr) (addr len : U64) (kind : Access)
    (mode : Priv) : c'.pmpAllows addr len kind mode = c.pmpAllows addr len kind mode := by
  have hbounds (i : Nat) : c'.pmpBounds i = c.pmpBounds i := by
    unfold Csrs.pmpBounds
    rw [hcfg, haddr]
  have hrange : c'.pmpRange = c.pmpRange := by
    funext i
    unfold Csrs.pmpRange
    rw [hbounds, hcfg]
  have hverdict (o : Outcome (BitVec 8)) : c'.pmpVerdict kind mode o = c.pmpVerdict kind mode o := by
    unfold Csrs.pmpVerdict Csrs.pmpDefault
    rw [hcount]
  unfold Csrs.pmpAllows Csrs.pmpRanges
  rw [hrange, hcount, hverdict]

theorem PmpCache.Exact.congr {c' : Csrs} (h : cache.Exact c) (hcount : c'.pmpCount = c.pmpCount)
    (hcfg : c'.pmpcfg = c.pmpcfg) (haddr : c'.pmpaddr = c.pmpaddr) : cache.Exact c' := by
  intro mode addr len kind hwrap hcovers
  rw [Csrs.pmpAllows_congr hcount hcfg haddr]
  exact h mode addr len kind hwrap hcovers

/-- **The memo's invariant.** The configuration is `k` generations on from the memo's own,
no more than `n` writes have fallen since, and at its own generation the memo is exact. -/
structure Memo.Inv (m : Memo) (n : Nat) : Prop where
  moved : ∃ k ≤ n, m.csrs.pmpGen = m.cache.generation + BitVec.ofNat 64 k ∧
    (k = 0 → m.cache.Exact m.csrs)

variable {m : Memo}

theorem Memo.Inv.refresh {n : Nat} (h : m.Inv n) (hn : n < 2 ^ 64) :
    (m.cache.refresh m.csrs).generation = m.csrs.pmpGen ∧
      (m.cache.refresh m.csrs).Exact m.csrs := by
  unfold PmpCache.refresh
  split
  · exact ⟨rfl, PmpCache.exact_empty _ _⟩
  · rename_i heq
    have hgen : m.cache.generation = m.csrs.pmpGen := by
      by_contra hne
      exact heq hne
    obtain ⟨k, hk, hmoved, hexact⟩ := h.moved
    refine ⟨hgen, hexact ?_⟩
    -- fewer generations on than the counter has values, so none
    have hsum := congrArg BitVec.toNat (hmoved.symm.trans hgen.symm)
    rw [BitVec.toNat_add, BitVec.toNat_ofNat] at hsum
    omega

theorem PmpCache.allows_exact (addr len : U64) (kind : Access) (mode : Priv)
    (hwrap : ¬ Csrs.lastOf addr len < addr) (hgen : (cache.refresh c).generation = c.pmpGen)
    (hexact : (cache.refresh c).Exact c) :
    (cache.allows c addr len kind mode).1 = c.pmpAllows addr len kind mode ∧
      (cache.allows c addr len kind mode).2.generation = c.pmpGen ∧
      (cache.allows c addr len kind mode).2.Exact c := by
  have hspan := c.exact_pmpSpan addr mode
  have hupdated : PmpCache.Exact { cache.refresh c with
      spans := Function.update (cache.refresh c).spans mode (c.pmpSpan addr mode) } c := by
    intro mode'
    by_cases hmode : mode' = mode
    · subst hmode
      simp only [Function.update_self]
      exact hspan
    · simp only [Function.update_of_ne hmode]
      exact hexact mode'
  unfold PmpCache.allows
  dsimp only
  rw [if_neg hwrap]
  split
  · rename_i hcovers
    exact ⟨hexact mode addr len kind hwrap hcovers, hgen, hexact⟩
  split
  · rename_i hcovers
    exact ⟨hspan addr len kind hwrap hcovers, hgen, hupdated⟩
  · exact ⟨rfl, hgen, hupdated⟩

theorem PmpCache.allows_wrapping {addr len : U64} {kind : Access} {mode : Priv}
    (hwrap : Csrs.lastOf addr len < addr) :
    cache.allows c addr len kind mode = (c.pmpAllows addr len kind mode, cache) := by
  exact if_pos hwrap

theorem Memo.on_query {addr len : U64} {kind : Access} {mode : Priv}
    (hwrap : ¬ Csrs.lastOf addr len < addr)
    (hgen : (m.cache.refresh m.csrs).generation = m.csrs.pmpGen)
    (hexact : (m.cache.refresh m.csrs).Exact m.csrs) :
    (∀ a l k md, PmpOp.query addr len kind mode = .query a l k md →
      (m.cache.allows m.csrs a l k md).1 = m.csrs.pmpAllows a l k md) ∧
    (m.on (.query addr len kind mode)).Inv 0 := by
  obtain ⟨hanswer, hgen', hexact'⟩ := PmpCache.allows_exact addr len kind mode hwrap hgen hexact
  refine ⟨fun a l k md hop => ?_, 0, Nat.le_refl 0, ?_, fun _ => hexact'⟩
  · cases hop
    exact hanswer
  · rw [BitVec.add_zero]
    exact hgen'.symm

theorem Memo.Inv.on {n : Nat} (h : m.Inv n) {op : PmpOp} (hn : op.isPlainQuery = true → n < 2 ^ 64)
    :
    (∀ addr len kind mode, op = .query addr len kind mode →
      (m.cache.allows m.csrs addr len kind mode).1 = m.csrs.pmpAllows addr len kind mode) ∧
    (m.on op).Inv (if op.isPlainQuery then 0 else if op.isPmpWrite then n + 1 else n) := by
  cases op with
  | setPriv mode =>
    refine ⟨fun _ _ _ _ hop => (by cases hop), ?_⟩
    obtain ⟨k, hk, hmoved, hexact⟩ := h.moved
    exact ⟨k, hk, hmoved, fun hzero => (hexact hzero).congr rfl rfl rfl⟩
  | query addr len kind mode =>
    by_cases hwrap : Csrs.lastOf addr len < addr
    · have hplain : (PmpOp.query addr len kind mode).isPlainQuery = false := by
        simp only [PmpOp.isPlainQuery, hwrap, decide_true, Bool.not_true]
      have hon : m.on (.query addr len kind mode) = m := by
        simp only [Memo.on, PmpCache.allows_wrapping hwrap]
      refine ⟨fun a l k md hop => ?_, ?_⟩
      · cases hop
        rw [PmpCache.allows_wrapping hwrap]
      · rw [hon, hplain]
        exact h
    · have hplain : (PmpOp.query addr len kind mode).isPlainQuery = true := by
        simp only [PmpOp.isPlainQuery, hwrap, decide_false, Bool.not_false]
      obtain ⟨hgen, hexact⟩ := h.refresh (hn hplain)
      rw [hplain, if_pos rfl]
      exact Memo.on_query hwrap hgen hexact
  | write num value pending =>
    refine ⟨fun _ _ _ _ hop => (by cases hop), ?_⟩
    obtain ⟨k, hk, hmoved, hexact⟩ := h.moved
    have hle : n ≤ if (PmpOp.write num value pending).isPmpWrite then n + 1 else n := by
      split <;> omega
    unfold Memo.on
    dsimp only
    split
    · rename_i c' updated hwrite
      rcases Csrs.write_cases hwrite with hframe | ⟨-, rfl⟩ | ⟨-, -, rfl⟩ | ⟨hnum, hpmp⟩
      · refine ⟨k, Nat.le_trans hk hle, hframe.pmpGen.trans hmoved, fun hzero => ?_⟩
        exact (hexact hzero).congr hframe.pmpCount hframe.pmpcfg hframe.pmpaddr
      · exact ⟨k, Nat.le_trans hk hle, hmoved, fun hzero => (hexact hzero).congr rfl rfl rfl⟩
      · exact ⟨k, Nat.le_trans hk hle, hmoved, fun hzero => (hexact hzero).congr rfl rfl rfl⟩
      · rcases hpmp.moved with rfl | hbump
        · exact ⟨k, Nat.le_trans hk hle, hmoved, hexact⟩
        · have hwriteop : (PmpOp.write num value pending).isPmpWrite = true := decide_eq_true hnum
          rw [hwriteop, if_pos rfl]
          refine ⟨k + 1, Nat.succ_le_succ hk, ?_, fun hzero => absurd hzero (Nat.succ_ne_zero k)⟩
          rw [hbump, hmoved, BitVec.add_assoc, BitVec.ofNat_add]
          rfl
    · exact ⟨k, Nat.le_trans hk hle, hmoved, hexact⟩

theorem Memo.Inv.exact {n : Nat} (h : m.Inv n) {ops : List PmpOp} (hops : Spaced n ops) :
    m.Exact ops := by
  induction ops generalizing m n with
  | nil => trivial
  | cons op ops ih =>
    unfold Spaced at hops
    cases hquery : op.isPlainQuery with
    | true =>
      rw [if_pos hquery] at hops
      obtain ⟨hanswer, hinv⟩ := h.on fun _ => hops.1
      rw [if_pos hquery] at hinv
      exact ⟨hanswer, ih hinv hops.2⟩
    | false =>
      have hno : ¬ op.isPlainQuery = true := by rw [hquery]; exact Bool.false_ne_true
      rw [if_neg hno] at hops
      obtain ⟨hanswer, hinv⟩ := h.on fun hyes => absurd hyes hno
      rw [if_neg hno] at hinv
      refine ⟨hanswer, ih hinv ?_⟩
      split at hops
      · rename_i hwrite
        rwa [if_pos hwrite]
      · rename_i hwrite
        rwa [if_neg hwrite]

theorem Memo.on_cache {op : PmpOp} (h : op.isPlainQuery = false) : (m.on op).cache = m.cache := by
  cases op with
  | setPriv mode => rfl
  | write num value pending =>
    unfold Memo.on
    dsimp only
    split <;> rfl
  | query addr len kind mode =>
    have hwrap : Csrs.lastOf addr len < addr := by simpa [PmpOp.isPlainQuery] using h
    simp only [Memo.on, PmpCache.allows_wrapping hwrap]

theorem Memo.exact_of_empty (hempty : ∀ c, m.cache.Exact c) {ops : List PmpOp}
    (hops : Spaced 0 (ops.dropWhile fun op => !op.isPlainQuery)) : m.Exact ops := by
  induction ops generalizing m with
  | nil => trivial
  | cons op ops ih =>
    cases hquery : op.isPlainQuery with
    | false =>
      rw [List.dropWhile_cons, hquery] at hops
      refine ⟨fun addr len kind mode hop => ?_, ih (m.on_cache hquery ▸ hempty) hops⟩
      rw [hop] at hquery
      rw [PmpCache.allows_wrapping (by simpa [PmpOp.isPlainQuery] using hquery)]
    | true =>
      rw [List.dropWhile_cons, hquery] at hops
      simp only [Bool.not_true, Bool.false_eq_true, if_false] at hops
      unfold Spaced at hops
      rw [if_pos hquery] at hops
      obtain ⟨addr, len, kind, mode, rfl⟩ : ∃ addr len kind mode, op = .query addr len kind mode := by
        cases op with
        | query addr len kind mode => exact ⟨addr, len, kind, mode, rfl⟩
        | write _ _ _ => cases hquery
        | setPriv _ => cases hquery
      have hwrap : ¬ Csrs.lastOf addr len < addr := by simpa [PmpOp.isPlainQuery] using hquery
      have hrefresh : (m.cache.refresh m.csrs).generation = m.csrs.pmpGen ∧
          (m.cache.refresh m.csrs).Exact m.csrs := by
        unfold PmpCache.refresh
        split
        · exact ⟨rfl, PmpCache.exact_empty _ _⟩
        · exact ⟨not_not.mp ‹_›, hempty _⟩
      obtain ⟨hanswer, hinv⟩ := Memo.on_query hwrap hrefresh.1 hrefresh.2
      exact ⟨hanswer, hinv.exact hops.2⟩

/-- **The memo is the scan**, while the generation has not come round between two questions, from
the first on; **and a uniform page is permitted throughout.** -/
theorem pmp_memo_exact (xlen : Xlen) (ext : Extensions) (hartid : U64) (pmpCount : Nat)
    (ops : List PmpOp) (hops : Spaced 0 (ops.dropWhile fun op => !op.isPlainQuery)) :
    (Memo.reset xlen ext hartid pmpCount).Exact ops ∧
      ∀ (c : Csrs) (page : U64) (kind : Access) (mode : Priv),
        c.pmpPageUniform page kind mode = true → ∀ addr len : U64, 0 < len.toNat →
        page.toNat ≤ addr.toNat → addr.toNat + len.toNat ≤ page.toNat + 4096 →
        c.pmpAllows addr len kind mode = true :=
  ⟨Memo.exact_of_empty (fun c => PmpCache.exact_empty c _) hops,
    fun _ _ _ _ huniform _ _ hlen hlo hhi => Csrs.pmpAllows_of_uniform huniform hlen hlo hhi⟩

def Memo.run (m : Memo) (ops : List PmpOp) : Memo := ops.foldl Memo.on m

theorem Memo.Exact.after {ops ops' : List PmpOp} (h : m.Exact (ops ++ ops')) :
    (m.run ops).Exact ops' := by
  induction ops generalizing m with
  | nil => exact h
  | cons op ops ih => exact ih h.2

def ask : PmpOp := .query 0 4 .load .user

def fillWrite : PmpOp := .write Num.pmpaddr0 (BitVec.allOnes 64) 0

def grantWrite : PmpOp := .write Num.pmpcfg0 0x1f 0

def granted : Csrs := ((Memo.reset .rv64 .gc 0 16).run [fillWrite, grantWrite]).csrs

/-- The state while entry 0's address is being written over and over. -/
structure Filling (cache : PmpCache) (m : Memo) (n : Nat) : Prop where
  cache : m.cache = cache
  mode : m.csrs.privMode = .machine
  xlen : m.csrs.xlen = .rv64
  count : m.csrs.pmpCount = 16
  cfg : m.csrs.pmpcfg = fun _ => 0
  gen : m.csrs.pmpGen = 1 + BitVec.ofNat 64 n
  addr : Function.update m.csrs.pmpaddr 0 0x003fffffffffffff =
    Function.update (fun _ => 0) 0 0x003fffffffffffff
  filled : 0 < n → m.csrs.pmpaddr = Function.update (fun _ => 0) 0 0x003fffffffffffff

theorem Csrs.write_pmp (hmode : c.privMode = .machine) (hxlen : c.xlen = .rv64) {num : Nat}
    (hlo : Num.pmpcfg0 ≤ num) (hhi : num < Num.tselect) (value pending : U64) :
    c.write num value pending = (c.writePmp num value).map (·, none) := by
  have hreach : c.accessible num true = true := by
    unfold Csrs.accessible
    rw [hmode]
    unfold Num.tselect at hhi
    have hwritable : num / 2 ^ 10 % 4 ≠ 3 := by omega
    have hrank : num / 2 ^ 8 % 4 ≤ 3 := by omega
    have hbits : Priv.machine.bits.toNat = 3 := rfl
    rw [hbits, decide_eq_true hrank]
    simp only [Bool.true_and, Bool.and_true, Bool.not_eq_eq_eq_not, Bool.not_true,
      beq_eq_false_iff_ne]
    exact hwritable
  have hmask : value &&& c.xmask = value := by
    unfold Csrs.xmask
    rw [hxlen]
    exact BitVec.and_allOnes
  unfold Csrs.write
  rw [hreach, hmask]
  unfold Num.sstatus Num.mstatus
  unfold Num.pmpcfg0 at hlo ⊢
  rw [if_neg (by decide), if_neg (by omega), if_neg (by omega), if_neg (by omega), if_pos hhi]

theorem Filling.fill {n : Nat} (h : Filling cache m n) :
    Filling cache (m.on fillWrite) (n + 1) := by
  have hopen : ¬ m.csrs.pmpaddrLocked 0 := by
    unfold Csrs.pmpaddrLocked
    rw [h.cfg]
    intro hlocked
    rcases hlocked with hlocked | ⟨-, hlocked, -⟩
    · exact hlocked rfl
    · exact hlocked rfl
  have hon : m.on fillWrite = { m with
      csrs := Csrs.bumpPmp { m.csrs with
        pmpaddr := Function.update m.csrs.pmpaddr 0 0x003fffffffffffff } } := by
    have hwrite : m.csrs.write Num.pmpaddr0 (BitVec.allOnes 64) 0 = some (Csrs.bumpPmp
        { m.csrs with pmpaddr := Function.update m.csrs.pmpaddr 0 0x003fffffffffffff }, none) := by
      rw [Csrs.write_pmp h.mode h.xlen (by decide) (by decide)]
      unfold Csrs.writePmp Csrs.writePmpaddr
      rw [if_neg (by decide), if_pos (by decide), if_pos ⟨by rw [h.count]; decide, hopen⟩]
      rfl
    simp only [Memo.on, fillWrite, hwrite]
  rw [hon]
  refine ⟨h.cache, h.mode, h.xlen, h.count, h.cfg, ?_, ?_, fun _ => h.addr⟩
  · have hgen := congrArg (· + 1) h.gen
    rw [BitVec.ofNat_add, ← BitVec.add_assoc]
    exact hgen
  · dsimp only [Csrs.bumpPmp, Csrs.bumpTranslation]
    rw [Function.update_idem, h.addr]

theorem Filling.run (h : Filling cache m 0) (n : Nat) :
    Filling cache (m.run (List.replicate n fillWrite)) n := by
  induction n with
  | zero => exact h
  | succ n ih =>
    rw [List.replicate_succ', Memo.run, List.foldl_append]
    exact ih.fill

theorem Filling.grant {n : Nat} (h : Filling cache m n) (hn : 0 < n) :
    (m.on grantWrite).cache = cache ∧ (m.on grantWrite).csrs.pmpGen = 1 + BitVec.ofNat 64 (n + 1) ∧
      ∀ addr len kind mode, (m.on grantWrite).csrs.pmpAllows addr len kind mode =
        granted.pmpAllows addr len kind mode := by
  have hwrite : m.csrs.write Num.pmpcfg0 0x1f 0 =
      (m.csrs.writePmpcfg 0 0x1f).map fun c => (c.bumpPmp, none) := by
    rw [Csrs.write_pmp h.mode h.xlen (by decide) (by decide)]
    unfold Csrs.writePmp
    rw [if_pos (by decide), Option.map_map]
    rfl
  have hspan : m.csrs.pmpcfgSpan 0 = some (8, 0) := by
    unfold Csrs.pmpcfgSpan
    rw [h.xlen]
    rfl
  unfold Csrs.writePmpcfg at hwrite
  rw [hspan] at hwrite
  simp only [Memo.on, grantWrite, hwrite, Option.map_some]
  refine ⟨h.cache, ?_, fun addr len kind mode => ?_⟩
  · have hgen := congrArg (· + 1) h.gen
    rw [BitVec.ofNat_add, ← BitVec.add_assoc]
    exact hgen
  · refine Csrs.pmpAllows_congr h.count ?_ (h.filled hn) _ _ _ _
    rw [h.cfg, h.count]
    rfl

/-- Asked before and after a grant, from machine mode and from below. -/
theorem pmp_memo_exact_granted :
    Spaced 0 [ask, fillWrite, grantWrite, .setPriv .user, ask] ∧
      (Memo.reset .rv64 .gc 0 16).Exact [ask, fillWrite, grantWrite, .setPriv .user, ask] ∧
      granted.pmpAllows 0x1ff8 8 .store .user = true := by
  have hspaced : Spaced 0 [ask, fillWrite, grantWrite, .setPriv .user, ask] := by decide
  obtain ⟨hexact, huniform⟩ := pmp_memo_exact .rv64 .gc 0 16
    [ask, fillWrite, grantWrite, .setPriv .user, ask] hspaced
  exact ⟨hspaced, hexact, huniform granted 0x1000 .store .user (by decide +kernel) 0x1ff8 8 (by decide)
    (by decide) (by decide)⟩

/-- **2^64 writes on, the memo answers for the configuration before them.** -/
theorem stale_span : ¬ ∀ ops, (Memo.reset .rv64 .gc 0 16).Exact ops := by
  intro hall
  obtain ⟨n, hn⟩ : ∃ n, n = 2 ^ 64 - 1 := ⟨_, rfl⟩
  obtain ⟨m, hm⟩ : ∃ m, m = (Memo.reset .rv64 .gc 0 16).on ask := ⟨_, rfl⟩
  have hstart : Filling m.cache m 0 := by
    rw [hm]
    exact ⟨rfl, rfl, rfl, rfl, rfl, rfl, rfl, nofun⟩
  obtain ⟨hcache, hgen, hscan⟩ := (hstart.run n).grant (by omega)
  -- the second question, after the writes
  have hlast : (((m.run (List.replicate n fillWrite)).on grantWrite).cache.allows
      ((m.run (List.replicate n fillWrite)).on grantWrite).csrs 0 4 .load .user).1 =
      ((m.run (List.replicate n fillWrite)).on grantWrite).csrs.pmpAllows 0 4 .load .user := by
    have hexact := (hall (ask :: (List.replicate n fillWrite ++ [grantWrite, ask]))).2
    rw [← hm] at hexact
    exact (hexact.after).2.1 0 4 .load .user rfl
  have hround : (1 : U64) + BitVec.ofNat 64 (n + 1) = 1 := by
    rw [hn]
    rfl
  have hkept : m.cache.refresh ((m.run (List.replicate n fillWrite)).on grantWrite).csrs =
      m.cache := by
    unfold PmpCache.refresh
    rw [hgen, hround, hm]
    exact if_neg fun h => h rfl
  have hstale : (m.cache.spans .user).covers 0 (Csrs.lastOf 0 4) = true ∧
      (m.cache.spans .user).permits .load = false := by
    rw [hm]
    exact ⟨by decide, by decide⟩
  rw [hscan, hcache] at hlast
  unfold PmpCache.allows at hlast
  have hgranted : granted.pmpAllows 0 4 .load .user = true := by decide +kernel
  rw [if_neg (by decide), hkept, if_pos hstale.1, hstale.2, hgranted] at hlast
  exact Bool.false_ne_true hlast

end Rsemu.Riscv
