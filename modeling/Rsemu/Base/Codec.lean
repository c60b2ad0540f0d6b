import Mathlib.Data.List.Basic
import Mathlib.Algebra.Order.Ring.Nat

/-!
# Reading back what was written

Readers over a list of bytes: a reader takes what it wants from the front and leaves the rest,
or fails. `Reads p bs a` says that `p` reads `a` from the encoding `bs`, whatever follows it.
Encodings are then read back by composing: a reader followed by another reads the two
encodings one after the other (`Reads.bind`), and a loop reads the concatenation of what its
steps read (`Reads.times`).

`Performs` runs a reader with a note of every read it carries out.
-/

namespace Rsemu.Codec

/-- A byte string. -/
abbrev Bytes := List UInt8

def leBytes : Nat → Nat → Bytes
  | 0, _ => []
  | n + 1, v => UInt8.ofNat v :: leBytes n (v / 256)

def fromLe : Bytes → Nat
  | [] => 0
  | b :: bs => b.toNat + 256 * fromLe bs

theorem length_leBytes (n v : Nat) : (leBytes n v).length = n := by
  induction n generalizing v with
  | zero => rfl
  | succ n ih => rw [leBytes, List.length_cons, ih]

theorem fromLe_leBytes {n v : Nat} (h : v < 256 ^ n) : fromLe (leBytes n v) = v := by
  induction n generalizing v with
  | zero =>
    exact (Nat.lt_one_iff.mp h).symm
  | succ n ih =>
    have hdiv : v / 256 < 256 ^ n := Nat.div_lt_of_lt_mul (by omega)
    rw [leBytes, fromLe, ih hdiv, UInt8.toNat_ofNat']
    omega

/-- What a reader takes from the front of the input, or its error. -/
abbrev Reader (ε α : Type) := StateT Bytes (Except ε) α

section

variable {ε α β σ : Type}

def take (short : Nat → Nat → ε) (n : Nat) : Reader ε Bytes := fun src =>
  if n ≤ src.length then .ok (src.take n, src.drop n) else .error (short n src.length)

def readLe (short : Nat → Nat → ε) (n : Nat) : Reader ε Nat := do
  let bytes ← take short n
  pure (fromLe bytes)

def remaining : Reader ε Nat := fun src => .ok (src.length, src)

def fail (e : ε) : Reader ε α := fun _ => .error e

def refuse (bad : Bool) (e : ε) : Reader ε Unit := if bad then fail e else pure ()

def mapError {ε' : Type} (f : ε → ε') (p : Reader ε α) : Reader ε' α := fun src =>
  (p src).mapError f

def times (step : σ → Reader ε σ) : Nat → σ → Reader ε σ
  | 0, s => pure s
  | n + 1, s => do
    let s ← step s
    times step n s

/-- Read one after the other until nothing is left, at most so many. -/
def toEnd (p : Reader ε α) : Nat → Reader ε (List α)
  | 0 => pure []
  | most + 1 => do
    let left ← remaining
    if left = 0 then pure []
    else do
      let a ← p
      let as ← toEnd p most
      pure (a :: as)

def within (short : Nat → Nat → ε) (extra : ε) (n : Nat) (p : Reader ε α) : Reader ε α := do
  let body ← take short n
  match p body with
  | .error e => fail e
  | .ok (a, rest) => if rest.isEmpty then pure a else fail extra

/-- **`p` reads `a` from `bs`, whatever follows.** -/
def Reads (p : Reader ε α) (bs : Bytes) (a : α) : Prop :=
  ∀ rest, p (bs ++ rest) = .ok (a, rest)

theorem Reads.pure (a : α) : Reads (Pure.pure a : Reader ε α) [] a := fun _ => rfl

variable {a : α} {bs : Bytes} {p : Reader ε α}

theorem Reads.bind {f : α → Reader ε β} {bs' : Bytes} {b : β} (hp : Reads p bs a)
    (hf : Reads (f a) bs' b) : Reads (p >>= f) (bs ++ bs') b := by
  intro rest
  show StateT.bind p f _ = _
  simp only [StateT.bind, List.append_assoc, hp (bs' ++ rest)]
  exact hf rest

theorem run_bind {src rest : Bytes} (hp : p src = .ok (a, rest)) (f : α → Reader ε β) :
    (p >>= f) src = f a rest := by
  show StateT.bind p f _ = _
  simp only [StateT.bind, hp]
  rfl

theorem Reads.run_bind (hp : Reads p bs a) (f : α → Reader ε β) (rest : Bytes) :
    (p >>= f) (bs ++ rest) = f a rest :=
  Codec.run_bind (hp rest) f

theorem Reads.skip {f : α → Reader ε β} {b : β} (hp : Reads p [] a) (hf : Reads (f a) bs b) :
    Reads (p >>= f) bs b :=
  hp.bind hf

theorem Reads.map (hp : Reads p bs a) (f : α → β) :
    Reads (p >>= fun x => Pure.pure (f x)) bs (f a) := by
  have h : Reads (p >>= fun x => Pure.pure (f x)) (bs ++ []) (f a) :=
    Reads.bind hp (Reads.pure (f a))
  rwa [List.append_nil] at h

theorem Reads.mapError {ε' : Type} (h : Reads p bs a) (f : ε → ε') :
    Reads (Codec.mapError f p) bs a := by
  intro rest
  unfold Codec.mapError
  rw [h rest]
  rfl

theorem reads_refuse (e : ε) : Reads (refuse false e) [] () := Reads.pure ()

theorem Reads.passed {bad : Bool} {e : ε} {f : Unit → Reader ε β} {b : β} (h : bad = false)
    (hf : Reads (f ()) bs b) : Reads (refuse bad e >>= f) bs b := by
  rw [h]
  exact (reads_refuse e).skip hf

theorem reads_take (short : Nat → Nat → ε) (bs : Bytes) : Reads (take short bs.length) bs bs := by
  intro rest
  unfold take
  rw [if_pos (by simp), List.take_left, List.drop_left]

theorem reads_readLe (short : Nat → Nat → ε) {n v : Nat} (h : v < 256 ^ n) :
    Reads (readLe short n) (leBytes n v) v := by
  have ht := reads_take short (leBytes n v)
  rw [length_leBytes] at ht
  have hm := ht.map fromLe
  rwa [fromLe_leBytes h] at hm

theorem Reads.times {step : σ → Reader ε σ} {encode : α → Bytes} {items : List α} {state : Nat → σ}
    (h : ∀ i x, items[i]? = some x → Reads (step (state i)) (encode x) (state (i + 1))) :
    Reads (Codec.times step items.length (state 0)) (items.flatMap encode) (state items.length) := by
  induction items generalizing state with
  | nil => exact Reads.pure _
  | cons x xs ih =>
    refine Reads.bind (h 0 x rfl) ?_
    exact @ih (fun i => state (i + 1)) fun i y hy => h (i + 1) y hy

theorem Reads.within (h : p bs = .ok (a, [])) (short : Nat → Nat → ε) (extra : ε) :
    Reads (Codec.within short extra bs.length p) bs a := by
  have hread : Reads (Codec.within short extra bs.length p) (bs ++ []) a := by
    refine Reads.bind (reads_take short bs) ?_
    intro rest
    rw [h]
    rfl
  rwa [List.append_nil] at hread

theorem toEnd_flatMap {p : Reader ε β} {encode : α → Bytes} {f : α → β} {items : List α}
    (hread : ∀ x ∈ items, Reads p (encode x) (f x)) (hne : ∀ x ∈ items, encode x ≠ [])
    {most : Nat} (hmost : items.length ≤ most) :
    toEnd p most (items.flatMap encode) = .ok (items.map f, []) := by
  induction items generalizing most with
  | nil => cases most <;> rfl
  | cons x xs ih =>
    cases most with
    | zero => exact absurd hmost (Nat.not_succ_le_zero _)
    | succ most =>
      have hx : encode x ++ xs.flatMap encode ≠ [] := fun h =>
        hne x List.mem_cons_self (List.append_eq_nil_iff.mp h).1
      have hleft : (encode x ++ xs.flatMap encode).length ≠ 0 := fun h =>
        hx (List.length_eq_zero_iff.mp h)
      have htail := ih (fun y hy => hread y (List.mem_cons_of_mem x hy))
        (fun y hy => hne y (List.mem_cons_of_mem x hy)) (Nat.le_of_succ_le_succ hmost)
      rw [List.flatMap_cons]
      change (if _ = 0 then _ else _ : Reader ε (List β)) _ = _
      rw [if_neg hleft, (hread x List.mem_cons_self).run_bind, run_bind htail]
      rfl

theorem length_le_flatMap {encode : α → Bytes} {items : List α}
    (hne : ∀ x ∈ items, encode x ≠ []) : items.length ≤ (items.flatMap encode).length := by
  induction items with
  | nil => exact Nat.le_refl _
  | cons x xs ih =>
    have hx := List.length_pos_of_ne_nil (hne x List.mem_cons_self)
    have htail := ih fun y hy => hne y (List.mem_cons_of_mem x hy)
    rw [List.flatMap_cons, List.length_append, List.length_cons]
    omega

end

section

variable {ε α β : Type}

theorem leBytes_fromLe (bs : Bytes) : leBytes bs.length (fromLe bs) = bs := by
  induction bs with
  | nil => rfl
  | cons b bs ih =>
    have hb := b.toNat_lt
    have hlow : UInt8.ofNat (b.toNat + 256 * fromLe bs) = b := by
      apply UInt8.toNat_inj.mp
      rw [UInt8.toNat_ofNat']
      omega
    have hhigh : (b.toNat + 256 * fromLe bs) / 256 = fromLe bs := by omega
    rw [List.length_cons, fromLe, leBytes, hlow, hhigh, ih]

theorem fromLe_lt (bs : Bytes) : fromLe bs < 256 ^ bs.length := by
  induction bs with
  | nil => exact Nat.one_pos
  | cons b bs ih =>
    have hb := b.toNat_lt
    rw [List.length_cons, fromLe, Nat.pow_succ]
    omega

theorem mapError_take {ε' : Type} (f : ε → ε') (short : Nat → Nat → ε) (n : Nat) :
    mapError f (take short n) = take (fun need left => f (short need left)) n := by
  funext src
  unfold mapError take
  split <;> rfl

theorem mapError_bind {ε' : Type} (f : ε → ε') (p : Reader ε α) (g : α → Reader ε β) :
    mapError f (p >>= g) = mapError f p >>= fun a => mapError f (g a) := by
  funext src
  change (StateT.bind p g src).mapError f = StateT.bind (mapError f p) _ src
  unfold StateT.bind mapError
  cases p src <;> rfl

variable {rest src : Bytes}

theorem bind_ok {p : Reader ε α} {f : α → Reader ε β} {b : β} (h : (p >>= f) src = .ok (b, rest)) :
    ∃ a mid, p src = .ok (a, mid) ∧ f a mid = .ok (b, rest) := by
  change StateT.bind p f src = _ at h
  unfold StateT.bind at h
  cases hp : p src with
  | error e =>
    rw [hp] at h
    exact absurd h (by simp [bind, Except.bind])
  | ok am =>
    rw [hp] at h
    exact ⟨am.1, am.2, rfl, h⟩

theorem pure_ok {a b : α} (h : (pure a : Reader ε α) src = .ok (b, rest)) : b = a ∧ rest = src := by
  cases h
  exact ⟨rfl, rfl⟩

theorem take_ok {short : Nat → Nat → ε} {n : Nat} {bs : Bytes}
    (h : take short n src = .ok (bs, rest)) : src = bs ++ rest ∧ bs.length = n := by
  unfold take at h
  split at h
  · rename_i hn
    cases h
    exact ⟨(List.take_append_drop n src).symm, List.length_take_of_le hn⟩
  · cases h

theorem readLe_ok {short : Nat → Nat → ε} {n v : Nat} (h : readLe short n src = .ok (v, rest)) :
    src = leBytes n v ++ rest ∧ v < 256 ^ n := by
  obtain ⟨bs, mid, htake, hpure⟩ := bind_ok h
  obtain ⟨rfl, rfl⟩ := pure_ok hpure
  obtain ⟨rfl, rfl⟩ := take_ok htake
  exact ⟨by rw [leBytes_fromLe], fromLe_lt bs⟩

theorem refuse_ok {bad : Bool} {e : ε} {u : Unit} (h : refuse bad e src = .ok (u, rest)) :
    bad = false ∧ rest = src := by
  unfold refuse at h
  split at h
  · cases h
  · rename_i hbad
    exact ⟨by simpa using hbad, (pure_ok h).2⟩

theorem mapError_ok {ε' : Type} {f : ε → ε'} {p : Reader ε α} {a : α}
    (h : mapError f p src = .ok (a, rest)) : p src = .ok (a, rest) := by
  unfold mapError at h
  cases hp : p src with
  | error e =>
    rw [hp] at h
    cases h
  | ok ar =>
    rw [hp] at h
    exact congrArg Except.ok (Except.ok.inj h)

theorem run_bind_congr {p : Reader ε α} {f g : α → Reader ε β}
    (h : ∀ a mid, p src = .ok (a, mid) → f a mid = g a mid) : (p >>= f) src = (p >>= g) src := by
  change StateT.bind p f src = StateT.bind p g src
  unfold StateT.bind
  cases hp : p src with
  | error e => rfl
  | ok am => exact h am.1 am.2 hp

theorem remaining_ok {n : Nat} (h : (remaining : Reader ε Nat) src = .ok (n, rest)) :
    n = src.length ∧ rest = src := by
  cases h
  exact ⟨rfl, rfl⟩

end

section

variable {ε : Type}

/-- A run of a reader: the bytes it takes, of how many, and what comes of it. -/
inductive Performs : {α : Type} → Reader ε α → Bytes → List (Nat × Nat) →
    Except ε (α × Bytes) → Prop
  | pure {α : Type} (a : α) (src : Bytes) : Performs (Pure.pure a) src [] (.ok (a, src))
  | fail {α : Type} (e : ε) (src : Bytes) : Performs (α := α) (fail e) src [] (.error e)
  | remaining (src : Bytes) : Performs remaining src [] (.ok (src.length, src))
  | took {short : Nat → Nat → ε} {n : Nat} {src : Bytes} (h : n ≤ src.length) :
      Performs (take short n) src [(n, src.length)] (.ok (src.take n, src.drop n))
  | short {short : Nat → Nat → ε} {n : Nat} {src : Bytes} (h : src.length < n) :
      Performs (take short n) src [] (.error (short n src.length))
  | bind {α β : Type} {p : Reader ε α} {f : α → Reader ε β} {src mid : Bytes} {a : α}
      {reads reads' : List (Nat × Nat)} {r : Except ε (β × Bytes)}
      (hp : Performs p src reads (.ok (a, mid))) (hf : Performs (f a) mid reads' r) :
      Performs (p >>= f) src (reads ++ reads') r
  | bindError {α β : Type} {p : Reader ε α} {f : α → Reader ε β} {src : Bytes} {e : ε}
      {reads : List (Nat × Nat)} (hp : Performs p src reads (.error e)) :
      Performs (p >>= f) src reads (.error e)

/-- Whatever the input, the reader is a list of bounded reads. -/
def Performing {α : Type} (p : Reader ε α) : Prop := ∀ src, ∃ reads r, Performs p src reads r

variable {α β : Type}

variable {reads : List (Nat × Nat)} {r : Except ε (α × Bytes)} {p : Reader ε α}

theorem Performs.result {src : Bytes} (h : Performs p src reads r) : p src = r := by
  induction h with
  | pure a src => rfl
  | fail e src => rfl
  | remaining src => rfl
  | took h => exact if_pos h
  | short h => exact if_neg (Nat.not_le.mpr h)
  | bind hp hf ihp ihf =>
    rename_i p f src mid a reads reads' r
    change StateT.bind p f src = r
    simp only [StateT.bind, ihp]
    exact ihf
  | bindError hp ihp =>
    rename_i p f src e reads
    change StateT.bind p f src = _
    simp only [StateT.bind, ihp]
    rfl

theorem Performs.checked {src : Bytes} (h : Performs p src reads r) :
    (∀ x ∈ reads, x.1 ≤ x.2) ∧ (reads.map (·.1)).sum ≤ src.length ∧
      ∀ a rest, r = .ok (a, rest) → (reads.map (·.1)).sum + rest.length = src.length := by
  induction h with
  | pure a src => exact ⟨by simp, by simp, fun b rest hb => by cases hb; simp⟩
  | fail e src => exact ⟨by simp, by simp, fun b rest hb => by cases hb⟩
  | remaining src => exact ⟨by simp, by simp, fun b rest hb => by cases hb; simp⟩
  | took h =>
    refine ⟨by simpa using h, by simpa using h, fun b rest hb => ?_⟩
    cases hb
    simp only [List.map_cons, List.map_nil, List.sum_cons, List.sum_nil, List.length_drop]
    omega
  | short h => exact ⟨by simp, by simp, fun b rest hb => by cases hb⟩
  | bind hp hf ihp ihf =>
    rename_i p f src mid a reads reads' r
    obtain ⟨hfit, -, hsum⟩ := ihp
    obtain ⟨hfit', hle', hsum'⟩ := ihf
    have hmid := hsum a mid rfl
    refine ⟨fun x hx => ?_, ?_, fun b rest hb => ?_⟩
    · rcases List.mem_append.mp hx with hx | hx
      · exact hfit x hx
      · exact hfit' x hx
    · rw [List.map_append, List.sum_append]
      omega
    · have := hsum' b rest hb
      rw [List.map_append, List.sum_append]
      omega
  | bindError hp ihp => exact ⟨ihp.1, ihp.2.1, fun b rest hb => by cases hb⟩

theorem performing_pure (a : α) : Performing (Pure.pure a : Reader ε α) :=
  fun src => ⟨[], _, .pure a src⟩

theorem performing_fail (e : ε) : Performing (fail e : Reader ε α) :=
  fun src => ⟨[], _, .fail e src⟩

theorem performing_remaining : Performing (remaining : Reader ε Nat) :=
  fun src => ⟨[], _, .remaining src⟩

theorem performing_take (short : Nat → Nat → ε) (n : Nat) : Performing (take short n) := by
  intro src
  by_cases h : n ≤ src.length
  · exact ⟨_, _, .took h⟩
  · exact ⟨_, _, .short (Nat.not_le.mp h)⟩

theorem Performing.bind {f : α → Reader ε β} (hp : Performing p) (hf : ∀ a, Performing (f a)) :
    Performing (p >>= f) := by
  intro src
  obtain ⟨reads, r, hr⟩ := hp src
  cases r with
  | error e => exact ⟨reads, _, .bindError hr⟩
  | ok am =>
    obtain ⟨reads', r', hr'⟩ := hf am.1 am.2
    exact ⟨reads ++ reads', r', .bind hr hr'⟩

theorem performing_refuse (bad : Bool) (e : ε) : Performing (refuse bad e) := by
  unfold refuse
  split
  · exact performing_fail e
  · exact performing_pure ()

theorem Performs.mapError {ε' : Type} {src : Bytes} (h : Performs p src reads r) (f : ε → ε') :
    Performs (Codec.mapError f p) src reads (r.mapError f) := by
  induction h with
  | pure a src => exact .pure a src
  | fail e src => exact .fail (f e) src
  | remaining src => exact .remaining src
  | took hn =>
    rw [mapError_take]
    exact .took hn
  | short hn =>
    rw [mapError_take]
    exact .short hn
  | @bind α β p g src mid a reads reads' r hp hg ihp ihg =>
    rw [mapError_bind]
    exact .bind ihp ihg
  | @bindError α β p g src e reads hp ihp =>
    rw [mapError_bind]
    exact .bindError ihp

theorem Performing.mapError {ε' : Type} (h : Performing p) (f : ε → ε') :
    Performing (Codec.mapError f p) := by
  intro src
  obtain ⟨reads, r, hr⟩ := h src
  exact ⟨reads, _, hr.mapError f⟩

theorem Performing.answers (h : Performing p) (src : Bytes) :
    ∃ reads, Performs p src reads (p src) ∧ ∀ x ∈ reads, x.1 ≤ x.2 := by
  obtain ⟨reads, r, hr⟩ := h src
  obtain rfl := hr.result
  exact ⟨reads, hr, hr.checked.1⟩

theorem performing_readLe (short : Nat → Nat → ε) (n : Nat) : Performing (readLe short n) :=
  (performing_take short n).bind fun _ => performing_pure _

theorem Performing.times {σ : Type} {step : σ → Reader ε σ} (h : ∀ s, Performing (step s)) :
    ∀ n s, Performing (Codec.times step n s) := by
  intro n
  induction n with
  | zero => exact fun s => performing_pure s
  | succ n ih => exact fun s => (h s).bind ih

end

end Rsemu.Codec
