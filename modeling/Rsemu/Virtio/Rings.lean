import Rsemu.Virtio.Board

/-!
# Two rings in memory

What a queue's rings hold while a driver offers heads and the device completes chains. Both
indices count for ever and are stored modulo 2^16; a slot is the count modulo the queue's
size. `Shown` ties the bytes to the two lists behind them, the heads offered and the chains
completed, and no more than a ring's worth of entries lies between the two.

`Mapped` is the assumption that a device's rings are memory that nothing else writes.
-/

namespace Rsemu.Virtio

open Rsemu.Codec (Bytes fromLe fromLe_leBytes fromLe_lt leBytes length_leBytes)

variable {ω : Type}

theorem get_congr {m m' : Nat → UInt8} {a n : Nat} (h : ∀ x, a ≤ x → x < a + n → m x = m' x) :
    get m a n = get m' a n := by
  refine List.map_congr_left fun x hx => ?_
  obtain ⟨hlo, hhi⟩ := List.mem_range'_1.mp hx
  exact h x hlo hhi

theorem put_of_apart {m : Nat → UInt8} {a x : Nat} {bs : Bytes}
    (h : x < a ∨ a + bs.length ≤ x) : put m a bs x = m x :=
  if_neg (by omega)

theorem get_put_of_apart (m : Nat → UInt8) {a n b : Nat} {bs : Bytes}
    (h : a + n ≤ b ∨ b + bs.length ≤ a) : get (put m b bs) a n = get m a n :=
  get_congr fun x hlo hhi => put_of_apart (by omega)

theorem get_put_le (m : Nat → UInt8) (a : Nat) {n v : Nat} (hv : v < 256 ^ n) :
    fromLe (get (put m a (leBytes n v)) a n) = v := by
  have h := get_put m a (leBytes n v)
  rw [length_leBytes] at h
  rw [h, fromLe_leBytes hv]

theorem get_put_two (m : Nat → UInt8) (a : Nat) {v : Nat} (hv : v < 2 ^ 16) :
    fromLe (get (put m a (leBytes 2 v)) a 2) = v :=
  get_put_le m a hv

theorem get_put_four (m : Nat → UInt8) (a : Nat) {v : Nat} (hv : v < 2 ^ 32) :
    fromLe (get (put m a (leBytes 4 v)) a 4) = v :=
  get_put_le m a hv

theorem put_congr {m m' : Nat → UInt8} {x : Nat} (a : Nat) (bs : Bytes) (h : m x = m' x) :
    put m a bs x = put m' a bs x := by
  unfold put
  rw [h]

theorem slot_ne {k n : Nat} (size : Nat) (hlt : k < n) (hroom : n < k + size) :
    k % size ≠ n % size := by
  intro heq
  have hdvd : size ∣ n - k := Nat.dvd_of_mod_eq_zero (Nat.sub_mod_eq_zero_of_mod_eq heq.symm)
  have := Nat.le_of_dvd (by omega) hdvd
  omega

/-- The address lies in the available ring. -/
def Layout.InAvail (l : Layout) (x : Nat) : Prop := l.avail ≤ x ∧ x < l.avail + 4 + l.ringLen * 2

/-- The address lies in the used ring. -/
def Layout.InUsed (l : Layout) (x : Nat) : Prop := l.used ≤ x ∧ x < l.used + 4 + l.ringLen * 8

/-- The address lies in either ring. -/
def Layout.InRings (l : Layout) (x : Nat) : Prop := l.InAvail x ∨ l.InUsed x

/-- **What the rings hold**, of the heads offered so far and of the chains completed. -/
structure Shown (layout : Layout) (offered : List Nat) (done : List (Nat × Nat))
    (bytes : Nat → UInt8) : Prop where
  /-- The driver's index is the number of heads offered. -/
  availIdx : fromLe (get bytes (layout.avail + 2) 2) = offered.length % 2 ^ 16
  /-- Every head that is not completed yet is in its slot. -/
  heads : ∀ k head, done.length ≤ k → offered[k]? = some head →
    fromLe (get bytes (layout.avail + 4 + k % layout.ringLen * 2) 2) = head
  /-- The device's index is the number of chains completed. -/
  usedIdx : fromLe (get bytes (layout.used + 2) 2) = done.length % 2 ^ 16
  /-- A ring's worth of completions is in its slots. -/
  entries : ∀ k entry, done.length ≤ k + layout.ringLen → done[k]? = some entry →
    fromLe (get bytes (layout.used + 4 + k % layout.ringLen * 8) 4) = entry.1 ∧
    fromLe (get bytes (layout.used + 8 + k % layout.ringLen * 8) 4) = entry.2

variable {layout : Layout} {offered : List Nat} {done : List (Nat × Nat)}
  {bytes bytes' : Nat → UInt8}

theorem slot_lt (l : Layout) (k : Nat) : k % l.ringLen < l.ringLen :=
  Nat.mod_lt _ (ringLen_pos l)

theorem Shown.congr (h : Shown layout offered done bytes)
    (hsame : ∀ x, layout.InRings x → bytes' x = bytes x) : Shown layout offered done bytes' := by
  have havail : ∀ a n, (∀ x, a ≤ x → x < a + n → layout.InAvail x) →
      get bytes' a n = get bytes a n := fun a n hin =>
    get_congr fun x hlo hhi => hsame x (.inl (hin x hlo hhi))
  have hused : ∀ a n, (∀ x, a ≤ x → x < a + n → layout.InUsed x) →
      get bytes' a n = get bytes a n := fun a n hin =>
    get_congr fun x hlo hhi => hsame x (.inr (hin x hlo hhi))
  refine ⟨?_, fun k head hk hhead => ?_, ?_, fun k entry hk hentry => ?_⟩
  · rw [havail _ _ fun x hlo hhi => ⟨by omega, by omega⟩]
    exact h.availIdx
  · have hslot := slot_lt layout k
    rw [havail _ _ fun x hlo hhi => ⟨by omega, by omega⟩]
    exact h.heads k head hk hhead
  · rw [hused _ _ fun x hlo hhi => ⟨by omega, by omega⟩]
    exact h.usedIdx
  · have hslot := slot_lt layout k
    rw [hused _ _ fun x hlo hhi => ⟨by omega, by omega⟩,
      hused _ _ fun x hlo hhi => ⟨by omega, by omega⟩]
    exact h.entries k entry hk hentry

def publishedBytes (layout : Layout) (n head written : Nat) (bytes : Nat → UInt8) :
    Nat → UInt8 :=
  put (put (put bytes (layout.used + 4 + n % layout.ringLen * 8) (leBytes 4 head))
    (layout.used + 8 + n % layout.ringLen * 8) (leBytes 4 written))
    (layout.used + 2) (leBytes 2 ((n + 1) % 2 ^ 16))

theorem publishedBytes_congr {n head written x : Nat} (h : bytes' x = bytes x) :
    publishedBytes layout n head written bytes' x = publishedBytes layout n head written bytes x :=
  put_congr _ _ (put_congr _ _ (put_congr _ _ h))

theorem Shown.publish {head written : Nat} (h : Shown layout offered done bytes)
    (hapart : ∀ x, layout.InAvail x → ¬ layout.InUsed x) (hhead : head < 2 ^ 16)
    (hwritten : written < 2 ^ 32) :
    Shown layout offered (done ++ [(head, written)])
      (publishedBytes layout done.length head written bytes) := by
  have hpos := ringLen_pos layout
  have hnew := slot_lt layout done.length
  -- nothing goes into the available ring
  have hkept : ∀ a n, (∀ x, a ≤ x → x < a + n → layout.InAvail x) →
      get (publishedBytes layout done.length head written bytes) a n = get bytes a n := by
    intro a n hin
    refine get_congr fun x hlo hhi => ?_
    have hout : ¬ (layout.used ≤ x ∧ x < layout.used + 4 + layout.ringLen * 8) :=
      hapart x (hin x hlo hhi)
    unfold publishedBytes
    rw [put_of_apart (by rw [length_leBytes]; omega), put_of_apart (by rw [length_leBytes]; omega),
      put_of_apart (by rw [length_leBytes]; omega)]
  refine ⟨?_, fun k head' hk hhead' => ?_, ?_, fun k entry hk hentry => ?_⟩
  · rw [hkept _ _ fun x hlo hhi => ⟨by omega, by omega⟩]
    exact h.availIdx
  · have hslot := slot_lt layout k
    rw [hkept _ _ fun x hlo hhi => ⟨by omega, by omega⟩]
    rw [List.length_append, List.length_singleton] at hk
    exact h.heads k head' (by omega) hhead'
  · rw [publishedBytes, get_put_two _ _ (Nat.mod_lt _ (by decide)), List.length_append,
      List.length_singleton]
  · have hslot := slot_lt layout k
    rw [List.length_append, List.length_singleton] at hk
    unfold publishedBytes
    rcases Nat.lt_trichotomy k done.length with hlt | rfl | hlt
    · -- an earlier completion is in another slot
      have hne := slot_ne layout.ringLen hlt (by omega)
      rw [List.getElem?_append_left hlt] at hentry
      have hold := h.entries k entry (by omega) hentry
      iterate 6 rw [get_put_of_apart _ (by rw [length_leBytes]; omega)]
      exact hold
    · rw [List.getElem?_append_right (Nat.le_refl _), Nat.sub_self] at hentry
      obtain rfl := Option.some.inj hentry
      refine ⟨?_, ?_⟩
      · rw [get_put_of_apart _ (by rw [length_leBytes]; omega),
          get_put_of_apart _ (by rw [length_leBytes]; omega), get_put_four _ _ (by omega)]
      · rw [get_put_of_apart _ (by rw [length_leBytes]; omega), get_put_four _ _ hwritten]
    · rw [List.getElem?_eq_none (by simp; omega)] at hentry
      exact absurd hentry (by simp)

def putHeads (layout : Layout) : Nat → List Nat → (Nat → UInt8) → Nat → UInt8
  | _, [], bytes => bytes
  | n, head :: rest, bytes => putHeads layout (n + 1) rest
      (put bytes (layout.avail + 4 + n % layout.ringLen * 2) (leBytes 2 head))

/-- The rings' bytes once a driver that has offered `n` heads has offered some more: each in
its slot, and then the index. -/
def offeredBytes (layout : Layout) (n : Nat) (heads : List Nat) (bytes : Nat → UInt8) :
    Nat → UInt8 :=
  put (putHeads layout n heads bytes) (layout.avail + 2)
    (leBytes 2 ((n + heads.length) % 2 ^ 16))

theorem putHeads_of_apart {x : Nat} (n : Nat) (heads : List Nat)
    (h : x < layout.avail + 4 ∨ layout.avail + 4 + layout.ringLen * 2 ≤ x) :
    putHeads layout n heads bytes x = bytes x := by
  induction heads generalizing n bytes with
  | nil => rfl
  | cons head rest ih =>
    have hslot := slot_lt layout n
    unfold putHeads
    rw [ih, put_of_apart (by rw [length_leBytes]; omega)]

theorem putHeads_heads {d : Nat} (heads : List Nat)
    (hold : ∀ k head, d ≤ k → offered[k]? = some head →
      fromLe (get bytes (layout.avail + 4 + k % layout.ringLen * 2) 2) = head)
    (hroom : (offered ++ heads).length ≤ d + layout.ringLen)
    (hheads : ∀ head ∈ heads, head < 2 ^ 16) :
    ∀ k head, d ≤ k → (offered ++ heads)[k]? = some head →
      fromLe (get (putHeads layout offered.length heads bytes)
        (layout.avail + 4 + k % layout.ringLen * 2) 2) = head := by
  induction heads generalizing offered bytes with
  | nil =>
    rw [List.append_nil]
    exact hold
  | cons new rest ih =>
    have hnew := slot_lt layout offered.length
    have hsplit : offered ++ new :: rest = offered ++ [new] ++ rest := by simp
    have hlen : (offered ++ [new]).length = offered.length + 1 := by simp
    rw [hsplit] at hroom ⊢
    unfold putHeads
    rw [← hlen]
    refine ih (fun k head hk hhead => ?_) hroom
      (fun head hmem => hheads head (List.mem_cons_of_mem _ hmem))
    have hslot := slot_lt layout k
    rw [List.length_append, hlen] at hroom
    rcases Nat.lt_trichotomy k offered.length with hlt | rfl | hlt
    · have hne := slot_ne layout.ringLen hlt (by omega)
      rw [List.getElem?_append_left hlt] at hhead
      rw [get_put_of_apart _ (by rw [length_leBytes]; omega)]
      exact hold k head hk hhead
    · rw [List.getElem?_append_right (Nat.le_refl _), Nat.sub_self] at hhead
      obtain rfl := Option.some.inj hhead
      exact get_put_two _ _ (hheads _ List.mem_cons_self)
    · rw [List.getElem?_eq_none (by simp; omega)] at hhead
      exact absurd hhead (by simp)

theorem Shown.offer {heads : List Nat} (h : Shown layout offered done bytes)
    (hapart : ∀ x, layout.InAvail x → ¬ layout.InUsed x)
    (hroom : offered.length + heads.length ≤ done.length + layout.ringLen)
    (hheads : ∀ head ∈ heads, head < 2 ^ 16) :
    Shown layout (offered ++ heads) done (offeredBytes layout offered.length heads bytes) := by
  -- nothing goes into the used ring
  have hkept : ∀ a n, (∀ x, a ≤ x → x < a + n → layout.InUsed x) →
      get (offeredBytes layout offered.length heads bytes) a n = get bytes a n := by
    intro a n hin
    refine get_congr fun x hlo hhi => ?_
    have hout : ¬ (layout.avail ≤ x ∧ x < layout.avail + 4 + layout.ringLen * 2) :=
      fun havail => hapart x havail (hin x hlo hhi)
    unfold offeredBytes
    rw [put_of_apart (by rw [length_leBytes]; omega), putHeads_of_apart _ _ (by omega)]
  refine ⟨?_, fun k head hk hhead => ?_, ?_, fun k entry hk hentry => ?_⟩
  · rw [offeredBytes, get_put_two _ _ (Nat.mod_lt _ (by decide)), List.length_append]
  · rw [offeredBytes, get_put_of_apart _ (by rw [length_leBytes]; omega)]
    exact putHeads_heads heads h.heads (by rw [List.length_append]; exact hroom) hheads k head hk
      hhead
  · rw [hkept _ _ fun x hlo hhi => ⟨by omega, by omega⟩]
    exact h.usedIdx
  · have hslot := slot_lt layout k
    rw [hkept _ _ fun x hlo hhi => ⟨by omega, by omega⟩,
      hkept _ _ fun x hlo hhi => ⟨by omega, by omega⟩]
    exact h.entries k entry hk hentry

/-- **Rings in memory** that no buffer of a chain and nothing else reaches: what they hold can
be read and written, and stays. -/
structure Mapped (dev : Device ω) (view : ω → Nat → UInt8) (layout : Layout) : Prop where
  /-- The sizes that the device takes. -/
  size : ∃ k ≤ 8, layout.size = 2 ^ k
  avail_lt : layout.avail + 4 + layout.size * 2 ≤ 2 ^ 64
  used_lt : layout.used + 4 + layout.size * 8 ≤ 2 ^ 64
  apart : ∀ x, layout.InAvail x → ¬ layout.InUsed x
  read : ∀ m a n, 0 < n → (∀ x, a ≤ x → x < a + n → layout.InRings x) →
    dev.guest.read m a n = some (fromLe (get (view m.world) a n))
  write : ∀ m a n value, 0 < n → (∀ x, a ≤ x → x < a + n → layout.InUsed x) →
    ∃ w, dev.guest.write a n value m = (true, ⟨m.regs, w, m.trace⟩) ∧
      ∀ x, layout.InRings x → view w x = put (view m.world) a (leBytes n value) x
  elsewhere : ∀ m a n value, (∀ x, a ≤ x → x < a + n → ¬ layout.InRings x) →
    ∀ x, layout.InRings x → view (dev.guest.write a n value m).2.world x = view m.world x
  /-- The backend writes into the buffers of the chain it serves. -/
  handle : ∀ index other ds m, m.regs.engine = true →
    (∀ d ∈ ds, d.isWrite = true → ∀ x, d.addr ≤ x → x < d.addr + d.len → ¬ layout.InRings x) →
    ∀ x, layout.InRings x → view (dev.handle index other ds m).2.world x = view m.world x
  /-- What it returns is a `u32`. -/
  written : ∀ index other ds m, (dev.handle index other ds m).1 < 2 ^ 32

namespace Mapped

variable {dev : Device ω} {view : ω → Nat → UInt8} {m : Machine ω}

theorem ringLen (h : Mapped dev view layout) : layout.ringLen = layout.size := by
  obtain ⟨k, hk, hsize⟩ := h.size
  have hpos : 0 < layout.size := by
    rw [hsize]
    exact Nat.two_pow_pos k
  have hle : layout.size ≤ 2 ^ 8 := by
    rw [hsize]
    exact Nat.pow_le_pow_right (by decide) hk
  unfold Layout.ringLen
  omega

theorem slot (h : Mapped dev view layout) (n : Nat) :
    n % 2 ^ 16 % layout.ringLen = n % layout.ringLen := by
  obtain ⟨k, hk, hsize⟩ := h.size
  refine Nat.mod_mod_of_dvd n ?_
  rw [h.ringLen, hsize]
  exact Nat.pow_dvd_pow 2 (by omega)

theorem availIdx (h : Mapped dev view layout) (hshown : Shown layout offered done (view m.world)) :
    availIdx (dev.guest.read m) layout = .ok (offered.length % 2 ^ 16) := by
  have hlt := h.avail_lt
  have hread := h.read m (layout.avail + 2) 2 (by decide) fun x hlo hhi =>
    .inl ⟨by omega, by omega⟩
  rw [hshown.availIdx] at hread
  unfold Virtio.availIdx
  rw [add64_of_lt (by omega)]
  simp only [bind, Except.bind, Reads.load, hread]

theorem availHead {head : Nat} (h : Mapped dev view layout)
    (hshown : Shown layout offered done (view m.world))
    (hhead : offered[done.length]? = some head) :
    availHead (dev.guest.read m) layout (done.length % 2 ^ 16) = .ok head := by
  have hlen := h.ringLen
  have hslot := slot_lt layout done.length
  have hlt := h.avail_lt
  have hread := h.read m (layout.avail + 4 + done.length % layout.ringLen * 2) 2 (by decide)
    fun x hlo hhi => .inl ⟨by omega, by omega⟩
  rw [hshown.heads _ head (Nat.le_refl _) hhead] at hread
  unfold Virtio.availHead
  simp only [h.slot]
  rw [add64_of_lt (by omega)]
  simp only [bind, Except.bind]
  rw [add64_of_lt (by omega)]
  simp only [Reads.load, hread]

theorem publish (h : Mapped dev view layout) (n head written : Nat) :
    ∃ w, publish dev.guest layout (n % 2 ^ 16) head written m =
        (.ok ((n + 1) % 2 ^ 16), ⟨m.regs, w, m.trace⟩) ∧
      ∀ x, layout.InRings x → view w x = publishedBytes layout n head written (view m.world) x := by
  have hlen := h.ringLen
  have hslot := slot_lt layout n
  have hpos := ringLen_pos layout
  have hlt := h.used_lt
  obtain ⟨w₁, hw₁, hview₁⟩ := h.write m (layout.used + 4 + n % layout.ringLen * 8) 4 head
    (by decide) fun x hlo hhi => ⟨by omega, by omega⟩
  obtain ⟨w₂, hw₂, hview₂⟩ := h.write ⟨m.regs, w₁, m.trace⟩
    (layout.used + 8 + n % layout.ringLen * 8) 4 written (by decide)
    fun x hlo hhi => ⟨by omega, by omega⟩
  obtain ⟨w₃, hw₃, hview₃⟩ := h.write ⟨m.regs, w₂, m.trace⟩ (layout.used + 2) 2
    ((n + 1) % 2 ^ 16) (by decide) fun x hlo hhi => ⟨by omega, by omega⟩
  refine ⟨w₃, ?_, fun x hx => ?_⟩
  · have hnext : (n % 2 ^ 16 + 1) % 2 ^ 16 = (n + 1) % 2 ^ 16 := by omega
    have hat : (do add64 (← add64 layout.used 4) (n % layout.ringLen * 8)) =
        Except.ok (layout.used + 4 + n % layout.ringLen * 8) := by
      rw [add64_of_lt (by omega)]
      exact add64_of_lt (by omega)
    have hat4 : add64 (layout.used + 4 + n % layout.ringLen * 8) 4 =
        .ok (layout.used + 8 + n % layout.ringLen * 8) := by
      rw [add64_of_lt (by omega)]
      congr 1
      omega
    have hat2 : add64 layout.used 2 = .ok (layout.used + 2) := add64_of_lt (by omega)
    unfold Virtio.publish
    simp only [h.slot, hnext]
    rw [Dma.ofExcept_bind_ok hat, Dma.store_bind_ok (by rw [hw₁]), hw₁,
      Dma.ofExcept_bind_ok hat4, Dma.store_bind_ok (by rw [hw₂]), hw₂,
      Dma.ofExcept_bind_ok hat2, Dma.store_bind_ok (by rw [hw₃]), hw₃]
    rfl
  · rw [hview₃ x hx]
    exact put_congr _ _ ((hview₂ x hx).trans (put_congr _ _ (hview₁ x hx)))

end Mapped

end Rsemu.Virtio
