import Mathlib.Data.List.Nodup
import Rsemu.Base.Overlay
import Rsemu.Virtio.Blk

/-!
# A request is its bytes

What a chain is to the device that serves it: the bytes its readable buffers hold, one after
the other, and the places its writable buffers have for an answer. `VirtioBlk.request` is
the device over those alone, and over any chain of buffers in memory that keeps what is put
there (`Ram`) the device does what `request` says. So how a request is cut into descriptors
makes no difference.
-/

namespace Rsemu.Virtio

open Rsemu.Codec (Bytes fromLe leBytes)
open Rsemu.Word (checkedMul checkedAdd checkedMul_eq_some checkedAdd_eq_some)

/-! ## Memory -/

/-- **Memory.** At the addresses `ram`, the guest's address space holds bytes: a read gives
what is there, a write replaces it and leaves the rest alone. -/
structure Ram {σ : Type} (g : Guest σ) (ram : Nat → Prop) (peek : σ → Nat → UInt8) : Prop where
  lt : ∀ a, ram a → a < 2 ^ 64
  read : ∀ s a n, (∀ x, a ≤ x → x < a + n → ram x) →
    g.readBytes s a n = some ((List.range' a n).map (peek s))
  write : ∀ s a bs, (∀ x, a ≤ x → x < a + bs.length → ram x) →
    (g.writeBytes a bs s).1 = true ∧
    (List.range' a bs.length).map (peek (g.writeBytes a bs s).2) = bs ∧
    ∀ x, ram x → ¬ (a ≤ x ∧ x < a + bs.length) → peek (g.writeBytes a bs s).2 x = peek s x

def Descriptor.places (d : Descriptor) : List Nat := List.range' d.addr d.len

def places (ds : List Descriptor) : List Nat := ds.flatMap (·.places)

@[simp]
theorem places_nil : places [] = [] := rfl

@[simp]
theorem places_cons (d : Descriptor) (ds : List Descriptor) :
    places (d :: ds) = d.places ++ places ds := rfl

@[simp]
theorem length_descriptor_places (d : Descriptor) : d.places.length = d.len := by
  simp [Descriptor.places]

theorem length_places (ds : List Descriptor) : (places ds).length = (ds.map (·.len)).sum := by
  induction ds with
  | nil => rfl
  | cons d ds ih => simp [ih]

def readable (ds : List Descriptor) : List Nat := places (ds.filter fun d => ¬ d.isWrite)

def writable (ds : List Descriptor) : List Nat := places (ds.filter (·.isWrite))

theorem readableLen_eq (ds : List Descriptor) : readableLen ds = (readable ds).length :=
  (length_places _).symm

theorem writableLen_eq (ds : List Descriptor) : writableLen ds = (writable ds).length :=
  (length_places _).symm

/-- **A chain in memory.** Its buffers are mapped, and the writable ones overlap neither each
other nor the readable ones. -/
structure InRam (ram : Nat → Prop) (ds : List Descriptor) : Prop where
  reads : ∀ x ∈ readable ds, ram x
  writes : ∀ x ∈ writable ds, ram x
  nodup : (writable ds).Nodup
  disjoint : ∀ x ∈ readable ds, x ∉ writable ds

section Buffers

variable {σ : Type} {g : Guest σ} {ram : Nat → Prop} {peek : σ → Nat → UInt8}

theorem take_drop_append (a b : Bytes) (skip want : Nat) :
    ((a ++ b).drop skip).take want = (a.drop skip).take want ++
      (b.drop (skip - a.length)).take (want - (a.length - skip)) := by
  rw [List.drop_append, List.take_append, List.length_drop]

theorem take_range' (a n want : Nat) : (List.range' a n).take want = List.range' a (min want n) := by
  refine List.ext_getElem (by simp) fun i _ _ => ?_
  simp

theorem readBuffers_ram (hram : Ram g ram peek) {s : σ} {ds : List Descriptor}
    {skip want : Nat} (hds : ∀ x ∈ places ds, ram x) :
    readBuffers g s ds skip want = .ok ((((places ds).map (peek s)).drop skip).take want) := by
  induction ds generalizing skip want with
  | nil => simp [readBuffers]
  | cons d ds ih =>
    have hrest : ∀ x ∈ places ds, ram x := fun x hx =>
      hds x (List.mem_append_right _ hx)
    have hhere : ∀ x, d.addr ≤ x → x < d.addr + d.len → ram x := fun x hlo hhi =>
      hds x (List.mem_append_left _ (List.mem_range'_1.mpr ⟨hlo, hhi⟩))
    have hlen : (d.places.map (peek s)).length = d.len := by simp
    rw [places_cons, List.map_append, take_drop_append, hlen]
    unfold readBuffers
    by_cases hskip : d.len ≤ skip
    · rw [if_pos hskip, ih hrest, List.drop_eq_nil_of_le (hlen.trans_le hskip),
        Nat.sub_eq_zero_of_le hskip, List.take_nil, List.nil_append, Nat.sub_zero]
    rw [if_neg hskip]
    by_cases htake : min (d.len - skip) want = 0
    · obtain rfl : want = 0 := by omega
      rw [if_pos htake, Nat.zero_sub, List.take_zero, List.take_zero, List.nil_append]
    -- what is read here
    have hpart : g.readBytes s (d.addr + skip) (min (d.len - skip) want) =
        some (((d.places.map (peek s)).drop skip).take want) := by
      rw [hram.read s _ _ fun x hlo hhi => hhere x (by omega) (by omega)]
      rw [← List.map_drop, ← List.map_take]
      congr 2
      rw [Descriptor.places, List.drop_range', take_range', Nat.min_comm, Nat.mul_comm]
      simp
    rw [if_neg htake, add64_of_lt (hram.lt _ (hhere _ (by omega) (by omega)))]
    simp only [bind, Except.bind]
    rw [hpart]
    dsimp only
    by_cases hall : min (d.len - skip) want = want
    · rw [if_pos hall, Nat.sub_eq_zero_of_le (by omega), List.take_zero, List.append_nil]
      rfl
    · have hmin : min (d.len - skip) want = d.len - skip := by omega
      have hskip' : skip - d.len = 0 := by omega
      rw [if_neg hall, ih hrest, hmin, hskip', List.drop_zero]
      rfl

theorem readChain_ram (hram : Ram g ram peek) {s : σ} {ds : List Descriptor}
    (hds : InRam ram ds) {skip want : Nat} :
    readChain g s ds skip want = .ok ((((readable ds).map (peek s)).drop skip).take want) :=
  readBuffers_ram hram hds.reads

theorem write_overlay (hram : Ram g ram peek) (s : σ) {d : Descriptor} (skip : Nat)
    (bs : Bytes) (hd : ∀ x ∈ d.places, ram x) (hfit : skip + bs.length ≤ d.len) :
    d.places.map (peek (g.writeBytes (d.addr + skip) bs s).2) =
      overlay (d.places.map (peek s)) skip bs := by
  have hhere : ∀ x, d.addr ≤ x → x < d.addr + d.len → ram x := fun x hlo hhi =>
    hd x (List.mem_range'_1.mpr ⟨hlo, hhi⟩)
  obtain ⟨-, hnew, hold⟩ := hram.write s (d.addr + skip) bs fun x hlo hhi =>
    hhere x (by omega) (by omega)
  refine List.ext_getElem (by simp) fun i h _ => ?_
  have hi : i < d.len := by simpa using h
  rw [getElem_overlay (by simpa using hi)]
  simp only [List.getElem_map, Descriptor.places, List.getElem_range', Nat.one_mul]
  by_cases hin : skip ≤ i ∧ i - skip < bs.length
  · rw [dif_pos hin]
    have hlen : i - skip < ((List.range' (d.addr + skip) bs.length).map
        (peek (g.writeBytes (d.addr + skip) bs s).2)).length := by simpa using hin.2
    have hget : ((List.range' (d.addr + skip) bs.length).map
        (peek (g.writeBytes (d.addr + skip) bs s).2))[i - skip] = bs[i - skip] := by
      congr 1
    rw [← hget, List.getElem_map, List.getElem_range']
    congr 1
    omega
  · rw [dif_neg hin]
    exact hold _ (hhere _ (by omega) (by omega)) (by omega)

theorem writeBuffers_ram (hram : Ram g ram peek) (s : σ) (ds : List Descriptor) (skip : Nat)
    (src : Bytes) (hds : ∀ x ∈ places ds, ram x) (hnodup : (places ds).Nodup) :
    ∃ s', writeBuffers g ds skip src s =
        (.ok (min src.length ((places ds).length - skip)), s') ∧
      (places ds).map (peek s') = overlay ((places ds).map (peek s)) skip src ∧
      ∀ x, ram x → x ∉ places ds → peek s' x = peek s x := by
  induction ds generalizing skip src s with
  | nil => exact ⟨s, by simp [writeBuffers]; rfl, by simp [overlay], fun x _ _ => rfl⟩
  | cons d ds ih =>
    rw [places_cons, List.nodup_append] at hnodup
    obtain ⟨-, hnodup, hapart⟩ := hnodup
    have hd : ∀ x ∈ d.places, ram x := fun x hx => hds x (List.mem_append_left _ hx)
    have hrest : ∀ x ∈ places ds, ram x := fun x hx => hds x (List.mem_append_right _ hx)
    have hlen : ∀ s, (d.places.map (peek s)).length = d.len := fun s => by simp
    simp only [places_cons, List.map_append, List.length_append, List.mem_append, not_or,
      length_descriptor_places, overlay_append, hlen]
    unfold writeBuffers
    by_cases hskip : d.len ≤ skip
    · -- the buffer ends before the position asked for
      rw [if_pos hskip, Nat.sub_eq_zero_of_le hskip, List.take_zero, overlay_nil,
        List.drop_zero]
      obtain ⟨s', hwrite, hover, hframe⟩ := ih s (skip - d.len) src hrest hnodup
      refine ⟨s', ?_, ?_, fun x hx hout => hframe x hx hout.2⟩
      · rw [hwrite]
        congr 2
        omega
      · rw [hover]
        congr 1
        refine List.map_congr_left fun x hx => hframe x (hd x hx) fun hin => ?_
        exact hapart x hx x hin rfl
    rw [if_neg hskip]
    by_cases htake : min (d.len - skip) src.length = 0
    · obtain rfl : src = [] := List.length_eq_zero_iff.mp (by omega)
      refine ⟨s, ?_, by simp, fun x _ _ => rfl⟩
      rw [if_pos htake]
      simp
      rfl
    rw [if_neg htake, Dma.ofExcept_bind_ok (add64_of_lt (hram.lt _ (hd _ ?_)))]
    swap
    · exact List.mem_range'_1.mpr ⟨by omega, by omega⟩
    obtain ⟨take, hmin⟩ : ∃ take, take = min (d.len - skip) src.length := ⟨_, rfl⟩
    rw [← hmin] at htake ⊢
    obtain ⟨part, hpart⟩ : ∃ part, part = src.take take := ⟨_, rfl⟩
    have hpartlen : part.length = take := by simp [hpart]; omega
    rw [← hpart]
    obtain ⟨hok, -, hold⟩ := hram.write s (d.addr + skip) part fun x hlo hhi =>
      hd x (List.mem_range'_1.mpr ⟨by omega, by omega⟩)
    have hover := write_overlay hram s skip part hd (by omega)
    rw [Dma.store_bind_ok hok]
    obtain ⟨s₁, hs₁⟩ : ∃ s₁, s₁ = (g.writeBytes (d.addr + skip) part s).2 := ⟨_, rfl⟩
    rw [← hs₁] at hold hover ⊢
    -- the write stays within this buffer
    have hout : ∀ x, ram x → x ∉ d.places → peek s₁ x = peek s x := fun x hx hin =>
      hold x hx fun h => hin (List.mem_range'_1.mpr ⟨by omega, by omega⟩)
    have hlater : (places ds).map (peek s₁) = (places ds).map (peek s) :=
      List.map_congr_left fun x hx => hout x (hrest x hx) fun hin => hapart x hin x hx rfl
    have hfirst : src.take (d.len - skip) = part := by
      rw [hpart, hmin, ← List.take_take, List.take_length]
    rw [hfirst]
    by_cases hall : take = src.length
    · rw [if_pos hall, List.drop_eq_nil_of_le (by omega), overlay_nil]
      refine ⟨s₁, ?_, by rw [hover, hlater], fun x hx hin => hout x hx hin.1⟩
      change (Except.ok take, s₁) = _
      congr 2
      omega
    · have hfull : take = d.len - skip := by omega
      rw [if_neg hall]
      obtain ⟨s', hwrite, hover', hframe⟩ := ih s₁ 0 (src.drop take) hrest hnodup
      refine ⟨s', ?_, ?_, fun x hx hin => (hframe x hx hin.2).trans (hout x hx hin.1)⟩
      · rw [Dma.bind_ok hwrite]
        change (Except.ok _, s') = _
        congr 2
        rw [List.length_drop]
        omega
      · have hskip' : skip - d.len = 0 := by omega
        rw [hover', hlater, hfull, hskip', ← hover]
        congr 1
        refine List.map_congr_left fun x hx => hframe x (hd x hx) fun hin => ?_
        exact hapart x hx x hin rfl

theorem writeChain_ram (hram : Ram g ram peek) {ds : List Descriptor} (hds : InRam ram ds)
    (s : σ) (skip : Nat) (src : Bytes) :
    ∃ s', writeChain g ds skip src s =
        (.ok (min src.length ((writable ds).length - skip)), s') ∧
      (writable ds).map (peek s') = overlay ((writable ds).map (peek s)) skip src ∧
      ∀ x, ram x → x ∉ writable ds → peek s' x = peek s x :=
  writeBuffers_ram hram s _ skip src hds.writes hds.nodup

end Buffers

/-! ## Requests -/

/-- What serving a request comes to: a status, the payload that goes into the writable bytes
from the first one on, and the medium. -/
structure Outcome (μ : Type) where
  status : UInt8
  payload : Bytes
  medium : μ

/-- **A medium that holds bytes**: a read in range gives what is there, a write in range
replaces it and leaves the rest alone. -/
structure Medium.Holds {μ : Type} (media : Medium μ) (content : μ → Nat → UInt8) : Prop where
  read : ∀ m offset n, offset + n ≤ media.capacity →
    media.readAt offset n m = some ((List.range' offset n).map (content m))
  write : ∀ m offset bs, offset + bs.length ≤ media.capacity →
    (media.writeAt offset bs m).1 = true ∧
    ∀ x, content (media.writeAt offset bs m).2 x =
      if offset ≤ x ∧ x < offset + bs.length then (bs[x - offset]?).getD 0 else content m x

namespace VirtioBlk

variable {σ μ : Type} (blk : VirtioBlk μ)

/-- The pieces of a read, up to one the medium refuses. -/
def readPieces (at_ len : Nat) (m : μ) : Nat → Nat → UInt8 × Bytes
  | 0, _ => (sOk, [])
  | fuel + 1, done =>
    if len ≤ done then (sOk, [])
    else
      let take := min chunk (len - done)
      match blk.media.readAt (at_ + done) take m with
      | none => (sIoErr, [])
      | some part =>
        let (status, rest) := readPieces at_ len m fuel (done + take)
        (status, part ++ rest)

/-- The pieces of a write of `payload`, up to one the medium refuses. -/
def writePieces (at_ len : Nat) (payload : Bytes) : Nat → Nat → μ → UInt8 × μ
  | 0, _, m => (sOk, m)
  | fuel + 1, done, m =>
    if len ≤ done then (sOk, m)
    else
      let take := min chunk (len - done)
      match blk.media.writeAt (at_ + done) ((payload.drop done).take take) m with
      | (false, m) => (sIoErr, m)
      | (true, m) => writePieces at_ len payload fuel (done + take) m

/-- **The device over bytes.** A request whose readable bytes are `input`, with room for
`room` bytes of answer. -/
def request (input : Bytes) (room : Nat) (m : μ) : Outcome μ :=
  if room = 0 ∨ input.length < headerLen then ⟨sOk, [], m⟩
  else
    let kind := fromLe (input.take 4)
    let sector := fromLe ((input.take headerLen).drop 8)
    if kind = tIn then
      match blk.range sector (room - 1) with
      | none => ⟨sIoErr, [], m⟩
      | some at_ =>
        let (status, payload) := blk.readPieces at_ (room - 1) m (room - 1) 0
        ⟨status, payload, m⟩
    else if kind = tOut then
      let payload := input.drop headerLen
      if blk.readOnly then ⟨sIoErr, [], m⟩
      else
        match blk.range sector payload.length with
        | none => ⟨sIoErr, [], m⟩
        | some at_ =>
          let (status, m) := blk.writePieces at_ payload.length payload payload.length 0 m
          ⟨status, [], m⟩
    else if kind = tFlush then
      match blk.media.flush m with
      | (true, m) => ⟨sOk, [], m⟩
      | (false, m) => ⟨sIoErr, [], m⟩
    else if kind = tGetId then ⟨sOk, blk.idReply.take (min (room - 1) idBytes), m⟩
    else ⟨sUnsupp, [], m⟩

/-! ## Chains refine requests -/

section Refine

variable {g : Guest σ} {ram : Nat → Prop} {peek : σ → Nat → UInt8} {ds : List Descriptor}

/-- What a step of serving leaves in memory: a payload laid over the writable bytes from
`done` on, and the rest as it was. -/
structure Placed (ram : Nat → Prop) (peek : σ → Nat → UInt8) (ds : List Descriptor) (s s' : σ)
    (done : Nat) (payload : Bytes) : Prop where
  laid : (writable ds).map (peek s') = overlay ((writable ds).map (peek s)) done payload
  frame : ∀ x, ram x → x ∉ writable ds → peek s' x = peek s x

theorem Placed.refl (s : σ) (done : Nat) : Placed ram peek ds s s done [] :=
  ⟨(overlay_nil _ _).symm, fun _ _ _ => rfl⟩

theorem Placed.append {s s' s'' : σ} {done : Nat} {a b : Bytes}
    (h : Placed ram peek ds s s' done a) (h' : Placed ram peek ds s' s'' (done + a.length) b) :
    Placed ram peek ds s s'' done (a ++ b) :=
  ⟨by rw [h'.laid, h.laid, overlay_overlay], fun x hx hout =>
    (h'.frame x hx hout).trans (h.frame x hx hout)⟩

theorem readInFrom_ram (hram : Ram g ram peek) (hds : InRam ram ds) (at_ len fuel done : Nat)
    (s : σ) {m : μ} (hlen : len ≤ (writable ds).length) :
    ∃ s', readInFrom blk g ds at_ len fuel done (s, m) =
        (((blk.readPieces at_ len m fuel done).1,
          done + (blk.readPieces at_ len m fuel done).2.length), (s', m)) ∧
      Placed ram peek ds s s' done (blk.readPieces at_ len m fuel done).2 := by
  induction fuel generalizing done s with
  | zero => exact ⟨s, rfl, .refl s done⟩
  | succ fuel ih =>
    unfold readInFrom readPieces
    by_cases hdone : len ≤ done
    · rw [if_pos hdone, if_pos hdone]
      exact ⟨s, rfl, .refl s done⟩
    rw [if_neg hdone, if_neg hdone]
    dsimp only
    rcases hread : blk.media.readAt (at_ + done) (min chunk (len - done)) m with _ | part
    · exact ⟨s, rfl, .refl s done⟩
    have hpart := blk.media.length_readAt _ _ _ _ hread
    obtain ⟨s₁, hwrite, hover, hframe⟩ := writeChain_ram hram hds s done part
    -- the chain has room for the whole piece
    have hall : min part.length ((writable ds).length - done) = min chunk (len - done) := by
      omega
    rw [hall] at hwrite
    obtain ⟨s', hrest, hplaced⟩ := ih (done + min chunk (len - done)) s₁
    refine ⟨s', ?_, ?_⟩
    · dsimp only
      rw [hwrite]
      dsimp only
      rw [if_neg (Nat.lt_irrefl _), hrest, List.length_append, hpart]
      simp only [Nat.add_assoc]
    · refine Placed.append (a := part) ⟨hover, hframe⟩ ?_
      rw [hpart]
      exact hplaced

def input (peek : σ → Nat → UInt8) (ds : List Descriptor) (s : σ) : Bytes :=
  (readable ds).map (peek s)

theorem writeOutFrom_ram (hram : Ram g ram peek) (hds : InRam ram ds) {at_ fuel done : Nat}
    {s : σ} {m : μ} {payload : Bytes} (hpayload : payload = (input peek ds s).drop headerLen) :
    writeOutFrom blk g ds at_ payload.length fuel done (s, m) =
      (((blk.writePieces at_ payload.length payload fuel done m).1, 0),
        (s, (blk.writePieces at_ payload.length payload fuel done m).2)) := by
  induction fuel generalizing done m with
  | zero => rfl
  | succ fuel ih =>
    unfold writeOutFrom writePieces
    by_cases hdone : payload.length ≤ done
    · rw [if_pos hdone, if_pos hdone]
    rw [if_neg hdone, if_neg hdone]
    dsimp only
    -- the chain holds the whole piece
    have hpart : readChain g s ds (headerLen + done) (min chunk (payload.length - done)) =
        .ok ((payload.drop done).take (min chunk (payload.length - done))) := by
      rw [readChain_ram hram hds, hpayload, List.drop_drop]
      rfl
    have hlen : ¬ ((payload.drop done).take (min chunk (payload.length - done))).length <
        min chunk (payload.length - done) := by
      rw [List.length_take, List.length_drop]
      omega
    rw [hpart]
    dsimp only
    rw [if_neg hlen]
    rcases blk.media.writeAt (at_ + done)
      ((payload.drop done).take (min chunk (payload.length - done))) m with ⟨_ | _, m'⟩
    · rfl
    · exact ih

theorem serve_ram (hram : Ram g ram peek) (hds : InRam ram ds) (s : σ) (m : μ) :
    ∃ s', serve blk g ds (s, m) =
        (((blk.request (input peek ds s) (writable ds).length m).status,
          (blk.request (input peek ds s) (writable ds).length m).payload.length),
          (s', (blk.request (input peek ds s) (writable ds).length m).medium)) ∧
      Placed ram peek ds s s' 0
        (blk.request (input peek ds s) (writable ds).length m).payload := by
  have hin : readableLen ds = (input peek ds s).length := by
    rw [readableLen_eq, input, List.length_map]
  unfold serve request
  rw [hin, writableLen_eq]
  by_cases hreq : (writable ds).length = 0 ∨ (input peek ds s).length < headerLen
  · rw [if_pos hreq, if_pos hreq]
    exact ⟨s, rfl, .refl s 0⟩
  rw [if_neg hreq, if_neg hreq]
  have hheader : readChain g s ds 0 headerLen = .ok ((input peek ds s).take headerLen) := by
    rw [readChain_ram hram hds, List.drop_zero]
    rfl
  have hlen : ¬ ((input peek ds s).take headerLen).length < headerLen := by
    rw [List.length_take]
    omega
  rw [hheader]
  dsimp only
  rw [if_neg hlen, List.take_take, Nat.min_eq_left (by decide)]
  by_cases hkin : fromLe ((input peek ds s).take 4) = tIn
  · rw [if_pos hkin, if_pos hkin]
    unfold readIn
    rcases blk.range (fromLe (((input peek ds s).take headerLen).drop 8))
      ((writable ds).length - 1) with _ | at_
    · exact ⟨s, rfl, .refl s 0⟩
    · obtain ⟨s', hserve, hplaced⟩ := readInFrom_ram blk hram hds at_
        ((writable ds).length - 1) ((writable ds).length - 1) 0 s (m := m) (Nat.sub_le _ _)
      refine ⟨s', ?_, hplaced⟩
      dsimp only
      rw [hserve, Nat.zero_add]
  rw [if_neg hkin, if_neg hkin]
  by_cases hkout : fromLe ((input peek ds s).take 4) = tOut
  · rw [if_pos hkout, if_pos hkout, ← List.length_drop]
    unfold writeOut
    by_cases hro : blk.readOnly = true
    · rw [if_pos hro, if_pos hro]
      exact ⟨s, rfl, .refl s 0⟩
    rw [if_neg hro, if_neg hro]
    rcases blk.range (fromLe (((input peek ds s).take headerLen).drop 8))
      ((input peek ds s).drop headerLen).length with _ | at_
    · exact ⟨s, rfl, .refl s 0⟩
    · refine ⟨s, ?_, .refl s 0⟩
      dsimp only
      rw [writeOutFrom_ram blk hram hds rfl]
      rfl
  rw [if_neg hkout, if_neg hkout]
  by_cases hkflush : fromLe ((input peek ds s).take 4) = tFlush
  · rw [if_pos hkflush, if_pos hkflush]
    rcases blk.media.flush m with ⟨_ | _, m'⟩
    · exact ⟨s, rfl, .refl s 0⟩
    · exact ⟨s, rfl, .refl s 0⟩
  rw [if_neg hkflush, if_neg hkflush]
  by_cases hkid : fromLe ((input peek ds s).take 4) = tGetId
  · rw [if_pos hkid, if_pos hkid]
    obtain ⟨s', hwrite, hover, hframe⟩ := writeChain_ram hram hds s 0
      (blk.idReply.take (min ((writable ds).length - 1) idBytes))
    refine ⟨s', ?_, hover, hframe⟩
    have hall : min (blk.idReply.take (min ((writable ds).length - 1) idBytes)).length
        ((writable ds).length - 0) =
        (blk.idReply.take (min ((writable ds).length - 1) idBytes)).length := by
      rw [List.length_take]
      omega
    rw [hall] at hwrite
    rw [hwrite]
  · rw [if_neg hkid, if_neg hkid]
    exact ⟨s, rfl, .refl s 0⟩

theorem handle_ram (hram : Ram g ram peek) (hds : InRam ram ds) (s : σ) (m : μ)
    {o : Outcome μ} (ho : o = blk.request (input peek ds s) (writable ds).length m) :
    ∃ s', handle blk g ds (s, m) =
        (if (writable ds).length = 0 then 0 else (o.payload.length + 1) % 2 ^ 32,
          (s', o.medium)) ∧
      (writable ds).map (peek s') = overlay (overlay ((writable ds).map (peek s)) 0 o.payload)
        ((writable ds).length - 1) [o.status] ∧
      ∀ x, ram x → x ∉ writable ds → peek s' x = peek s x := by
  subst ho
  obtain ⟨s₁, hserve, hplaced⟩ := serve_ram blk hram hds s m
  unfold handle
  rw [hserve, writableLen_eq]
  dsimp only
  by_cases hroom : (writable ds).length = 0
  · rw [if_pos hroom, if_pos hroom]
    have hnil : writable ds = [] := List.length_eq_zero_iff.mp hroom
    refine ⟨s₁, rfl, ?_, hplaced.frame⟩
    rw [hnil]
    simp [overlay]
  · rw [if_neg hroom, if_neg hroom]
    obtain ⟨s', hwrite, hover, hframe⟩ := writeChain_ram hram hds s₁
      ((writable ds).length - 1)
      [(blk.request (input peek ds s) (writable ds).length m).status]
    refine ⟨s', by rw [hwrite], by rw [hover, hplaced.laid], fun x hx hout => ?_⟩
    exact (hframe x hx hout).trans (hplaced.frame x hx hout)

end Refine

/-! ## What a transfer comes to -/

section Transfer

variable {blk} {content : μ → Nat → UInt8}

theorem range_of_le {sector len : Nat} (h : sectorSize * sector + len ≤ blk.media.capacity) :
    blk.range sector len = some (sectorSize * sector) := by
  have hlt := blk.media.capacity_lt
  unfold range
  rw [Nat.mul_comm] at h
  have hmul : checkedMul 64 sector sectorSize = some (sector * sectorSize) :=
    checkedMul_eq_some.mpr ⟨by omega, rfl⟩
  have hadd : checkedAdd 64 (sector * sectorSize) len = some (sector * sectorSize + len) :=
    checkedAdd_eq_some.mpr ⟨by omega, rfl⟩
  simp only [hmul, hadd, Option.bind_eq_bind, Option.bind_some, if_pos h]
  rw [Nat.mul_comm]

theorem readPieces_holds (hmedia : blk.media.Holds content) {at_ len fuel done : Nat} {m : μ}
    (hfit : at_ + len ≤ blk.media.capacity) (hdone : done ≤ len) (hfuel : len - done ≤ fuel) :
    blk.readPieces at_ len m fuel done =
      (sOk, (List.range' (at_ + done) (len - done)).map (content m)) := by
  induction fuel generalizing done with
  | zero =>
    have hnone : len - done = 0 := by omega
    rw [hnone]
    rfl
  | succ fuel ih =>
    unfold readPieces
    by_cases hall : len ≤ done
    · rw [if_pos hall, Nat.sub_eq_zero_of_le hall]
      rfl
    obtain ⟨take, htake⟩ : ∃ take, take = min chunk (len - done) := ⟨_, rfl⟩
    have hpos : 0 < chunk := by decide
    rw [if_neg hall, ← htake]
    dsimp only
    rw [hmedia.read _ _ _ (by omega)]
    dsimp only
    rw [ih (by omega) (by omega), ← List.map_append, ← Nat.add_assoc]
    congr 2
    have hsplit : len - done = take + (len - (done + take)) := by omega
    rw [hsplit, ← List.range'_append_1]

theorem writePieces_holds (hmedia : blk.media.Holds content) (at_ fuel done : Nat) (m : μ)
    (payload : Bytes) (hfit : at_ + payload.length ≤ blk.media.capacity)
    (hdone : done ≤ payload.length) (hfuel : payload.length - done ≤ fuel) :
    (blk.writePieces at_ payload.length payload fuel done m).1 = sOk ∧
    ∀ x, content (blk.writePieces at_ payload.length payload fuel done m).2 x =
      if at_ + done ≤ x ∧ x < at_ + payload.length then (payload[x - at_]?).getD 0
      else content m x := by
  induction fuel generalizing done m with
  | zero => exact ⟨rfl, fun x => (if_neg (by omega)).symm⟩
  | succ fuel ih =>
    unfold writePieces
    by_cases hall : payload.length ≤ done
    · rw [if_pos hall]
      exact ⟨rfl, fun x => (if_neg (by omega)).symm⟩
    obtain ⟨take, htake⟩ : ∃ take, take = min chunk (payload.length - done) := ⟨_, rfl⟩
    have hpos : 0 < chunk := by decide
    rw [if_neg hall, ← htake]
    dsimp only
    have hlen : ((payload.drop done).take take).length = take := by
      rw [List.length_take, List.length_drop]
      omega
    obtain ⟨hok, hhere⟩ := hmedia.write m (at_ + done) ((payload.drop done).take take) (by omega)
    rcases hwrite : blk.media.writeAt (at_ + done) ((payload.drop done).take take) m with ⟨ok, m'⟩
    rw [hwrite] at hok hhere
    obtain rfl : ok = true := hok
    obtain ⟨hstatus, hrest⟩ := ih (done + take) m' (by omega) (by omega)
    refine ⟨hstatus, fun x => ?_⟩
    rw [hrest]
    rw [hlen] at hhere
    by_cases hlater : at_ + (done + take) ≤ x ∧ x < at_ + payload.length
    · rw [if_pos hlater, if_pos (by omega)]
    · rw [if_neg hlater, hhere]
      -- this piece, or none of them
      by_cases hnow : at_ + done ≤ x ∧ x < at_ + done + take
      · rw [if_pos hnow, if_pos (by omega), List.getElem?_take_of_lt (by omega),
          List.getElem?_drop]
        congr 2
        omega
      · rw [if_neg hnow, if_neg (by omega)]

/-- The header of a request. -/
structure Header (input : Bytes) (kind sector : Nat) : Prop where
  whole : headerLen ≤ input.length
  kind : fromLe (input.take 4) = kind
  sector : fromLe ((input.take headerLen).drop 8) = sector

theorem request_in (hmedia : blk.media.Holds content) {bytes : Bytes} {sector n : Nat} {m : μ}
    (hheader : Header bytes tIn sector)
    (hfit : sectorSize * sector + n ≤ blk.media.capacity) :
    blk.request bytes (n + 1) m =
      ⟨sOk, (List.range' (sectorSize * sector) n).map (content m), m⟩ := by
  have hwhole := hheader.whole
  unfold request
  rw [if_neg (by omega)]
  dsimp only
  rw [if_pos hheader.kind, hheader.sector, Nat.add_sub_cancel, range_of_le hfit]
  dsimp only
  rw [readPieces_holds hmedia hfit (Nat.zero_le _) (by omega)]
  rfl

theorem request_out (hmedia : blk.media.Holds content) (hro : blk.readOnly = false)
    {bytes : Bytes} {sector : Nat} (room : Nat) {m : μ} (hheader : Header bytes tOut sector)
    (hroom : room ≠ 0)
    (hfit : sectorSize * sector + (bytes.length - headerLen) ≤ blk.media.capacity) :
    (blk.request bytes room m).status = sOk ∧ (blk.request bytes room m).payload = [] ∧
    ∀ x, content (blk.request bytes room m).medium x =
      if sectorSize * sector ≤ x ∧ x < sectorSize * sector + (bytes.length - headerLen) then
        (bytes[headerLen + (x - sectorSize * sector)]?).getD 0
      else content m x := by
  have hwhole := hheader.whole
  have hlen : (bytes.drop headerLen).length = bytes.length - headerLen := List.length_drop
  unfold request
  rw [if_neg (by omega)]
  dsimp only
  rw [if_neg (by rw [hheader.kind]; decide), if_pos hheader.kind, hheader.sector,
    if_neg (by simp [hro]), hlen, range_of_le hfit]
  obtain ⟨hstatus, hwritten⟩ := writePieces_holds hmedia (sectorSize * sector)
    (bytes.length - headerLen) 0 m (bytes.drop headerLen) (by omega) (Nat.zero_le _) (by omega)
  rw [hlen] at hstatus hwritten
  refine ⟨hstatus, rfl, fun x => ?_⟩
  rw [Nat.add_zero] at hwritten
  refine (hwritten x).trans ?_
  rw [List.getElem?_drop]

end Transfer

/-- The answer to a request, in memory: a payload from the first writable byte on and a status
in the last, and the rest as it was. -/
structure Answered (ram : Nat → Prop) (peek : σ → Nat → UInt8) (ds : List Descriptor) (s s' : σ)
    (payload : Bytes) (status : UInt8) : Prop where
  laid : (writable ds).map (peek s') =
    overlay (overlay ((writable ds).map (peek s)) 0 payload) ((writable ds).length - 1) [status]
  frame : ∀ x, ram x → x ∉ writable ds → peek s' x = peek s x

/-- **How a request is cut makes no difference.** Over memory,

* two chains that hold the same bytes and have room for as many leave the same medium, get
  the same payload and status and the same count;
* a read in range of a medium that holds bytes gets what is there, all of it;
* a write in range, to a device that takes writes, replaces that and nothing else. -/
theorem handle_ignores_cuts {g : Guest σ} {ram : Nat → Prop} {peek : σ → Nat → UInt8}
    (blk : VirtioBlk μ) (hram : Ram g ram peek) :
    (∀ ds₁ ds₂ s₁ s₂ m, InRam ram ds₁ → InRam ram ds₂ →
      input peek ds₁ s₁ = input peek ds₂ s₂ → (writable ds₁).length = (writable ds₂).length →
      ∃ count m' payload status s₁' s₂',
        handle blk g ds₁ (s₁, m) = (count, (s₁', m')) ∧
        handle blk g ds₂ (s₂, m) = (count, (s₂', m')) ∧
        Answered ram peek ds₁ s₁ s₁' payload status ∧
        Answered ram peek ds₂ s₂ s₂' payload status) ∧
    ∀ content, blk.media.Holds content → ∀ ds s m sector, InRam ram ds →
      (∀ n, Header (input peek ds s) tIn sector → (writable ds).length = n + 1 →
        sectorSize * sector + n ≤ blk.media.capacity →
        ∃ s', handle blk g ds (s, m) = ((n + 1) % 2 ^ 32, (s', m)) ∧
          (writable ds).map (peek s') =
            (List.range' (sectorSize * sector) n).map (content m) ++ [sOk] ∧
          ∀ x, ram x → x ∉ writable ds → peek s' x = peek s x) ∧
      ∀ n, blk.readOnly = false → Header (input peek ds s) tOut sector →
        (input peek ds s).length = headerLen + n → writable ds ≠ [] →
        sectorSize * sector + n ≤ blk.media.capacity →
        ∃ s' m', handle blk g ds (s, m) = (1, (s', m')) ∧ Answered ram peek ds s s' [] sOk ∧
          ∀ x, content m' x =
            if sectorSize * sector ≤ x ∧ x < sectorSize * sector + n then
              ((input peek ds s)[headerLen + (x - sectorSize * sector)]?).getD 0
            else content m x := by
  refine ⟨fun ds₁ ds₂ s₁ s₂ m h₁ h₂ hinput hroom => ?_, fun content hmedia ds s m sector hds =>
    ⟨fun n hheader hroom hfit => ?_, fun n hro hheader hlen hroom hfit => ?_⟩⟩
  · obtain ⟨s₁', hhandle₁, hover₁, hframe₁⟩ := handle_ram blk hram h₁ s₁ m rfl
    obtain ⟨s₂', hhandle₂, hover₂, hframe₂⟩ := handle_ram blk hram h₂ s₂ m
      (o := blk.request (input peek ds₁ s₁) (writable ds₁).length m) (by rw [hinput, hroom])
    rw [← hroom] at hhandle₂
    exact ⟨_, _, _, _, s₁', s₂', hhandle₁, hhandle₂, ⟨hover₁, hframe₁⟩, ⟨hover₂, hframe₂⟩⟩
  · have hrequest := request_in hmedia (m := m) hheader hfit
    rw [← hroom] at hrequest
    obtain ⟨s', hhandle, hover, hframe⟩ := handle_ram blk hram hds s m hrequest.symm
    refine ⟨s', ?_, ?_, hframe⟩
    · rw [hhandle, if_neg (by omega)]
      simp
    · rw [hover, ← List.length_map (f := peek s), overlay_whole]
      simp [hroom]
  · have hpos : (writable ds).length ≠ 0 := fun h => hroom (List.length_eq_zero_iff.mp h)
    have hn : (input peek ds s).length - headerLen = n := by omega
    obtain ⟨hstatus, hpayload, hmedium⟩ := request_out hmedia hro (writable ds).length
      (m := m) hheader hpos (by rw [hn]; exact hfit)
    obtain ⟨s', hhandle, hover, hframe⟩ := handle_ram blk hram hds s m rfl
    rw [hpayload] at hover hhandle
    rw [hstatus] at hover
    rw [hn] at hmedium
    refine ⟨s', _, ?_, ⟨hover, hframe⟩, hmedium⟩
    rw [hhandle, if_neg hpos]
    rfl

end VirtioBlk

/-! ## Memory everywhere -/

def put (m : Nat → UInt8) (at_ : Nat) (bs : Bytes) : Nat → UInt8 := fun x =>
  if at_ ≤ x ∧ x < at_ + bs.length then (bs[x - at_]?).getD 0 else m x

def get (m : Nat → UInt8) (at_ n : Nat) : Bytes := (List.range' at_ n).map m

/-- Memory all the way up. -/
def flat : Guest (Nat → UInt8) where
  read m at_ n := if n = 0 ∨ at_ + n ≤ 2 ^ 64 then some (fromLe (get m at_ n)) else none
  readBytes m at_ n := if n = 0 ∨ at_ + n ≤ 2 ^ 64 then some (get m at_ n) else none
  write at_ n value m :=
    if n = 0 ∨ at_ + n ≤ 2 ^ 64 then (true, put m at_ (leBytes n value)) else (false, m)
  writeBytes at_ bs m :=
    if bs.length = 0 ∨ at_ + bs.length ≤ 2 ^ 64 then (true, put m at_ bs) else (false, m)

theorem get_put (m : Nat → UInt8) (at_ : Nat) (bs : Bytes) :
    get (put m at_ bs) at_ bs.length = bs := by
  refine List.ext_getElem (by simp [get]) fun i h h' => ?_
  simp [get, put, h']

theorem ram_flat : Ram flat (· < 2 ^ 64) fun m => m := by
  have hfits : ∀ a n, (∀ x, a ≤ x → x < a + n → x < 2 ^ 64) → n = 0 ∨ a + n ≤ 2 ^ 64 := by
    intro a n hmem
    rcases Nat.eq_zero_or_pos n with hn | hn
    · exact .inl hn
    · have := hmem (a + (n - 1)) (by omega) (by omega)
      exact .inr (by omega)
  refine ⟨fun _ h => h, fun s a n hmem => if_pos (hfits a n hmem), fun s a bs hmem => ?_⟩
  have hwrite : flat.writeBytes a bs s = (true, put s a bs) := if_pos (hfits a _ hmem)
  rw [hwrite]
  exact ⟨rfl, get_put s a bs, fun x _ hout => if_neg hout⟩

/-- A medium of one sector that keeps its bytes in memory. -/
def sectorInMemory : Medium (Nat → UInt8) where
  capacity := sectorSize
  readAt offset n m := if offset + n ≤ sectorSize then some (get m offset n) else none
  writeAt offset bs m :=
    if offset + bs.length ≤ sectorSize then (true, put m offset bs) else (false, m)
  flush m := (true, m)
  isReadOnly := false
  capacity_lt := by decide
  length_readAt := by
    intro offset n m bs h
    split at h
    · rw [← Option.some.inj h]
      simp [get]
    · exact absurd h (by simp)

theorem sectorInMemory_holds : sectorInMemory.Holds fun m => m := by
  refine ⟨fun m offset n hfit => if_pos hfit, fun m offset bs hfit => ?_⟩
  have hwrite : sectorInMemory.writeAt offset bs m = (true, put m offset bs) := if_pos hfit
  rw [hwrite]
  exact ⟨rfl, fun x => rfl⟩

def sectorDisk (readOnly : Bool) : VirtioBlk (Nat → UInt8) where
  media := sectorInMemory
  serial := []
  readOnly := readOnly
  bytes_pos := by decide
  bytes_dvd := by decide
  readOnly_of_media := fun h => absurd h (by decide)

def writeSeven : Nat → UInt8 :=
  put (fun _ => 0) 4096 [1, 0, 0, 0, 0, 0, 0, 0, 0, 0, 0, 0, 0, 0, 0, 0, 7]

def writeSevenChain : List Descriptor := [⟨4096, 17, 0, 0⟩, ⟨8192, 1, descFWrite, 0⟩]

def writeSevenCut : List Descriptor :=
  [⟨8192, 1, descFWrite, 0⟩, ⟨4096, 10, 0, 0⟩, ⟨4106, 0, 0, 0⟩, ⟨4106, 7, 0, 0⟩]

theorem writeSeven_inRam : InRam (· < 2 ^ 64) writeSevenChain ∧ InRam (· < 2 ^ 64) writeSevenCut :=
  ⟨⟨by decide, by decide, by decide, by decide⟩, ⟨by decide, by decide, by decide, by decide⟩⟩

theorem writeSeven_header :
    VirtioBlk.Header (VirtioBlk.input (fun m => m) writeSevenChain writeSeven) tOut 0 :=
  ⟨by decide, by decide, by decide⟩

/-- Cut either way, the request leaves the same medium, which holds the byte it carried. -/
theorem seven_either_way :
    (∃ count m' payload status s₁' s₂',
      (sectorDisk false).handle flat writeSevenChain (writeSeven, fun _ => 0) =
        (count, (s₁', m')) ∧
      (sectorDisk false).handle flat writeSevenCut (writeSeven, fun _ => 0) =
        (count, (s₂', m')) ∧
      VirtioBlk.Answered (· < 2 ^ 64) (fun m => m) writeSevenChain writeSeven s₁' payload
        status ∧
      VirtioBlk.Answered (· < 2 ^ 64) (fun m => m) writeSevenCut writeSeven s₂' payload
        status) ∧
    ∃ s' m', (sectorDisk false).handle flat writeSevenChain (writeSeven, fun _ => 0) =
        (1, (s', m')) ∧ m' 0 = 7 ∧ m' 1 = 0 := by
  obtain ⟨hsame, htransfer⟩ := VirtioBlk.handle_ignores_cuts (sectorDisk false) ram_flat
  refine ⟨hsame writeSevenChain writeSevenCut writeSeven writeSeven (fun _ => 0)
    writeSeven_inRam.1 writeSeven_inRam.2 (by decide) (by decide), ?_⟩
  obtain ⟨s', m', hhandle, -, hmedium⟩ := (htransfer (fun m => m) sectorInMemory_holds
    writeSevenChain writeSeven (fun _ => 0) 0 writeSeven_inRam.1).2 1 rfl writeSeven_header
    (by decide) (by decide) (by decide)
  exact ⟨s', m', hhandle, hmedium 0, hmedium 1⟩

/-- A write in range to a device that refuses writes: the medium holds bytes and the chain is
in memory, and the sector stays as it was. -/
theorem refused_write_leaves_sector :
    (sectorDisk true).media.Holds (fun m => m) ∧ InRam (· < 2 ^ 64) writeSevenChain ∧
    VirtioBlk.Header (VirtioBlk.input (fun m => m) writeSevenChain writeSeven) tOut 0 ∧
    (VirtioBlk.input (fun m => m) writeSevenChain writeSeven)[headerLen]? = some 7 ∧
    ((sectorDisk true).handle flat writeSevenChain (writeSeven, fun _ => 0)).2.2 0 ≠ 7 :=
  ⟨sectorInMemory_holds, writeSeven_inRam.1, writeSeven_header, by decide, by decide⟩

end Rsemu.Virtio
