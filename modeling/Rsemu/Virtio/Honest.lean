import Rsemu.Virtio.Cuts

/-!
# A status of success

What a request asked for is done in pieces, each of which the medium or the space may refuse.
`CarriedOut` says that all of it was done: the header was all there, and every byte of the
payload moved. A piece that is cut short ends a request with an error, and a reply always fits
in front of the status, so where there is a header, success is never reported of less
(`status_ok_iff`). A chain with room for a status and no whole header is answered with success
and nothing done.

The status is a byte that the device stores, so the space keeps a log of what is written to it.
-/

namespace Rsemu.Virtio

open Rsemu.Codec (Bytes fromLe leBytes)
open Rsemu.Word (checkedMul checkedAdd)

variable {σ μ : Type}

theorem Dma.ok_of_bind {α γ : Type} {m : Dma σ α} {f : α → Dma σ γ} {s t : σ} {c : γ}
    (h : (m >>= f) s = (.ok c, t)) : ∃ a u, m s = (.ok a, u) ∧ f a u = (.ok c, t) := by
  rcases hm : m s with ⟨e | a, u⟩
  · simp only [bind, hm] at h
    cases h
  · simp only [bind, hm] at h
    exact ⟨a, u, rfl, h⟩

theorem writeBuffers_placed {g : Guest σ} {ds : List Descriptor} {skip n : Nat} {src : Bytes}
    {s t : σ} (h : writeBuffers g ds skip src s = (.ok n, t)) :
    n = min src.length ((ds.map (·.len)).sum - skip) := by
  induction ds generalizing skip src s n t with
  | nil =>
    cases h
    rw [List.map_nil, List.sum_nil, Nat.zero_sub, Nat.min_zero]
  | cons d ds ih =>
    rw [List.map_cons, List.sum_cons]
    unfold writeBuffers at h
    split at h
    · rw [ih h]
      congr 1
      omega
    · dsimp only at h
      split at h
      · cases h
        omega
      · obtain ⟨at_, u, -, h⟩ := Dma.ok_of_bind h
        obtain ⟨-, v, -, h⟩ := Dma.ok_of_bind h
        split at h
        · cases h
          omega
        · obtain ⟨rest, w, hrest, h⟩ := Dma.ok_of_bind h
          have hplaced := ih hrest
          rw [List.length_drop] at hplaced
          cases h
          omega

theorem writeChain_whole {g : Guest σ} {ds : List Descriptor} {skip n : Nat} {src : Bytes}
    {s t : σ} (h : writeChain g ds skip src s = (.ok n, t))
    (hfits : skip + src.length ≤ writableLen ds) : n = src.length := by
  rw [writeBuffers_placed h]
  unfold writableLen at hfits
  omega

/-- The same space, with a log of the writes: where, what, and whether it took them. -/
def Guest.logged (g : Guest σ) : Guest (σ × List (Nat × Bytes × Bool)) where
  read s := g.read s.1
  readBytes s := g.readBytes s.1
  write at_ n value s :=
    let (ok, t) := g.write at_ n value s.1
    (ok, t, s.2 ++ [(at_, leBytes n value, ok)])
  writeBytes at_ bs s :=
    let (ok, t) := g.writeBytes at_ bs s.1
    (ok, t, s.2 ++ [(at_, bs, ok)])

theorem logged_last (g : Guest σ) (at_ : Nat) (bs : Bytes) (s : σ × List (Nat × Bytes × Bool)) :
    (g.logged.writeBytes at_ bs s).2.2.getLast? = some (at_, bs, (g.writeBytes at_ bs s.1).1) :=
  List.getLast?_concat

/-- Where the status goes: the last byte of the last writable buffer that has any. -/
def statusAt (ds : List Descriptor) : Option Nat := do
  let d ← (ds.filter fun d => d.isWrite && 0 < d.len).getLast?
  if d.addr + (d.len - 1) < 2 ^ 64 then some (d.addr + (d.len - 1)) else none

theorem writeBuffers_last {g : Guest σ} {ds : List Descriptor} {b : UInt8} {s : σ}
    (h : 0 < (ds.map (·.len)).sum) :
    ∃ d, (ds.filter fun d => 0 < d.len).getLast? = some d ∧
      writeBuffers g ds ((ds.map (·.len)).sum - 1) [b] s =
        if d.addr + (d.len - 1) < 2 ^ 64 then
          (if (g.writeBytes (d.addr + (d.len - 1)) [b] s).1 then .ok 1 else .error .bus,
            (g.writeBytes (d.addr + (d.len - 1)) [b] s).2)
        else (.error .overflow, s) := by
  induction ds with
  | nil => exact absurd h (Nat.lt_irrefl 0)
  | cons d ds ih =>
    rw [List.map_cons, List.sum_cons] at h ⊢
    by_cases hrest : 0 < (ds.map (·.len)).sum
    · obtain ⟨e, he, hwrite⟩ := ih hrest
      refine ⟨e, ?_, ?_⟩
      · rw [List.filter_cons]
        split
        · rw [List.getLast?_cons, he]
          rfl
        · exact he
      · unfold writeBuffers
        rw [if_pos (by omega),
          show d.len + (ds.map (·.len)).sum - 1 - d.len = (ds.map (·.len)).sum - 1 by omega]
        exact hwrite
    · have hempty : ds.filter (fun d => 0 < d.len) = [] := by
        refine List.filter_eq_nil_iff.mpr fun e he => ?_
        have hzero := List.sum_eq_zero_iff_forall_eq_nat.mp (Nat.eq_zero_of_not_pos hrest) e.len
          (List.mem_map_of_mem he)
        simp [hzero]
      have hsum : d.len + (ds.map (·.len)).sum - 1 = d.len - 1 := by omega
      refine ⟨d, ?_, ?_⟩
      · rw [List.filter_cons, if_pos (by simpa using by omega), hempty]
        rfl
      · have htake : min (d.len - (d.len - 1)) [b].length = 1 := by
          rw [List.length_singleton]
          omega
        rw [hsum, writeBuffers, if_neg (by omega)]
        simp only [htake, Nat.one_ne_zero, if_false]
        by_cases hfit : d.addr + (d.len - 1) < 2 ^ 64
        · rw [Dma.ofExcept_bind_ok (add64_of_lt hfit), if_pos hfit]
          rcases hrun : g.writeBytes (d.addr + (d.len - 1)) [b] s with ⟨_ | _, t⟩
          · simp [bind, Dma.store, hrun]
          · rw [Dma.store_bind_ok (by simp [hrun])]
            simp [hrun, pure]
        · have hadd : add64 d.addr (d.len - 1) = .error .overflow := if_neg hfit
          rw [hadd, if_neg hfit]
          rfl

theorem statusAt_some {ds : List Descriptor} {at_ : Nat} (h : statusAt ds = some at_) :
    0 < writableLen ds := by
  unfold statusAt at h
  rcases hlast : (ds.filter fun d => d.isWrite && 0 < d.len).getLast? with _ | d
  · rw [hlast] at h
    cases h
  · obtain ⟨hmem, hd⟩ := List.mem_filter.mp (List.mem_of_getLast? hlast)
    simp only [Bool.and_eq_true, decide_eq_true_eq] at hd
    refine Nat.pos_of_ne_zero fun hzero => ?_
    have := List.sum_eq_zero_iff_forall_eq_nat.mp hzero d.len
      (List.mem_map_of_mem (List.mem_filter.mpr ⟨hmem, hd.1⟩))
    omega

/-- A transfer in pieces: each moves some bytes, and together they are all of `len`. -/
inductive Moves (step : Nat → Nat → σ × μ → σ × μ → Prop) (len : Nat) :
    Nat → σ × μ → σ × μ → Prop
  | whole (s) : Moves step len len s s
  | piece {at_ n s t u} (hpos : 0 < n) (hfits : at_ + n ≤ len) (h : step at_ n s t)
      (rest : Moves step len (at_ + n) t u) : Moves step len at_ s u

namespace VirtioBlk

variable (blk : VirtioBlk μ) (g : Guest σ) (ds : List Descriptor)

/-- Bytes read from the medium and placed in the chain's payload. -/
def ReadPiece (start off n : Nat) (s t : σ × μ) : Prop :=
  ∃ part, blk.media.readAt (start + off) n s.2 = some part ∧
    writeChain g ds off part s.1 = (.ok n, t.1) ∧ t.2 = s.2

/-- Bytes read from behind the chain's header and written to the medium. -/
def WritePiece (start off n : Nat) (s t : σ × μ) : Prop :=
  ∃ part, readChain g s.1 ds (headerLen + off) n = .ok part ∧ n ≤ part.length ∧
    blk.media.writeAt (start + off) part s.2 = (true, t.2) ∧ t.1 = s.1

/-- **An operation was performed whole**: every byte of the payload moved, within the medium;
the medium made durable; the serial number placed. -/
inductive Performed (sector : Nat) (s t : σ × μ) : Nat → Prop
  | read (hrange : sector * sectorSize + (writableLen ds - 1) ≤ blk.media.capacity)
      (h : Moves (blk.ReadPiece g ds (sector * sectorSize)) (writableLen ds - 1) 0 s t) :
      Performed sector s t tIn
  | write (hrange : sector * sectorSize + (readableLen ds - headerLen) ≤ blk.media.capacity)
      (h : Moves (blk.WritePiece g ds (sector * sectorSize)) (readableLen ds - headerLen) 0 s t) :
      Performed sector s t tOut
  | flush (h : blk.media.flush s.2 = (true, t.2)) (hspace : t.1 = s.1) :
      Performed sector s t tFlush
  | getId (h : writeChain g ds 0 (blk.idReply.take (min (writableLen ds - 1) idBytes)) s.1 =
        (.ok (min (writableLen ds - 1) idBytes), t.1)) (hmedium : t.2 = s.2) :
      Performed sector s t tGetId

/-- **A request was carried out**: its header was all there, and what it names was performed. -/
def CarriedOut (s t : σ × μ) : Prop :=
  headerLen ≤ readableLen ds ∧
    ∃ header, readChain g s.1 ds 0 headerLen = .ok header ∧ headerLen ≤ header.length ∧
      blk.Performed g ds (fromLe (header.drop 8)) s t (fromLe (header.take 4))

section Success

variable {blk : VirtioBlk μ} {g : Guest σ} {ds : List Descriptor}

theorem range_some {sector len at_ : Nat} (h : blk.range sector len = some at_) :
    at_ = sector * sectorSize ∧ at_ + len ≤ blk.media.capacity := by
  unfold range at h
  simp only [bind, Option.bind_eq_some_iff] at h
  obtain ⟨x, hx, stop, hstop, h⟩ := h
  obtain ⟨-, rfl⟩ := Word.checkedMul_eq_some.mp hx
  obtain ⟨-, rfl⟩ := Word.checkedAdd_eq_some.mp hstop
  split at h
  · rename_i hle
    cases h
    exact ⟨rfl, hle⟩
  · cases h

theorem readInFrom_ok {at_ len fuel done : Nat} {s : σ × μ} (hdone : done ≤ len)
    (hfuel : len - done ≤ fuel) (hroom : len ≤ writableLen ds)
    (h : (readInFrom blk g ds at_ len fuel done s).1.1 = sOk) :
    Moves (blk.ReadPiece g ds at_) len done s (readInFrom blk g ds at_ len fuel done s).2 := by
  induction fuel generalizing done s with
  | zero =>
    obtain rfl : done = len := by omega
    exact .whole s
  | succ fuel ih =>
    unfold readInFrom at h ⊢
    by_cases hend : len ≤ done
    · obtain rfl : done = len := by omega
      rw [if_pos hend]
      exact .whole s
    · rw [if_neg hend] at h ⊢
      dsimp only at h ⊢
      have hchunk : 0 < chunk := by decide
      cases hread : blk.media.readAt (at_ + done) (min chunk (len - done)) s.2 with
      | none =>
        rw [hread] at h
        cases show sIoErr = sOk from h
      | some part =>
        have hpart := blk.media.length_readAt _ _ _ _ hread
        rw [hread] at h
        dsimp only at h ⊢
        rcases hwrite : writeChain g ds done part s.1 with ⟨e | n, m⟩
        · rw [hwrite] at h
          cases show sIoErr = sOk from h
        · have hn : n = part.length := writeChain_whole hwrite (by omega)
          rw [hwrite] at h
          dsimp only at h ⊢
          rw [if_neg (by omega)] at h ⊢
          have hrest := @ih (done + n) (m, s.2) (by omega) (by omega) h
          have hpiece : blk.ReadPiece g ds at_ done n s (m, s.2) := by
            refine ⟨part, ?_, hwrite, rfl⟩
            rw [hn, hpart]
            exact hread
          exact .piece (by omega) (by omega) hpiece hrest

theorem writeOutFrom_ok {at_ len fuel done : Nat} {s : σ × μ} (hdone : done ≤ len)
    (hfuel : len - done ≤ fuel) (h : (writeOutFrom blk g ds at_ len fuel done s).1.1 = sOk) :
    Moves (blk.WritePiece g ds at_) len done s (writeOutFrom blk g ds at_ len fuel done s).2 := by
  induction fuel generalizing done s with
  | zero =>
    obtain rfl : done = len := by omega
    exact .whole s
  | succ fuel ih =>
    unfold writeOutFrom at h ⊢
    by_cases hend : len ≤ done
    · obtain rfl : done = len := by omega
      rw [if_pos hend]
      exact .whole s
    · rw [if_neg hend] at h ⊢
      dsimp only at h ⊢
      have hchunk : 0 < chunk := by decide
      rcases hread : readChain g s.1 ds (headerLen + done) (min chunk (len - done)) with e | part
      · rw [hread] at h
        cases show sIoErr = sOk from h
      · rw [hread] at h
        dsimp only at h ⊢
        by_cases hshort : part.length < min chunk (len - done)
        · rw [if_pos hshort] at h
          cases show sIoErr = sOk from h
        · rw [if_neg hshort] at h ⊢
          rcases hwrite : blk.media.writeAt (at_ + done) part s.2 with ⟨_ | _, m⟩
          · rw [hwrite] at h
            cases show sIoErr = sOk from h
          · rw [hwrite] at h
            have hrest := @ih (done + min chunk (len - done)) (s.1, m) (by omega) (by omega) h
            have hpiece : blk.WritePiece g ds at_ done (min chunk (len - done)) s (s.1, m) :=
              ⟨part, hread, by omega, hwrite, rfl⟩
            exact .piece (by omega) (by omega) hpiece hrest

theorem readIn_ok {sector len : Nat} {s : σ × μ} (hroom : len ≤ writableLen ds)
    (h : (readIn blk g ds sector len s).1.1 = sOk) :
    sector * sectorSize + len ≤ blk.media.capacity ∧
      Moves (blk.ReadPiece g ds (sector * sectorSize)) len 0 s (readIn blk g ds sector len s).2 := by
  unfold readIn at h ⊢
  cases hrange : blk.range sector len with
  | none =>
    rw [hrange] at h
    exact absurd (show sIoErr = sOk from h) (by decide)
  | some at_ =>
    obtain ⟨rfl, hle⟩ := range_some hrange
    rw [hrange] at h
    exact ⟨hle, readInFrom_ok (Nat.zero_le _) (Nat.sub_le _ _) hroom h⟩

theorem writeOut_ok {sector len : Nat} {s : σ × μ}
    (h : (writeOut blk g ds sector len s).1.1 = sOk) :
    sector * sectorSize + len ≤ blk.media.capacity ∧
      Moves (blk.WritePiece g ds (sector * sectorSize)) len 0 s
        (writeOut blk g ds sector len s).2 := by
  unfold writeOut at h ⊢
  by_cases hro : blk.readOnly
  · rw [if_pos hro] at h
    exact absurd (show sIoErr = sOk from h) (by decide)
  · rw [if_neg hro] at h ⊢
    cases hrange : blk.range sector len with
    | none =>
      rw [hrange] at h
      exact absurd (show sIoErr = sOk from h) (by decide)
    | some at_ =>
      obtain ⟨rfl, hle⟩ := range_some hrange
      rw [hrange] at h
      exact ⟨hle, writeOutFrom_ok (Nat.zero_le _) (Nat.sub_le _ _) h⟩

theorem length_idReply : blk.idReply.length = idBytes := by
  unfold idReply
  rw [List.length_take, List.length_append, List.length_replicate]
  omega

theorem serve_ok {s : σ × μ} (hwritable : writableLen ds ≠ 0)
    (hreadable : headerLen ≤ readableLen ds) (h : (serve blk g ds s).1.1 = sOk) :
    blk.CarriedOut g ds s (serve blk g ds s).2 := by
  unfold serve at h ⊢
  rw [if_neg (by omega)] at h ⊢
  rcases hread : readChain g s.1 ds 0 headerLen with e | header
  · rw [hread] at h
    cases show sIoErr = sOk from h
  rw [hread] at h
  dsimp only at h ⊢
  by_cases hshort : header.length < headerLen
  · rw [if_pos hshort] at h
    cases show sIoErr = sOk from h
  rw [if_neg hshort] at h ⊢
  refine ⟨hreadable, header, hread, by omega, ?_⟩
  by_cases hin : fromLe (header.take 4) = tIn
  · rw [if_pos hin] at h ⊢
    obtain ⟨hrange, hmoves⟩ := readIn_ok (Nat.sub_le _ _) h
    rw [hin]
    exact .read hrange hmoves
  rw [if_neg hin] at h ⊢
  by_cases hout : fromLe (header.take 4) = tOut
  · rw [if_pos hout] at h ⊢
    obtain ⟨hrange, hmoves⟩ := writeOut_ok h
    rw [hout]
    exact .write hrange hmoves
  rw [if_neg hout] at h ⊢
  by_cases hflush : fromLe (header.take 4) = tFlush
  · rw [if_pos hflush] at h ⊢
    rcases hrun : blk.media.flush s.2 with ⟨_ | _, m⟩
    · rw [hrun] at h
      cases show sIoErr = sOk from h
    · rw [hflush]
      exact .flush hrun rfl
  rw [if_neg hflush] at h ⊢
  by_cases hid : fromLe (header.take 4) = tGetId
  · rw [if_pos hid] at h ⊢
    rcases hrun : writeChain g ds 0 (blk.idReply.take (min (writableLen ds - 1) idBytes)) s.1 with
      ⟨e | n, m⟩
    · rw [hrun] at h
      cases show sIoErr = sOk from h
    · -- the reply is cut to what there is room for, so it is placed whole
      have hlen : (blk.idReply.take (min (writableLen ds - 1) idBytes)).length =
          min (writableLen ds - 1) idBytes := by
        rw [List.length_take, length_idReply]
        omega
      have hn := writeChain_whole hrun (by omega)
      rw [hid]
      refine .getId ?_ rfl
      rw [hrun, hn, hlen]
  · rw [if_neg hid] at h
    cases show sUnsupp = sOk from h

end Success

/-- A chain handled in the space, with a log. -/
def handled (blk : VirtioBlk μ) (g : Guest σ) (ds : List Descriptor) (s : σ × μ) :
    Nat × ((σ × List (Nat × Bytes × Bool)) × μ) :=
  handle blk g.logged ds ((s.1, []), s.2)

/-- **The status that `handle` stores**: the byte its last write puts where the status goes, if
the space takes it. -/
def storedStatus (blk : VirtioBlk μ) (g : Guest σ) (ds : List Descriptor) (s : σ × μ) :
    Option UInt8 :=
  match (handled blk g ds s).2.1.2.getLast? with
  | some (at_, [status], true) => if statusAt ds = some at_ then some status else none
  | _ => none

section Stored

variable {blk : VirtioBlk μ} {g : Guest σ} {ds : List Descriptor}

theorem handled_eq {s : σ × μ} (hwritable : 0 < writableLen ds) :
    let r := serve blk g.logged ds ((s.1, []), s.2)
    (handled blk g ds s).2 = match statusAt ds with
      | some at_ => ((g.logged.writeBytes at_ [r.1.1] r.2.1).2, r.2.2)
      | none => r.2 := by
  obtain ⟨d, hd, hwrite⟩ := @writeBuffers_last _ g.logged (ds.filter (·.isWrite))
    (serve blk g.logged ds ((s.1, []), s.2)).1.1 (serve blk g.logged ds ((s.1, []), s.2)).2.1
    hwritable
  rw [List.filter_filter] at hd
  have hlast : (ds.filter fun d => d.isWrite && 0 < d.len).getLast? = some d := by
    rw [← hd]
    congr 2
    funext e
    exact Bool.and_comm ..
  have hat : statusAt ds = if d.addr + (d.len - 1) < 2 ^ 64 then some (d.addr + (d.len - 1))
      else none := by
    unfold statusAt
    rw [hlast]
    rfl
  have hrun : (handled blk g ds s).2 = ((writeChain g.logged ds (writableLen ds - 1)
      [(serve blk g.logged ds ((s.1, []), s.2)).1.1]
      (serve blk g.logged ds ((s.1, []), s.2)).2.1).2,
      (serve blk g.logged ds ((s.1, []), s.2)).2.2) := by
    unfold handled handle
    dsimp only
    rw [if_neg (by omega)]
  rw [hrun, hat]
  unfold writeChain writableLen
  rw [hwrite]
  split
  · rfl
  · rfl

theorem storedStatus_eq {s : σ × μ} {at_ : Nat} (hat : statusAt ds = some at_) :
    let r := serve blk g.logged ds ((s.1, []), s.2)
    storedStatus blk g ds s = if (g.writeBytes at_ [r.1.1] r.2.1.1).1 then some r.1.1 else none := by
  have hrun := @handled_eq _ _ blk g ds s (statusAt_some hat)
  dsimp only at hrun ⊢
  unfold storedStatus
  rw [hrun, hat]
  rw [logged_last]
  cases (g.writeBytes at_ [(serve blk g.logged ds ((s.1, []), s.2)).1.1]
    (serve blk g.logged ds ((s.1, []), s.2)).2.1.1).1 with
  | true => simp
  | false => simp

theorem storedStatus_none {s : σ × μ} (hat : statusAt ds = none) :
    storedStatus blk g ds s = none := by
  unfold storedStatus
  rw [hat]
  split
  · exact if_neg (by simp)
  · rfl

theorem serve_headless {s : σ × μ} (h : readableLen ds < headerLen) :
    serve blk g ds s = ((sOk, 0), s) := by
  exact if_pos (.inr h)

/--
**Success is stored of requests that were carried out, and of nothing else, except of a chain
with no whole header whose last writable byte the space takes**, whatever the medium and the
space refuse.
-/
theorem status_ok_iff (blk : VirtioBlk μ) (g : Guest σ) (ds : List Descriptor) (s : σ × μ) :
    (storedStatus blk g ds s = some sOk → ∃ t at_, statusAt ds = some at_ ∧
        blk.CarriedOut g.logged ds ((s.1, []), s.2) t ∧
        (handled blk g ds s).2 = ((g.logged.writeBytes at_ [sOk] t.1).2, t.2)) ↔
      ¬ (readableLen ds < headerLen ∧
        ∃ at_, statusAt ds = some at_ ∧ (g.writeBytes at_ [sOk] s.1).1 = true) := by
  constructor
  · rintro h ⟨hshort, at_, hat, htaken⟩
    have hok : storedStatus blk g ds s = some sOk := by
      rw [storedStatus_eq hat, serve_headless hshort]
      exact if_pos htaken
    obtain ⟨t, at', -, hdone, -⟩ := h hok
    exact absurd hdone.1 (Nat.not_le.mpr hshort)
  · intro h hok
    rcases hat : statusAt ds with _ | at_
    · rw [storedStatus_none hat] at hok
      cases hok
    · have hwritable := statusAt_some hat
      rw [storedStatus_eq hat] at hok
      split at hok
      · rename_i htaken
        have hstatus := Option.some.inj hok
        have hrun := @handled_eq _ _ blk g ds s hwritable
        dsimp only at hrun
        rw [hat, hstatus] at hrun
        refine ⟨_, at_, rfl, serve_ok (by omega) (Nat.le_of_not_lt fun hshort => ?_) hstatus, hrun⟩
        refine h ⟨hshort, at_, hat, ?_⟩
        rw [serve_headless hshort] at htaken
        exact htaken
      · cases hok

def statusOnly : List Descriptor := [⟨8192, 1, descFWrite, 0⟩]

/-- It is answered with success. -/
theorem headless_chain_succeeds :
    storedStatus (sectorDisk false) flat statusOnly ((fun _ => 1), fun _ => 0) = some sOk ∧
      ∀ t, ¬ (sectorDisk false).CarriedOut (Guest.logged flat) statusOnly
        (((fun _ => 1), []), fun _ => 0) t :=
  ⟨by rfl, fun _ h => absurd h.1 (by decide)⟩

end Stored

end VirtioBlk

end Rsemu.Virtio
