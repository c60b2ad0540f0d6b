import Rsemu.Base.Codec
import Rsemu.Base.Word
import Rsemu.Virtio.Queue

/-!
# The block device

A request is a chain: a sixteen-byte header in its readable buffers, then the payload of a
write; the payload of a read in its writable buffers, and a status in the last byte of
these. Nothing says how the bytes are cut into buffers, and the device walks the chain again
for every piece of 64 KiB.
-/

namespace Rsemu.Virtio

open Rsemu.Codec (Bytes fromLe)
open Rsemu.Word (checkedMul checkedAdd)

/-- A drive's storage, over its state. A read that succeeds fills what it was given. -/
structure Medium (μ : Type) where
  capacity : Nat
  readAt : Nat → Nat → μ → Option Bytes
  writeAt : Nat → Bytes → μ → Bool × μ
  flush : μ → Bool × μ
  isReadOnly : Bool
  capacity_lt : capacity < 2 ^ 64
  length_readAt : ∀ offset n m bs, readAt offset n m = some bs → bs.length = n

def sectorSize : Nat := 512

def headerLen : Nat := 16

def chunk : Nat := 64 * 1024

def tIn : Nat := 0
def tOut : Nat := 1
def tFlush : Nat := 4
def tGetId : Nat := 8

def sOk : UInt8 := 0
def sIoErr : UInt8 := 1
def sUnsupp : UInt8 := 2

def idBytes : Nat := 20

/-- A virtio block device: its medium holds a whole number of sectors, and a medium that
refuses writes makes a device that does. -/
structure VirtioBlk (μ : Type) where
  media : Medium μ
  serial : Bytes
  readOnly : Bool
  bytes_pos : 0 < media.capacity
  bytes_dvd : media.capacity % sectorSize = 0
  readOnly_of_media : media.isReadOnly = true → readOnly = true

namespace VirtioBlk

variable {σ μ : Type} (blk : VirtioBlk μ) (g : Guest σ) (ds : List Descriptor)

/-- The byte offset `len` bytes at `sector` start at, or none if the range runs off the end
of the medium. -/
def range (sector len : Nat) : Option Nat := do
  let at_ ← checkedMul 64 sector sectorSize
  let stop ← checkedAdd 64 at_ len
  if stop ≤ blk.media.capacity then some at_ else none

/-- The loop of `readIn`, at most `fuel` pieces of it. -/
def readInFrom (at_ len : Nat) : Nat → Nat → σ × μ → (UInt8 × Nat) × (σ × μ)
  | 0, done, s => ((sOk, done), s)
  | fuel + 1, done, s =>
    if len ≤ done then ((sOk, done), s)
    else
      let take := min chunk (len - done)
      match blk.media.readAt (at_ + done) take s.2 with
      | none => ((sIoErr, done), s)
      | some part =>
        match writeChain g ds done part s.1 with
        | (.error _, m) => ((sIoErr, done), (m, s.2))
        | (.ok n, m) =>
          if n < take then ((sIoErr, done + n), (m, s.2))
          else readInFrom at_ len fuel (done + n) (m, s.2)

def readIn (sector len : Nat) (s : σ × μ) : (UInt8 × Nat) × (σ × μ) :=
  match blk.range sector len with
  | none => ((sIoErr, 0), s)
  | some at_ => readInFrom blk g ds at_ len len 0 s

/-- The loop of `writeOut`, at most `fuel` pieces of it. -/
def writeOutFrom (at_ len : Nat) : Nat → Nat → σ × μ → (UInt8 × Nat) × (σ × μ)
  | 0, _, s => ((sOk, 0), s)
  | fuel + 1, done, s =>
    if len ≤ done then ((sOk, 0), s)
    else
      let take := min chunk (len - done)
      match readChain g s.1 ds (headerLen + done) take with
      | .error _ => ((sIoErr, 0), s)
      | .ok part =>
        if part.length < take then ((sIoErr, 0), s)
        else
          match blk.media.writeAt (at_ + done) part s.2 with
          | (false, m) => ((sIoErr, 0), (s.1, m))
          | (true, m) => writeOutFrom at_ len fuel (done + take) (s.1, m)

def writeOut (sector len : Nat) (s : σ × μ) : (UInt8 × Nat) × (σ × μ) :=
  if blk.readOnly then ((sIoErr, 0), s)
  else
    match blk.range sector len with
    | none => ((sIoErr, 0), s)
    | some at_ => writeOutFrom blk g ds at_ len len 0 s

def idReply : Bytes := (blk.serial.take idBytes ++ List.replicate idBytes 0).take idBytes

/-- Serve one request chain: the status byte and how many payload bytes were written into
the chain. -/
def serve (s : σ × μ) : (UInt8 × Nat) × (σ × μ) :=
  let writable := writableLen ds
  let readable := readableLen ds
  if writable = 0 ∨ readable < headerLen then ((sOk, 0), s)
  else
    match readChain g s.1 ds 0 headerLen with
    | .error _ => ((sIoErr, 0), s)
    | .ok header =>
      if header.length < headerLen then ((sIoErr, 0), s)
      else
        let kind := fromLe (header.take 4)
        let sector := fromLe (header.drop 8)
        -- the last writable byte is the status; everything before it is data
        let payload := writable - 1
        if kind = tIn then readIn blk g ds sector payload s
        else if kind = tOut then writeOut blk g ds sector (readable - headerLen) s
        else if kind = tFlush then
          match blk.media.flush s.2 with
          | (true, m) => ((sOk, 0), (s.1, m))
          | (false, m) => ((sIoErr, 0), (s.1, m))
        else if kind = tGetId then
          match writeChain g ds 0 (blk.idReply.take (min payload idBytes)) s.1 with
          | (.ok n, m) => ((sOk, n), (m, s.2))
          | (.error _, m) => ((sIoErr, 0), (m, s.2))
        else ((sUnsupp, 0), s)

/-- Serve a chain and put the status in its last writable byte, wherever the driver put
that: how many bytes were written, as the used ring holds it. -/
def handle (s : σ × μ) : Nat × (σ × μ) :=
  match serve blk g ds s with
  | ((status, written), s) =>
    let writable := writableLen ds
    if writable = 0 then (0, s)
    else ((written + 1) % 2 ^ 32, ((writeChain g ds (writable - 1) [status] s.1).2, s.2))

section Keeps

variable {blk g ds} {R : σ → σ → Prop}

/-- A relation that any number of writes into the buffers of a chain stay in. -/
structure Keeps (g : Guest σ) (ds : List Descriptor) (R : σ → σ → Prop) : Prop where
  refl : ∀ s, R s s
  trans : ∀ s t u, R s t → R t u → R s u
  write : ∀ s at_ bs, (∃ d ∈ ds, d.isWrite = true ∧ d.addr ≤ at_ ∧
    at_ + bs.length ≤ d.addr + d.len) → R s (g.writeBytes at_ bs s).2

theorem writeBuffers_keeps (h : Keeps g ds R) (rest : List Descriptor)
    (hrest : ∀ d ∈ rest, d ∈ ds ∧ d.isWrite = true) (skip : Nat) (src : Bytes) (s : σ) :
    R s (writeBuffers g rest skip src s).2 := by
  induction rest generalizing skip src s with
  | nil => exact h.refl s
  | cons d rest ih =>
    have ih := ih fun e he => hrest e (List.mem_cons_of_mem _ he)
    unfold writeBuffers
    split
    · exact ih _ _ _
    · by_cases htake : min (d.len - skip) src.length = 0
      · rw [if_pos htake]
        exact h.refl s
      · rw [if_neg htake]
        rcases hadd : add64 d.addr skip with e | at_
        · exact h.refl s
        · rw [Dma.ofExcept_bind_ok rfl]
          obtain ⟨part, hpart⟩ : ∃ part, part = src.take (min (d.len - skip) src.length) :=
            ⟨_, rfl⟩
          rw [← hpart]
          have hwrite := h.write s at_ part (by
            obtain ⟨hmem, hwritable⟩ := hrest d List.mem_cons_self
            have hat := add64_ok hadd
            refine ⟨d, hmem, hwritable, by omega, ?_⟩
            rw [hpart, List.length_take]
            omega)
          rcases hok : (g.writeBytes at_ part s).1 with _ | _
          · have hstop : ∀ f : Unit → Dma σ Nat,
                (Dma.store (g.writeBytes at_ part) >>= f) s =
                  (.error .bus, (g.writeBytes at_ part s).2) := by
              intro f
              simp [bind, Dma.store, hok]
            rw [hstop]
            exact hwrite
          · rw [Dma.store_bind_ok hok]
            split
            · exact hwrite
            · have hrest := ih 0 (src.drop (min (d.len - skip) src.length))
                (g.writeBytes at_ part s).2
              rcases hrun : writeBuffers g rest 0 (src.drop (min (d.len - skip) src.length))
                (g.writeBytes at_ part s).2 with ⟨e | done, t⟩
              · rw [hrun] at hrest
                simp only [bind, hrun]
                exact h.trans _ _ _ hwrite hrest
              · rw [hrun] at hrest
                rw [Dma.bind_ok hrun]
                exact h.trans _ _ _ hwrite hrest

theorem writeChain_keeps (h : Keeps g ds R) (skip : Nat) (src : Bytes) (s : σ) :
    R s (writeChain g ds skip src s).2 :=
  writeBuffers_keeps h _ (fun _ hd => List.mem_filter.mp hd) skip src s

theorem readInFrom_keeps (h : Keeps g ds R) {at_ len fuel done : Nat} {s : σ × μ} :
    R s.1 (readInFrom blk g ds at_ len fuel done s).2.1 := by
  induction fuel generalizing done s with
  | zero => exact h.refl s.1
  | succ fuel ih =>
    unfold readInFrom
    split
    · exact h.refl s.1
    · dsimp only
      split
      · exact h.refl s.1
      · rename_i part _
        have hwrite := writeChain_keeps h done part s.1
        split
        · rename_i hrun
          rw [hrun] at hwrite
          exact hwrite
        · rename_i n m hrun
          rw [hrun] at hwrite
          split
          · exact hwrite
          · exact h.trans _ _ _ hwrite (ih (s := (m, s.2)))

theorem writeOutFrom_keeps (h : Keeps g ds R) {at_ len fuel done : Nat} {s : σ × μ} :
    R s.1 (writeOutFrom blk g ds at_ len fuel done s).2.1 := by
  induction fuel generalizing done s with
  | zero => exact h.refl s.1
  | succ fuel ih =>
    unfold writeOutFrom
    split
    · exact h.refl s.1
    · dsimp only
      split
      · exact h.refl s.1
      · split
        · exact h.refl s.1
        · split
          · exact h.refl s.1
          · rename_i m _
            exact ih (s := (s.1, m))

theorem serve_keeps (blk : VirtioBlk μ) (h : Keeps g ds R) (s : σ × μ) :
    R s.1 (serve blk g ds s).2.1 := by
  unfold serve
  dsimp only
  split
  · exact h.refl s.1
  · split
    · exact h.refl s.1
    · split
      · exact h.refl s.1
      · split
        · unfold readIn
          split
          · exact h.refl s.1
          · exact readInFrom_keeps h
        · split
          · unfold writeOut
            split
            · exact h.refl s.1
            · split
              · exact h.refl s.1
              · exact writeOutFrom_keeps h
          · split
            · split
              · exact h.refl s.1
              · exact h.refl s.1
            · split
              · have hwrite := writeChain_keeps h 0
                  (blk.idReply.take (min (writableLen ds - 1) idBytes)) s.1
                split
                · rename_i hrun
                  rw [hrun] at hwrite
                  exact hwrite
                · rename_i hrun
                  rw [hrun] at hwrite
                  exact hwrite
              · exact h.refl s.1

theorem handle_keeps (blk : VirtioBlk μ) (h : Keeps g ds R) (s : σ × μ) :
    R s.1 (handle blk g ds s).2.1 := by
  have hserve := serve_keeps blk h s
  unfold handle
  rcases hrun : serve blk g ds s with ⟨⟨status, written⟩, t⟩
  rw [hrun] at hserve
  dsimp only
  split
  · exact hserve
  · exact h.trans _ _ _ hserve (writeChain_keeps h _ _ _)

end Keeps

end VirtioBlk

end Rsemu.Virtio
