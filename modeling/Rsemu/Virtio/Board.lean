import Rsemu.Virtio.Cuts
import Rsemu.Virtio.Mmio

/-!
# A block device on a board

The block device behind the transport, and a small board to run it on: 64 KiB of memory at
address 0, and the device's own register block in the space it masters. Anything else is
unmapped. A descriptor aimed at the register block writes its registers.
-/

namespace Rsemu.Virtio

open Rsemu.Codec (Bytes fromLe fromLe_lt leBytes)

variable {ρ μ : Type}

def blkBackend (ω : Type) : Backend ω := ⟨1, id⟩

def VirtioBlk.handleOn (blk : VirtioBlk μ) (g : Guest (Machine (ρ × μ))) (ds : List Descriptor)
    (m : Machine (ρ × μ)) : Nat × Machine (ρ × μ) :=
  let (count, (m', disk)) := blk.handle g ds (m, m.world.2)
  (count, { m' with world := (m'.world.1, disk) })

theorem VirtioBlk.handleOn_busy (blk : VirtioBlk μ) {g : Guest (Machine (ρ × μ))}
    {b : Backend (ρ × μ)} (hwrite : ∀ m at_ bs, m.regs.engine = true →
      Busy b m (g.writeBytes at_ bs m).2) (ds : List Descriptor) {m : Machine (ρ × μ)}
    (hengine : m.regs.engine = true) : Busy b m (blk.handleOn g ds m).2 := by
  have hkeeps : VirtioBlk.Keeps g ds fun m m' => m.regs.engine = true → Busy b m m' := by
    refine ⟨fun m _ => .refl m, fun m m' m'' h h' hrun => ?_, fun m at_ bs _ hrun =>
      hwrite m at_ bs hrun⟩
    exact (h hrun).trans (h' ((h hrun).engine.trans hrun))
  have hbusy := VirtioBlk.handle_keeps blk hkeeps (m, m.world.2) hengine
  exact .world _ hbusy

theorem writeBusy_world {ω : Type} (offset value : Nat) (m : Machine ω) :
    (m.writeBusy (blkBackend ω) offset value).world = m.world := by
  unfold Machine.writeBusy Machine.writeRegister
  rcases m.regs.state.write offset value with ⟨state, _ | index | _ | level⟩
  · rfl
  · dsimp only
    split
    · rfl
    · rfl
  · rfl
  · rfl

def ramLen : Nat := 0x10000

def window : Nat := 0x20000

/-- A write by the device: to memory, or to its own registers. -/
def boardWrite (at_ : Nat) (bs : Bytes) (m : Machine ((Nat → UInt8) × μ)) :
    Bool × Machine ((Nat → UInt8) × μ) :=
  if bs.length = 0 then (true, m)
  else if at_ + bs.length ≤ ramLen then
    (true, { m with world := (put m.world.1 at_ bs, m.world.2) })
  else if window ≤ at_ ∧ at_ + bs.length ≤ window + 0x100 ∧ bs.length = 4 ∧ at_ % 4 = 0 then
    (true, m.writeBusy (blkBackend _) (at_ - window) (fromLe bs))
  else (false, m)

theorem boardWrite_elsewhere {at_ x : Nat} {bs : Bytes} {m : Machine ((Nat → UInt8) × μ)}
    (hout : ¬ (at_ ≤ x ∧ x < at_ + bs.length)) :
    (boardWrite at_ bs m).2.world.1 x = m.world.1 x := by
  unfold boardWrite
  split
  · rfl
  split
  · exact if_neg hout
  split
  · obtain ⟨offset, hoffset⟩ : ∃ offset, offset = at_ - window := ⟨_, rfl⟩
    rw [← hoffset]
    exact congrFun (congrArg Prod.fst (writeBusy_world offset (fromLe bs) m)) x
  · rfl

/-- Memory with the device's registers above it. -/
def board : Guest (Machine ((Nat → UInt8) × μ)) where
  read m at_ n := if at_ + n ≤ ramLen then some (fromLe (get m.world.1 at_ n)) else none
  readBytes m at_ n := if n = 0 ∨ at_ + n ≤ ramLen then some (get m.world.1 at_ n) else none
  write at_ n value m := boardWrite at_ (leBytes n value) m
  writeBytes at_ bs m := boardWrite at_ bs m

theorem boardWrite_busy {at_ : Nat} {bs : Bytes} {m : Machine ((Nat → UInt8) × μ)} :
    Busy (blkBackend _) m (boardWrite at_ bs m).2 := by
  unfold boardWrite
  split
  · exact .refl m
  · split
    · exact .world _ (.refl m)
    · split
      · dsimp only
        exact Busy.write (at_ - window) (fromLe bs) (.refl m)
      · exact .refl m

theorem board_read_lt (m : Machine ((Nat → UInt8) × μ)) (at_ n value : Nat)
    (h : board.read m at_ n = some value) : value < 256 ^ n := by
  simp only [board] at h
  split at h
  · rw [← Option.some.inj h]
    refine lt_of_lt_of_eq (fromLe_lt _) ?_
    simp [get]
  · cases h

theorem board_read_visible (m m' : Machine ((Nat → UInt8) × μ)) (hworld : m.world = m'.world)
    (_ : m.regs.state = m'.regs.state) : board.read m = board.read m' := by
  simp only [board, hworld]

/-- The block device on that board. -/
def VirtioBlk.onBoard (blk : VirtioBlk μ) : Device ((Nat → UInt8) × μ) where
  toBackend := blkBackend _
  guest := board
  handle _ _ ds m := blk.handleOn board ds m
  read_lt := board_read_lt
  read_visible := board_read_visible
  write_busy := fun _ _ _ _ _ => boardWrite_busy
  handle_busy := fun _ _ ds _ h => blk.handleOn_busy (fun _ _ _ _ => boardWrite_busy) ds h

def zeroDisk : Device ((Nat → UInt8) × (Nat → UInt8)) := (sectorDisk false).onBoard

/-- Rings on the board: the table at 4096, the available ring at 8192, the used ring at
16384. -/
def boardLayout : Layout := ⟨4, 0x1000, 0x2000, 0x4000, true⟩

def descriptorBytes (d : Descriptor) : Bytes :=
  leBytes 8 d.addr ++ leBytes 4 d.len ++ leBytes 2 d.flags ++ leBytes 2 d.next

end Rsemu.Virtio
