import Rsemu.Nvme.Walk
import Rsemu.Nvme.Controller

/-!
# Reads and writes move the blocks they name

A command's chunks are found before anything moves, and are what its entries lay out. A Read
that succeeds has laid the medium's bytes out over the chunks, in their order, and a Write has
gathered the medium's bytes from them; nothing else has changed. What is said of guest memory is
said where it is plain: reads and writes there are of the bytes that are seen.
-/

namespace Rsemu.Nvme

open Codec (Bytes)

/-- The chunk stays within one page. -/
def InPage (page : Nat) (c : Chunk) : Prop := c.1 % page + c.2 ≤ page

theorem Describes.chunks {es : Entries} {page : Nat} {p : Place} {cs : List Chunk}
    (h : Describes es page p cs) : (cs.map (·.2)).sum = p.left ∧ ∀ c ∈ cs, InPage page c := by
  induction h with
  | last he halign hleft =>
    refine ⟨by simp, fun c hc => ?_⟩
    obtain rfl := List.mem_singleton.mp hc
    unfold InPage
    dsimp only
    omega
  | data he halign hleft hslot _ ih =>
    obtain ⟨hsum, hin⟩ := ih
    refine ⟨?_, fun c hc => ?_⟩
    · dsimp only at hsum ⊢
      rw [List.map_cons, List.sum_cons, hsum]
      omega
    · rcases List.mem_cons.mp hc with rfl | hc
      · unfold InPage
        dsimp only
        omega
      · exact hin c hc
  | chain he halign hleft hslot _ ih => exact ih

theorem Layout.chunks {es : Entries} {prp1 prp2 len page : Nat} {cs : List Chunk}
    (hpage : 0 < page) (h : Layout es prp1 prp2 len page cs) :
    (cs.map (·.2)).sum = len ∧ ∀ c ∈ cs, InPage page c := by
  have hmod := Nat.mod_lt prp1 hpage
  have hfirst : 0 < leftOver prp1 len page →
      page - prp1 % page + leftOver prp1 len page = len := by
    intro hpos
    unfold leftOver at hpos ⊢
    omega
  have hin : InPage page (prp1, page - prp1 % page) := by
    unfold InPage
    dsimp only
    omega
  cases h with
  | empty hlen => exact ⟨hlen.symm, fun c hc => nomatch hc⟩
  | one hlen halign hleft =>
    refine ⟨by simp, fun c hc => ?_⟩
    obtain rfl := List.mem_singleton.mp hc
    unfold leftOver at hleft
    unfold InPage
    dsimp only
    omega
  | two halign hpos hleft halign₂ =>
    refine ⟨by simpa using hfirst hpos, fun c hc => ?_⟩
    rcases List.mem_cons.mp hc with rfl | hc
    · exact hin
    · obtain rfl := List.mem_singleton.mp hc
      unfold InPage
      dsimp only
      omega
  | more halign hleft halign₂ rest =>
    obtain ⟨hsum, hpages⟩ := rest.chunks
    refine ⟨?_, fun c hc => ?_⟩
    · rw [List.map_cons, List.sum_cons, hsum]
      exact hfirst (by omega)
    · rcases List.mem_cons.mp hc with rfl | hc
      · exact hin
      · exact hpages c hc

section

variable {σ μ : Type}

/-- Guest memory as it is seen, plain at a chunk: what is read there is what is seen, and what
is written there, and nothing else, is what is seen then. -/
structure Guest.PlainAt (g : Guest σ) (view : σ → Memory) (c : Chunk) : Prop where
  read : ∀ s bytes, g.read s c.1 c.2 = some bytes → (view s).read c.1 c.2 = some bytes
  write : ∀ s (bytes : Bytes), bytes.length = c.2 → (g.write s c.1 bytes).1 = true →
    view (g.write s c.1 bytes).2 = (view s).put c.1 bytes
  rings : ∀ s bytes, g.rings s c.1 bytes = []

/-- A medium is its bytes. -/
structure Medium.Flat (m : Medium μ) (view : μ → Memory) : Prop where
  read : ∀ s at_ n bytes, m.readAt s at_ n = some bytes → (view s).read at_ n = some bytes
  write : ∀ s at_ bytes, (m.writeAt s at_ bytes).1 = true →
    view (m.writeAt s at_ bytes).2 = (view s).put at_ bytes

variable {b : Board σ μ} {view : σ → Memory} {mview : μ → Memory}

variable {w : World σ μ} {cs : List Chunk} {cmd : Command}

theorem writeGuest_plain {c : Chunk} (hplain : b.guest.PlainAt view c) {bytes : Bytes}
    (hlen : bytes.length = c.2) (hok : (w.writeGuest b c.1 bytes).1 = true) :
    view (w.writeGuest b c.1 bytes).2.guest = (view w.guest).put c.1 bytes ∧
      (w.writeGuest b c.1 bytes).2.medium = w.medium ∧
      (w.writeGuest b c.1 bytes).2.state = w.state := by
  unfold World.writeGuest at hok ⊢
  dsimp only at hok ⊢
  rw [hplain.rings]
  exact ⟨hplain.write w.guest bytes hlen hok, rfl, rfl⟩

theorem readChunks_success (hflat : b.media.Flat mview) {at_ : Nat}
    (hplain : ∀ c ∈ cs, b.guest.PlainAt view c) (hok : (w.readChunks b cs at_).1 = stSuccess) :
    ∃ data, (mview w.medium).read at_ (cs.map (·.2)).sum = some data ∧
      view (w.readChunks b cs at_).2.guest = (view w.guest).spread cs data ∧
      (w.readChunks b cs at_).2.medium = w.medium ∧
      (w.readChunks b cs at_).2.state = w.state := by
  induction cs generalizing w at_ with
  | nil => exact ⟨[], rfl, rfl, rfl, rfl⟩
  | cons c cs ih =>
    obtain ⟨addr, n⟩ := c
    rw [World.readChunks] at hok ⊢
    cases hread : b.media.readAt w.medium at_ n with
    | none =>
      rw [hread] at hok
      exact absurd hok (show stUnrecoveredRead ≠ stSuccess by decide)
    | some bytes =>
      rw [hread] at hok
      dsimp only at hok ⊢
      split at hok
      · rename_i hwritten
        rw [if_pos hwritten]
        have hbytes := hflat.read _ _ _ _ hread
        have hlen : bytes.length = n := (Memory.read_eq_some_iff.mp hbytes).1
        obtain ⟨hview, hmedium, hstate⟩ := writeGuest_plain
          (hplain (addr, n) List.mem_cons_self) hlen hwritten
        obtain ⟨data, hdata, hspread, hmedium', hstate'⟩ :=
          ih (fun c hc => hplain c (List.mem_cons_of_mem _ hc)) hok
        rw [hmedium] at hdata
        refine ⟨bytes ++ data, ?_, ?_, hmedium'.trans hmedium, hstate'.trans hstate⟩
        · rw [List.map_cons, List.sum_cons]
          exact Memory.read_add hbytes hdata
        · rw [hspread, hview, Memory.spread, ← hlen, List.take_left, List.drop_left]
      · exact absurd hok (show stDataTransfer ≠ stSuccess by decide)

theorem writeChunks_success (hflat : b.media.Flat mview) {at_ : Nat}
    (hplain : ∀ c ∈ cs, b.guest.PlainAt view c) (hok : (w.writeChunks b cs at_).1 = stSuccess) :
    ∃ data, (view w.guest).gather cs = some data ∧ data.length = (cs.map (·.2)).sum ∧
      mview (w.writeChunks b cs at_).2.medium = (mview w.medium).put at_ data ∧
      (w.writeChunks b cs at_).2.guest = w.guest ∧
      (w.writeChunks b cs at_).2.state = w.state := by
  induction cs generalizing w at_ with
  | nil => exact ⟨[], rfl, rfl, (Memory.put_nil _ _).symm, rfl, rfl⟩
  | cons c cs ih =>
    obtain ⟨addr, n⟩ := c
    rw [World.writeChunks] at hok ⊢
    cases hread : b.guest.read w.guest addr n with
    | none =>
      rw [hread] at hok
      exact absurd hok (show stDataTransfer ≠ stSuccess by decide)
    | some bytes =>
      rw [hread] at hok
      dsimp only at hok ⊢
      split at hok
      · rename_i hwritten
        rw [if_pos hwritten]
        have hbytes := (hplain (addr, n) List.mem_cons_self).read _ _ hread
        have hlen : bytes.length = n := (Memory.read_eq_some_iff.mp hbytes).1
        obtain ⟨data, hdata, hsum, hmedium, hguest, hstate⟩ :=
          ih (fun c hc => hplain c (List.mem_cons_of_mem _ hc)) hok
        refine ⟨bytes ++ data, ?_, ?_, ?_, hguest, hstate⟩
        · dsimp only at hdata
          rw [Memory.gather, hbytes, hdata]
          rfl
        · rw [List.length_append, hlen, hsum, List.map_cons, List.sum_cons]
        · rw [hmedium]
          dsimp only
          rw [hflat.write _ _ _ hwritten, ← hlen, Memory.put_append]
      · exact absurd hok (show stWriteFault ≠ stSuccess by decide)

/-- A status that says the command was not begun. -/
def Refusal (status : UInt16) : Prop :=
  status = stLbaRange ∨ status = stInvalidField ∨ status = stPrpOffset

instance (status : UInt16) : Decidable (Refusal status) :=
  inferInstanceAs (Decidable (_ ∨ _ ∨ _))

theorem readChunks_not_refusal {at_ : Nat} : ¬ Refusal (w.readChunks b cs at_).1 := by
  induction cs generalizing w at_ with
  | nil => exact (show ¬ Refusal stSuccess by decide)
  | cons c cs ih =>
    rw [World.readChunks]
    cases b.media.readAt w.medium at_ c.2 with
    | none => exact (show ¬ Refusal stUnrecoveredRead by decide)
    | some bytes =>
      dsimp only
      split
      · exact ih
      · exact (show ¬ Refusal stDataTransfer by decide)

theorem writeChunks_not_refusal {at_ : Nat} : ¬ Refusal (w.writeChunks b cs at_).1 := by
  induction cs generalizing w at_ with
  | nil => exact (show ¬ Refusal stSuccess by decide)
  | cons c cs ih =>
    rw [World.writeChunks]
    cases b.guest.read w.guest c.1 c.2 with
    | none => exact (show ¬ Refusal stDataTransfer by decide)
    | some bytes =>
      dsimp only
      split
      · exact ih
      · exact (show ¬ Refusal stWriteFault by decide)

theorem transfer_refused {offset len : Nat} {write : Bool}
    (h : Refusal (w.transfer b cmd offset len write).1) :
    (w.transfer b cmd offset len write).2 = w := by
  unfold World.transfer at h ⊢
  cases hchunks : prpChunks (w.entries b) cmd.prp1.toNat cmd.prp2.toNat len w.state.page with
  | error status => rfl
  | ok chunks =>
    rw [hchunks] at h
    cases write with
    | true => exact absurd h writeChunks_not_refusal
    | false => exact absurd h readChunks_not_refusal

theorem read_refused (h : Refusal (w.read b cmd).1) : (w.read b cmd).2 = w := by
  unfold World.read at h ⊢
  split at h
  · rw [if_pos ‹_›]
  rw [if_neg ‹_›]
  cases hrange : b.ns.range cmd.extent.1 cmd.extent.2 with
  | none => rfl
  | some extent =>
    rw [hrange] at h
    dsimp only at h ⊢
    split at h
    · rw [if_pos ‹_›]
    · rw [if_neg ‹_›]
      exact transfer_refused h

theorem write_refused (h : Refusal (w.write b cmd).1) : (w.write b cmd).2 = w := by
  unfold World.write at h ⊢
  split at h
  · rw [if_pos ‹_›]
  rw [if_neg ‹_›]
  cases hrange : b.ns.range cmd.extent.1 cmd.extent.2 with
  | none => rfl
  | some extent =>
    rw [hrange] at h
    dsimp only at h ⊢
    split at h
    · rw [if_pos ‹_›]
    rw [if_neg ‹_›]
    split at h
    · rw [if_pos ‹_›]
    · rw [if_neg ‹_›]
      exact transfer_refused h

def Namespace.lbaBytes (ns : Namespace) : Nat := 2 ^ ns.lbaShift

theorem Namespace.range_eq_some {ns : Namespace} {slba count : Nat} {extent : Nat × Nat}
    (h : ns.range slba count = some extent) :
    extent = (slba * ns.lbaBytes, count * ns.lbaBytes) := by
  have hfits := ns.fits
  unfold Namespace.range at h
  split at h
  · cases h
  split at h
  · cases h
  rename_i hblocks
  have hend : (slba + count) * ns.lbaBytes ≤ ns.blocks * ns.lbaBytes :=
    Nat.mul_le_mul_right _ (Nat.not_lt.mp hblocks)
  rw [Nat.add_mul] at hend
  cases h
  unfold Namespace.lbaBytes at hend ⊢
  rw [Nat.shiftLeft_eq, Nat.shiftLeft_eq, Nat.mod_eq_of_lt (by omega), Nat.mod_eq_of_lt (by omega)]

/-- **The named blocks are in the chunks**, in the chunks' order, and nothing else has changed.
Of chunks that overlap the later one is seen. -/
structure BlocksRead (b : Board σ μ) (view : σ → Memory) (mview : μ → Memory) (cmd : Command)
    (cs : List Chunk) (w w' : World σ μ) (data : Bytes) : Prop where
  medium : (mview w.medium).read (cmd.extent.1 * b.ns.lbaBytes) (cmd.extent.2 * b.ns.lbaBytes)
    = some data
  laid : view w'.guest = (view w.guest).spread cs data
  gathered : cs.Pairwise Memory.Apart → (view w'.guest).gather cs = some data
  others : ∀ a, (∀ c ∈ cs, ¬ Memory.Within c a) → view w'.guest a = view w.guest a
  kept : w'.medium = w.medium

/-- **The chunks are in the named blocks**, and nothing else has changed. -/
structure BlocksWritten (b : Board σ μ) (view : σ → Memory) (mview : μ → Memory) (cmd : Command)
    (cs : List Chunk) (w w' : World σ μ) (data : Bytes) : Prop where
  gathered : (view w.guest).gather cs = some data
  medium : (mview w'.medium).read (cmd.extent.1 * b.ns.lbaBytes) (cmd.extent.2 * b.ns.lbaBytes)
    = some data
  others : ∀ a, a < cmd.extent.1 * b.ns.lbaBytes ∨
    (cmd.extent.1 + cmd.extent.2) * b.ns.lbaBytes ≤ a → mview w'.medium a = mview w.medium a
  kept : w'.guest = w.guest

def Command.chunks (b : Board σ μ) (w : World σ μ) (cmd : Command) (len : Nat) :
    Except UInt16 (List Chunk) :=
  prpChunks (w.entries b) cmd.prp1.toNat cmd.prp2.toNat len w.state.page

theorem chunks_sum {len : Nat} (hpage : HostPage w.state.page) (h : cmd.chunks b w len = .ok cs) :
    Layout (w.entries b) cmd.prp1.toNat cmd.prp2.toNat len w.state.page cs ∧
      (cs.map (·.2)).sum = len ∧ ∀ c ∈ cs, InPage w.state.page c := by
  have hanswered := prpChunks_answered (w.entries b) cmd.prp1.toNat cmd.prp2.toNat len hpage
  unfold Command.chunks at h
  rw [h] at hanswered
  exact ⟨hanswered, hanswered.chunks (Nat.lt_of_lt_of_le (by decide) hpage.large)⟩

theorem transfer_success {offset len : Nat} {write : Bool} (hpage : HostPage w.state.page)
    (hok : (w.transfer b cmd offset len write).1 = stSuccess) :
    ∃ cs, cmd.chunks b w len = .ok cs ∧ w.transfer b cmd offset len write =
      if write then w.writeChunks b cs offset else w.readChunks b cs offset := by
  unfold World.transfer at hok ⊢
  unfold Command.chunks
  cases hchunks : prpChunks (w.entries b) cmd.prp1.toNat cmd.prp2.toNat len w.state.page with
  | error status =>
    rw [hchunks] at hok
    have hanswered := prpChunks_answered (w.entries b) cmd.prp1.toNat cmd.prp2.toNat len hpage
    rw [hchunks] at hanswered
    obtain rfl : status = stSuccess := hok
    rcases hanswered with ⟨hne, -⟩ | ⟨hne, -⟩ <;> exact absurd hne (by decide)
  | ok cs => exact ⟨cs, rfl, rfl⟩

theorem read_transfer (hok : (w.read b cmd).1 = stSuccess) :
    w.read b cmd = w.transfer b cmd (cmd.extent.1 * b.ns.lbaBytes)
      (cmd.extent.2 * b.ns.lbaBytes) false := by
  unfold World.read at hok ⊢
  split at hok
  · exact absurd hok (show stInvalidField ≠ stSuccess by decide)
  rw [if_neg ‹_›]
  cases hrange : b.ns.range cmd.extent.1 cmd.extent.2 with
  | none =>
    rw [hrange] at hok
    exact absurd hok (show stLbaRange ≠ stSuccess by decide)
  | some extent =>
    rw [hrange] at hok
    obtain rfl := Namespace.range_eq_some hrange
    dsimp only at hok ⊢
    split at hok
    · exact absurd hok (show stInvalidField ≠ stSuccess by decide)
    · rw [if_neg ‹_›]

theorem write_transfer (hok : (w.write b cmd).1 = stSuccess) :
    w.write b cmd = w.transfer b cmd (cmd.extent.1 * b.ns.lbaBytes)
      (cmd.extent.2 * b.ns.lbaBytes) true := by
  unfold World.write at hok ⊢
  split at hok
  · exact absurd hok (show stInvalidField ≠ stSuccess by decide)
  rw [if_neg ‹_›]
  cases hrange : b.ns.range cmd.extent.1 cmd.extent.2 with
  | none =>
    rw [hrange] at hok
    exact absurd hok (show stLbaRange ≠ stSuccess by decide)
  | some extent =>
    rw [hrange] at hok
    obtain rfl := Namespace.range_eq_some hrange
    dsimp only at hok ⊢
    split at hok
    · exact absurd hok (show stInvalidField ≠ stSuccess by decide)
    rw [if_neg ‹_›]
    split at hok
    · exact absurd hok (show stWriteFault ≠ stSuccess by decide)
    · rw [if_neg ‹_›]

theorem read_success (hpage : HostPage w.state.page) (hflat : b.media.Flat mview)
    (hok : (w.read b cmd).1 = stSuccess) :
    ∃ cs, cmd.chunks b w (cmd.extent.2 * b.ns.lbaBytes) = .ok cs ∧
      ((∀ c ∈ cs, b.guest.PlainAt view c) →
        ∃ data, BlocksRead b view mview cmd cs w (w.read b cmd).2 data) := by
  have htransfer := read_transfer hok
  rw [htransfer] at hok ⊢
  obtain ⟨cs, hchunks, heq⟩ := transfer_success hpage hok
  rw [heq] at hok ⊢
  refine ⟨cs, hchunks, fun hplain => ?_⟩
  obtain ⟨-, hsum, -⟩ := chunks_sum hpage hchunks
  obtain ⟨data, hdata, hspread, hmedium, -⟩ := readChunks_success hflat hplain hok
  rw [hsum] at hdata
  have hlen := (Memory.read_eq_some_iff.mp hdata).1
  refine ⟨data, hdata, hspread, fun happart => ?_, fun a ha => ?_, hmedium⟩
  · exact (congrArg (Memory.gather · cs) hspread).trans
      (Memory.gather_spread happart (hsum.trans hlen.symm))
  · exact (congrFun hspread a).trans (Memory.spread_apart ha)

theorem write_success (hpage : HostPage w.state.page) (hflat : b.media.Flat mview)
    (hok : (w.write b cmd).1 = stSuccess) :
    ∃ cs, cmd.chunks b w (cmd.extent.2 * b.ns.lbaBytes) = .ok cs ∧
      ((∀ c ∈ cs, b.guest.PlainAt view c) →
        ∃ data, BlocksWritten b view mview cmd cs w (w.write b cmd).2 data) := by
  have htransfer := write_transfer hok
  rw [htransfer] at hok ⊢
  obtain ⟨cs, hchunks, heq⟩ := transfer_success hpage hok
  rw [heq] at hok ⊢
  refine ⟨cs, hchunks, fun hplain => ?_⟩
  obtain ⟨-, hsum, -⟩ := chunks_sum hpage hchunks
  obtain ⟨data, hdata, hlen, hmedium, hguest, -⟩ := writeChunks_success hflat hplain hok
  rw [hsum] at hlen
  refine ⟨data, hdata, ?_, fun a ha => ?_, hguest⟩
  · rw [← hlen]
    exact (congrArg (Memory.read · _ _) hmedium).trans (Memory.read_put _ _ data)
  · rw [Nat.add_mul] at ha
    exact (congrFun hmedium a).trans (Memory.put_apart (by omega))

theorem chunks_unreadable {len : Nat} (hpage : HostPage w.state.page) (hlen : len ≤ maxTransfer)
    (h : cmd.chunks b w len = .error stDataTransfer) :
    ∃ q, Visits (w.entries b) w.state.page
      ⟨cmd.prp2.toNat, leftOver cmd.prp1.toNat len w.state.page⟩ q ∧ w.entries b q.slot = none := by
  have hanswered := prpChunks_answered (w.entries b) cmd.prp1.toNat cmd.prp2.toNat len hpage
  unfold Command.chunks at h
  rw [h] at hanswered
  rcases hanswered with ⟨hne, -⟩ | ⟨-, -, -, hlong | hnone⟩
  · exact absurd hne (by decide)
  · exact absurd hlong (hpage.not_tooLong hlen)
  · exact hnone

/-- **Reads and writes move exactly the blocks they name**, for every page size the controller
can be enabled with. The chunks are the layout that the entries describe, they add up and lie
in one page each; no layout of lists that start their pages is too long; a command that
succeeds has moved the blocks; and one that is refused has changed nothing. -/
theorem moves_blocks (b : Board σ μ) (w : World σ μ) (cmd : Command)
    (hpage : HostPage w.state.page) (hflat : b.media.Flat mview) :
    (∀ len cs, cmd.chunks b w len = .ok cs →
      Layout (w.entries b) cmd.prp1.toNat cmd.prp2.toNat len w.state.page cs ∧
        (cs.map (·.2)).sum = len ∧ ∀ c ∈ cs, InPage w.state.page c) ∧
    (∀ len ≤ maxTransfer, ∀ cs,
      Layout (w.entries b) cmd.prp1.toNat cmd.prp2.toNat len w.state.page cs →
      ¬ StartsInside (w.entries b) cmd.prp1.toNat cmd.prp2.toNat len w.state.page →
      cmd.chunks b w len = .ok cs) ∧
    (∀ len ≤ maxTransfer, cmd.chunks b w len = .error stDataTransfer →
      ∃ q, Visits (w.entries b) w.state.page
        ⟨cmd.prp2.toNat, leftOver cmd.prp1.toNat len w.state.page⟩ q ∧
          w.entries b q.slot = none) ∧
    ((w.read b cmd).1 = stSuccess →
      ∃ cs, cmd.chunks b w (cmd.extent.2 * b.ns.lbaBytes) = .ok cs ∧
        ((∀ c ∈ cs, b.guest.PlainAt view c) →
          ∃ data, BlocksRead b view mview cmd cs w (w.read b cmd).2 data)) ∧
    ((w.write b cmd).1 = stSuccess →
      ∃ cs, cmd.chunks b w (cmd.extent.2 * b.ns.lbaBytes) = .ok cs ∧
        ((∀ c ∈ cs, b.guest.PlainAt view c) →
          ∃ data, BlocksWritten b view mview cmd cs w (w.write b cmd).2 data)) ∧
    (Refusal (w.read b cmd).1 → (w.read b cmd).2 = w) ∧
    (Refusal (w.write b cmd).1 → (w.write b cmd).2 = w) :=
  ⟨fun _ _ h => chunks_sum hpage h,
    fun _ hlen _ h hinside => prpChunks_of_layout hpage hlen h hinside,
    fun _ hlen h => chunks_unreadable hpage hlen h, read_success hpage hflat,
    write_success hpage hflat,
    read_refused, write_refused⟩

end

def ram : Guest Memory where
  read m at_ n := m.read at_ n
  write m at_ bytes :=
    if (m.read at_ bytes.length).isSome then (true, m.put at_ bytes) else (false, m)
  rings _ _ _ := []

def ramStore : Medium Memory where
  readAt m at_ n := m.read at_ n
  writeAt m at_ bytes :=
    if (m.read at_ bytes.length).isSome then (true, m.put at_ bytes) else (false, m)
  flush m := (true, m)

def oneBlock : Board Memory Memory where
  guest := ram
  media := ramStore
  ns := ⟨9, 1, false, by decide, by decide⟩
  params := oneQueue
  identifyController := []
  identifyNamespace := []
  identifyNsDescs := []

def idleWorld : World Memory Memory where
  state := State.new
  guest := fun a => if a < 12288 then some 1 else none
  medium := fun a => if a < 512 then some 2 else none
  master := true
  irq := false

/-- A byte at every address. -/
abbrev Cells := Nat → UInt8

namespace Cells

def view (s : Cells) : Memory := fun a => some (s a)

def put (s : Cells) (at_ : Nat) (bytes : Bytes) : Cells := fun a =>
  if at_ ≤ a ∧ a < at_ + bytes.length then bytes.getD (a - at_) 0 else s a

theorem read_view (s : Cells) (at_ n : Nat) :
    s.view.read at_ n = some ((List.range' at_ n).map s) := by
  induction n generalizing at_ with
  | zero => rfl
  | succ n ih => rw [Memory.read, ih, List.range'_succ]; rfl

theorem view_put (s : Cells) (at_ : Nat) (bytes : Bytes) :
    (s.put at_ bytes).view = s.view.put at_ bytes := by
  funext a
  unfold view put Memory.put
  split
  · rw [List.getD_eq_getElem _ _ (by omega), List.getElem?_eq_getElem (by omega)]
  · rfl

def guest : Guest Cells where
  read s at_ n := some ((List.range' at_ n).map s)
  write s at_ bytes := (true, s.put at_ bytes)
  rings _ _ _ := []

theorem guest_plainAt (c : Chunk) : guest.PlainAt view c where
  read s _ h := (s.read_view _ _).trans h
  write s bytes _ _ := s.view_put _ bytes
  rings _ _ := rfl

def medium : Medium Cells where
  readAt s at_ n := some ((List.range' at_ n).map s)
  writeAt s at_ bytes := (true, s.put at_ bytes)
  flush s := (true, s)

theorem medium_flat : medium.Flat view where
  read s _ _ _ h := (s.read_view _ _).trans h
  write s _ bytes _ := s.view_put _ bytes

end Cells

def tenBlocks : Board Cells Cells where
  guest := Cells.guest
  media := Cells.medium
  ns := ⟨9, 10, false, by decide, by decide⟩
  params := oneQueue
  identifyController := []
  identifyNamespace := []
  identifyNsDescs := []

/-- A list of two entries, at the start of a page. -/
def listWorld : World Cells Cells where
  state := State.new
  guest := fun a => if a = 0x3001 then 0x50 else if a = 0x3009 then 0x60 else 0
  medium := fun _ => 2
  master := true
  irq := false

/-- A command about all of the blocks, from the last eighth of a page on. -/
def allBlocks (opcode : UInt8) : Command := ⟨opcode, 0, 0, 1, 0x1e00, 0x3000, 0, 0, 9⟩

theorem moves_blocks_allBlocks :
    ∃ cs, cs = [(0x1e00, 512), (0x5000, 4096), (0x6000, 512)] ∧
      (∃ data, BlocksRead tenBlocks Cells.view Cells.view (allBlocks 0x02) cs listWorld
        (listWorld.read tenBlocks (allBlocks 0x02)).2 data) ∧
      ∃ data, BlocksWritten tenBlocks Cells.view Cells.view (allBlocks 0x01) cs listWorld
        (listWorld.write tenBlocks (allBlocks 0x01)).2 data := by
  have hpage : HostPage listWorld.state.page := ⟨0, by decide, by decide⟩
  have hchunks : (allBlocks 0x02).chunks tenBlocks listWorld 5120 =
      .ok [(0x1e00, 512), (0x5000, 4096), (0x6000, 512)] := by decide
  obtain ⟨cs, hcs, hread⟩ := (moves_blocks tenBlocks listWorld (allBlocks 0x02)
    hpage Cells.medium_flat).2.2.2.1 rfl
  obtain ⟨cs', hcs', hwrite⟩ := (moves_blocks tenBlocks listWorld (allBlocks 0x01)
    hpage Cells.medium_flat).2.2.2.2.1 rfl
  cases hcs.symm.trans hchunks
  cases hcs'.symm.trans hchunks
  exact ⟨_, rfl, hread fun c _ => Cells.guest_plainAt c, hwrite fun c _ => Cells.guest_plainAt c⟩

end Rsemu.Nvme
