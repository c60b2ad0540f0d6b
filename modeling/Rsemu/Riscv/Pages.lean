import Rsemu.Riscv.Walk

/-!
# A translation speaks for its page

`Leads` is what the tables say: the entries from a table down, each read and well formed, and
the leaf they end at. A walk that succeeds has been led (`leads_of_ok`), and where the tables
lead a walk succeeds (`ok_of_leads`).

The write-back changes the memory the walk was made in, perhaps a table it passed through. But
no pointer is a leaf, entries are aligned, and the two bits that are set are none of those a
walk looks at (`Marked`); so the tables lead to the same leaf as before (`Leads.marked`), from
any address of the page (`SamePage`), and this time it lacks nothing.
-/

namespace Rsemu.Riscv

open Codec (fromLe fromLe_leBytes leBytes length_leBytes)

/-- The entry maps a page. -/
def isLeaf (pte : U64) : Prop := pte &&& (Pte.r ||| Pte.x) ≠ 0

/-- **The tables lead to a leaf**: from a table with `n` levels below it down to the entry `pte`
at `at_`, through entries that are `readable`. -/
inductive Csrs.Leads (c : Csrs) (readable : U64 → Prop) (m : Memory) (addr : U64) :
    Nat → U64 → Nat → U64 → U64 → Prop
  | leaf {level : Nat} {table pte : U64} (hreadable : readable (c.entryAddr addr level table))
      (hread : readPte m (c.entryAddr addr level table) (scheme c.xlen).pteBytes = some pte)
      (hformed : c.malformed pte = false) (hleaf : isLeaf pte) :
      c.Leads readable m addr (level + 1) table level (c.entryAddr addr level table) pte
  | pointer {n level : Nat} {table at_ pte leaf : U64}
      (hreadable : readable (c.entryAddr addr n table))
      (hread : readPte m (c.entryAddr addr n table) (scheme c.xlen).pteBytes = some pte)
      (hformed : c.malformed pte = false) (hpointer : ¬ isLeaf pte)
      (hrest : c.Leads readable m addr n (c.ppn pte <<< pageBits) level at_ leaf) :
      c.Leads readable m addr (n + 1) table level at_ leaf

/-- The entries a walk may read: a guest's is subject to protection, a debugger's is not. -/
def Csrs.Readable (c : Csrs) (kind : Option Access) (mode : Priv) (entry : U64) : Prop :=
  kind.isSome = true →
    c.pmpAllows entry (BitVec.ofNat 64 (scheme c.xlen).pteBytes) .load mode = true

/-- What else a walk asks of the leaf it ends at. -/
structure Csrs.Accepts (c : Csrs) (kind : Option Access) (mode : Priv) (level : Nat) (pte : U64) :
    Prop where
  permitted : ∀ k, kind = some k → c.permitted pte k mode = true
  aligned : c.misaligned level pte = false

section

variable {c : Csrs} {m : Memory} {addr : U64} {kind : Option Access} {mode : Priv}

theorem Csrs.ok_of_leads {n level : Nat} {table at_ pte : U64}
    (h : c.Leads (c.Readable kind mode) m addr n table level at_ pte)
    (haccepts : c.Accepts kind mode level pte) :
    c.walkLevels m addr kind mode n table =
      .ok ⟨c.assemble addr level pte, leafUpdate kind at_ (scheme c.xlen).pteBytes pte⟩ := by
  have hallowed : ∀ entry, c.Readable kind mode entry → (kind.isSome &&
      !c.pmpAllows entry (BitVec.ofNat 64 (scheme c.xlen).pteBytes) .load mode) = false := by
    intro entry hentry
    cases hkind : kind.isSome with
    | false => rfl
    | true => rw [hentry hkind]; rfl
  induction h with
  | @leaf level table pte hreadable hread hformed hleaf =>
    have hpermitted : (kind.any fun kind => !c.permitted pte kind mode) = false := by
      cases kind with
      | none => rfl
      | some k => exact congrArg (!·) (haccepts.permitted k rfl)
    rw [walkLevels, hallowed _ hreadable, hread]
    dsimp only
    rw [hformed, if_neg hleaf, hpermitted, haccepts.aligned]
    rfl
  | @pointer n level table at_ pte leaf hreadable hread hformed hpointer hrest ih =>
    rw [walkLevels, hallowed _ hreadable, hread]
    dsimp only
    rw [hformed, if_pos (not_not.mp hpointer)]
    exact ih haccepts

theorem Csrs.leads_of_ok {n : Nat} {table : U64} {walked : Walked}
    (h : c.walkLevels m addr kind mode n table = .ok walked) :
    ∃ level at_ pte, c.Leads (c.Readable kind mode) m addr n table level at_ pte ∧
      c.Accepts kind mode level pte ∧
      walked = ⟨c.assemble addr level pte, leafUpdate kind at_ (scheme c.xlen).pteBytes pte⟩ := by
  induction n generalizing table with
  | zero => cases h
  | succ n ih =>
    rw [walkLevels] at h
    split at h
    · cases h
    · rename_i hallowed
      have hreadable : c.Readable kind mode (c.entryAddr addr n table) := by
        intro hsome
        rw [hsome, Bool.true_and] at hallowed
        simpa using hallowed
      split at h
      · cases h
      · rename_i pte hread
        split at h
        · cases h
        · rename_i hformed
          have hformed' : c.malformed pte = false := by simpa using hformed
          split at h
          · rename_i hpointer
            obtain ⟨level, at_, leaf, hleads, haccepts, hwalked⟩ := ih h
            exact ⟨level, at_, leaf, .pointer hreadable hread hformed' (not_not.mpr hpointer) hleads,
              haccepts, hwalked⟩
          · rename_i hleaf
            split at h
            · cases h
            · rename_i hpermitted
              split at h
              · cases h
              · rename_i haligned
                refine ⟨n, _, pte, .leaf hreadable hread hformed' hleaf, ⟨?_, ?_⟩,
                  (Except.ok.inj h).symm⟩
                · intro k hk
                  rw [hk] at hpermitted
                  simpa using hpermitted
                · simpa using haligned

end

theorem getLsbD_mask (n : Nat) {i : Nat} (hi : i < 64) : (mask n).getLsbD i = decide (i < n) := by
  have hone : (1 : U64).toNat = 1 := rfl
  unfold mask
  rw [BitVec.getLsbD, BitVec.toNat_sub, BitVec.toNat_shiftLeft, hone, Nat.one_shiftLeft]
  rcases Nat.lt_or_ge n 64 with hn | hn
  · have hlt : 2 ^ n < 2 ^ 64 := Nat.pow_lt_pow_right (by decide) hn
    have hpos : 0 < 2 ^ n := Nat.two_pow_pos n
    rw [Nat.mod_eq_of_lt hlt, show 2 ^ 64 - 1 + 2 ^ n = 2 ^ 64 + (2 ^ n - 1) by omega,
      Nat.add_mod_left, Nat.mod_eq_of_lt (by omega), Nat.testBit_two_pow_sub_one]
  · obtain ⟨k, rfl⟩ := Nat.exists_eq_add_of_le hn
    rw [Nat.pow_add, Nat.mul_mod_right, Nat.add_zero,
      Nat.mod_eq_of_lt (by decide : 2 ^ 64 - 1 < 2 ^ 64), Nat.testBit_two_pow_sub_one,
      decide_eq_true hi, decide_eq_true (by omega)]

/-- **Two addresses of one page.** -/
def SamePage (addr addr' : U64) : Prop := addr' >>> pageBits = addr >>> pageBits

section

variable {c : Csrs} {addr addr' : U64}

theorem SamePage.bit (h : SamePage addr addr') {i : Nat} (hi : pageBits ≤ i) :
    addr'.getLsbD i = addr.getLsbD i := by
  have := congrArg (fun x => x.getLsbD (i - pageBits)) h
  simp only [BitVec.getLsbD_ushiftRight] at this
  rwa [Nat.add_sub_cancel' hi] at this

theorem SamePage.shift (h : SamePage addr addr') (n : Nat) :
    addr' >>> (pageBits + n) = addr >>> (pageBits + n) := by
  rw [BitVec.shiftRight_add, BitVec.shiftRight_add, h]

theorem SamePage.entryAddr (h : SamePage addr addr') (level : Nat) (table : U64) :
    c.entryAddr addr' level table = c.entryAddr addr level table := by
  unfold Csrs.entryAddr
  dsimp only
  rw [h.shift]

theorem canonical_iff (hwidth : c.xlen = .rv64) (addr : U64) :
    c.canonical addr = true ↔ ∀ i < 64, 39 ≤ i → addr.getLsbD i = addr.getLsbD 38 := by
  have hshift : (addr <<< 25).sshiftRight 25 = addr ↔
      ∀ i < 64, 39 ≤ i → addr.getLsbD i = addr.getLsbD 38 := by
    have hbit : ∀ i < 64, ((addr <<< 25).sshiftRight 25).getLsbD i =
        if i < 39 then addr.getLsbD i else addr.getLsbD 38 := by
      intro i hi
      rw [BitVec.getLsbD_sshiftRight, decide_eq_false (by omega), Bool.not_false, Bool.true_and]
      split
      · rw [if_pos (by omega), BitVec.getLsbD_shiftLeft, decide_eq_true (by omega),
          decide_eq_false (by omega), Nat.add_sub_cancel_left]
        rfl
      · rw [if_neg (by omega), BitVec.msb_eq_getLsbD_last, BitVec.getLsbD_shiftLeft]
        rfl
    constructor
    · intro heq i hi hhigh
      have := congrArg (fun x => x.getLsbD i) heq
      rw [hbit i hi, if_neg (by omega)] at this
      exact this.symm
    · intro hext
      refine BitVec.eq_of_getLsbD_eq fun i hi => ?_
      rw [hbit i hi]
      split
      · rfl
      · exact (hext i hi (by omega)).symm
  unfold Csrs.canonical
  rw [hwidth]
  exact beq_iff_eq.trans hshift

theorem SamePage.canonical (h : SamePage addr addr') : c.canonical addr' = c.canonical addr := by
  cases hwidth : c.xlen with
  | rv32 =>
    unfold Csrs.canonical
    rw [hwidth]
  | rv64 =>
    rw [Bool.eq_iff_iff, canonical_iff hwidth, canonical_iff hwidth,
      h.bit (i := 38) (by unfold pageBits; omega)]
    refine forall_congr' fun i => forall_congr' fun _ => forall_congr' fun hhigh => ?_
    rw [h.bit (by unfold pageBits; omega)]

theorem getLsbD_assemble (c : Csrs) (addr : U64) (level : Nat) (pte : U64) {i : Nat} (hi : i < 64) :
    (c.assemble addr level pte).getLsbD i =
      if i < pageBits + (scheme c.xlen).vpnBits * level then addr.getLsbD i
      else (c.ppn pte <<< pageBits).getLsbD i := by
  unfold Csrs.assemble
  dsimp only
  rw [BitVec.getLsbD_or, BitVec.getLsbD_and, BitVec.getLsbD_and, BitVec.getLsbD_not,
    getLsbD_mask _ hi, decide_eq_true hi]
  by_cases hlow : i < pageBits + (scheme c.xlen).vpnBits * level
  · rw [decide_eq_true hlow, if_pos hlow]
    simp
  · rw [decide_eq_false hlow, if_neg hlow]
    simp

def onPage (phys addr : U64) : U64 := (phys &&& ~~~mask pageBits) ||| (addr &&& mask pageBits)

theorem getLsbD_onPage (phys addr : U64) {i : Nat} (hi : i < 64) :
    (onPage phys addr).getLsbD i = if i < pageBits then addr.getLsbD i else phys.getLsbD i := by
  unfold onPage
  rw [BitVec.getLsbD_or, BitVec.getLsbD_and, BitVec.getLsbD_and, BitVec.getLsbD_not,
    getLsbD_mask _ hi, decide_eq_true hi]
  by_cases hlow : i < pageBits
  · rw [decide_eq_true hlow, if_pos hlow]
    simp
  · rw [decide_eq_false hlow, if_neg hlow]
    simp

theorem SamePage.eq_onPage (h : SamePage addr addr') : addr' = onPage addr addr' := by
  refine BitVec.eq_of_getLsbD_eq fun i hi => ?_
  rw [getLsbD_onPage _ _ hi]
  split
  · rfl
  · rename_i hhigh
    exact h.bit (Nat.le_of_not_lt hhigh)

theorem SamePage.assemble (h : SamePage addr addr') (level : Nat) (pte : U64) :
    c.assemble addr' level pte = onPage (c.assemble addr level pte) addr' := by
  refine BitVec.eq_of_getLsbD_eq fun i hi => ?_
  rw [getLsbD_onPage _ _ hi, getLsbD_assemble _ _ _ _ hi, getLsbD_assemble _ _ _ _ hi]
  by_cases hlow : i < pageBits
  · rw [if_pos hlow, if_pos (Nat.lt_add_right _ hlow)]
  · rw [if_neg hlow, h.bit (Nat.le_of_not_lt hlow)]

end

/-- Aligned to the size of a page table entry. -/
def Csrs.Aligned (c : Csrs) (at_ : U64) : Prop := at_.toNat % (scheme c.xlen).pteBytes = 0

section

variable {c : Csrs} {m : Memory} {addr : U64} {kind : Access}

theorem toNat_page (x : U64) : (x <<< pageBits).toNat % 4096 = 0 := by
  rw [BitVec.toNat_shiftLeft, Nat.shiftLeft_eq]
  unfold pageBits
  omega

theorem Csrs.aligned_entryAddr (addr : U64) (level : Nat) {table : U64}
    (htable : table.toNat % 4096 = 0) : c.Aligned (c.entryAddr addr level table) := by
  have hentry : ∀ index : U64, ∀ bytes : Nat, bytes = 4 ∨ bytes = 8 →
      (table + index * BitVec.ofNat 64 bytes).toNat % bytes = 0 := by
    intro index bytes hbytes
    rw [BitVec.toNat_add, BitVec.toNat_mul, BitVec.toNat_ofNat]
    rcases hbytes with rfl | rfl
    · omega
    · omega
  refine hentry _ _ ?_
  cases c.xlen with
  | rv32 => exact .inl rfl
  | rv64 => exact .inr rfl

variable {at_ pte : U64}

theorem Csrs.Aligned.apart {at' : U64} (h : c.Aligned at_) (h' : c.Aligned at') (hne : at_ ≠ at') :
    at_.toNat + (scheme c.xlen).pteBytes ≤ at'.toNat ∨
      at'.toNat + (scheme c.xlen).pteBytes ≤ at_.toNat := by
  have hnat : at_.toNat ≠ at'.toNat := fun heq => hne (BitVec.eq_of_toNat_eq heq)
  unfold Csrs.Aligned at h h'
  cases hwidth : c.xlen with
  | rv32 =>
    rw [hwidth] at h h'
    change at_.toNat % 4 = 0 at h
    change at'.toNat % 4 = 0 at h'
    change at_.toNat + 4 ≤ _ ∨ at'.toNat + 4 ≤ _
    omega
  | rv64 =>
    rw [hwidth] at h h'
    change at_.toNat % 8 = 0 at h
    change at'.toNat % 8 = 0 at h'
    change at_.toNat + 8 ≤ _ ∨ at'.toNat + 8 ≤ _
    omega

theorem need_and (kind : Access) {bits : U64}
    (h : bits &&& (Pte.a ||| Pte.d) = 0#64) (pte : U64) :
    (pte ||| kind.need) &&& bits = pte &&& bits := by
  have hneed : kind.need &&& bits = 0#64 := by
    have hsub : kind.need &&& (Pte.a ||| Pte.d) = kind.need := by cases kind <;> decide
    rw [← hsub, BitVec.and_assoc, BitVec.and_comm (Pte.a ||| Pte.d), h, BitVec.and_zero]
  rw [BitVec.and_comm, BitVec.and_or_distrib_left, BitVec.and_comm bits kind.need, hneed,
    BitVec.or_zero, BitVec.and_comm]

theorem need_shift (kind : Access) (n : Nat) (pte : U64) :
    (pte ||| kind.need) >>> (10 + n) = pte >>> (10 + n) := by
  have hneed : kind.need >>> 10 = 0#64 := by cases kind <;> decide
  rw [BitVec.ushiftRight_or_distrib, BitVec.shiftRight_add kind.need, hneed, BitVec.zero_ushiftRight,
    BitVec.or_zero]

theorem ppn_need (c : Csrs) (kind : Access) (pte : U64) : c.ppn (pte ||| kind.need) = c.ppn pte := by
  unfold Csrs.ppn
  rw [show 10 = 10 + 0 from rfl, need_shift]

theorem malformed_need (c : Csrs) (kind : Access) (pte : U64) :
    c.malformed (pte ||| kind.need) = c.malformed pte := by
  unfold Csrs.malformed
  rw [need_and kind (by decide), need_and kind (by decide), need_and kind (by decide), need_shift]

theorem isLeaf_need (kind : Access) (pte : U64) : isLeaf (pte ||| kind.need) ↔ isLeaf pte := by
  unfold isLeaf
  rw [need_and kind (by decide)]

theorem permitted_need (c : Csrs) (kind k : Access) (mode : Priv) (pte : U64) :
    c.permitted (pte ||| kind.need) k mode = c.permitted pte k mode := by
  unfold Csrs.permitted
  rw [need_and kind (by decide), need_and kind (by decide), need_and kind (by decide),
    need_and kind (by decide)]

theorem misaligned_need (c : Csrs) (kind : Access) (level : Nat) (pte : U64) :
    c.misaligned level (pte ||| kind.need) = c.misaligned level pte := by
  unfold Csrs.misaligned
  rw [ppn_need]

theorem assemble_need (c : Csrs) (kind : Access) (addr : U64) (level : Nat) (pte : U64) :
    c.assemble addr level (pte ||| kind.need) = c.assemble addr level pte := by
  unfold Csrs.assemble
  rw [ppn_need]

theorem leafUpdate_need (kind : Access) (at_ : U64) (bytes : Nat) (pte : U64) :
    leafUpdate (some kind) at_ bytes (pte ||| kind.need) = none := by
  have hset : (pte ||| kind.need) &&& kind.need = kind.need := by
    refine BitVec.eq_of_getLsbD_eq fun i _ => ?_
    rw [BitVec.getLsbD_and, BitVec.getLsbD_or]
    cases pte.getLsbD i <;> cases kind.need.getLsbD i <;> rfl
  exact if_pos hset

/-- **The memory a walk leaves behind**: its leaf has its bits set, and no other byte has
changed. -/
structure Csrs.Marked (c : Csrs) (m m' : Memory) (at_ pte : U64) (kind : Access) : Prop where
  leaf : readPte m' at_ (scheme c.xlen).pteBytes = some (pte ||| kind.need)
  rest : ∀ a, a < at_.toNat ∨ at_.toNat + (scheme c.xlen).pteBytes ≤ a → m' a = m a

theorem need_lt (h : readPte m at_ (scheme c.xlen).pteBytes = some pte) :
    (pte ||| kind.need).toNat < 256 ^ (scheme c.xlen).pteBytes := by
  obtain ⟨bs, hread, hpte⟩ := Option.map_eq_some_iff.mp h
  have hlt := Codec.fromLe_lt bs
  rw [(Memory.read_eq_some_iff.mp hread).1] at hlt
  have hnat : pte.toNat ≤ fromLe bs := by
    rw [← hpte, BitVec.toNat_ofNat]
    exact Nat.mod_le _ _
  have hneed : kind.need.toNat < 256 := by cases kind <;> decide
  cases hwidth : c.xlen with
  | rv32 =>
    rw [hwidth] at hlt
    exact Nat.or_lt_two_pow (n := 32) (Nat.lt_of_le_of_lt hnat hlt) (Nat.lt_trans hneed (by decide))
  | rv64 =>
    rw [hwidth] at hlt
    exact Nat.or_lt_two_pow (n := 64) (Nat.lt_of_le_of_lt hnat hlt) (Nat.lt_trans hneed (by decide))

theorem Csrs.marked_of_write {m' : Memory}
    (hread : readPte m at_ (scheme c.xlen).pteBytes = some pte)
    (hwrite : writePte m at_ (scheme c.xlen).pteBytes (pte ||| kind.need) = some m') :
    c.Marked m m' at_ pte kind := by
  unfold writePte at hwrite
  split at hwrite
  · have hlen := length_leBytes (scheme c.xlen).pteBytes (pte ||| kind.need).toNat
    rw [← Option.some.inj hwrite]
    refine ⟨?_, fun a ha => Memory.put_apart (by rwa [hlen])⟩
    have hbytes := m.read_put at_.toNat (leBytes (scheme c.xlen).pteBytes (pte ||| kind.need).toNat)
    rw [hlen] at hbytes
    unfold readPte
    rw [hbytes, Option.map_some, fromLe_leBytes (need_lt hread), BitVec.ofNat_toNat,
      BitVec.setWidth_eq]
  · cases hwrite

theorem Csrs.marked_self (hread : readPte m at_ (scheme c.xlen).pteBytes = some pte)
    (hset : pte &&& kind.need = kind.need) : c.Marked m m at_ pte kind := by
  have hsame : pte ||| kind.need = pte := by
    rw [← hset]
    refine BitVec.eq_of_getLsbD_eq fun i _ => ?_
    rw [BitVec.getLsbD_or, BitVec.getLsbD_and]
    cases pte.getLsbD i <;> rfl
  exact ⟨by rw [hsame]; exact hread, fun _ _ => rfl⟩

theorem Csrs.Leads.ends {readable : U64 → Prop} {n level : Nat} {table : U64}
    (h : c.Leads readable m addr n table level at_ pte) (htable : table.toNat % 4096 = 0) :
    readPte m at_ (scheme c.xlen).pteBytes = some pte ∧ isLeaf pte ∧ c.Aligned at_ := by
  induction h with
  | leaf hreadable hread hformed hleaf =>
    exact ⟨hread, hleaf, c.aligned_entryAddr addr _ htable⟩
  | pointer hreadable hread hformed hpointer hrest ih => exact ih (toNat_page _)

theorem Csrs.Leads.marked {readable : U64 → Prop} {n level : Nat} {table addr' : U64} {m' : Memory}
    (h : c.Leads readable m addr n table level at_ pte) (hmarked : c.Marked m m' at_ pte kind)
    (hpage : SamePage addr addr') (htable : table.toNat % 4096 = 0) :
    c.Leads readable m' addr' n table level at_ (pte ||| kind.need) := by
  induction h with
  | @leaf level table pte hreadable hread hformed hleaf =>
    have hleads := @Leads.leaf c readable m' addr' level table (pte ||| kind.need)
    rw [hpage.entryAddr] at hleads
    exact hleads hreadable hmarked.leaf ((malformed_need c kind pte).trans hformed)
      ((isLeaf_need kind pte).mpr hleaf)
  | @pointer n level table at_ pte leaf hreadable hread hformed hpointer hrest ih =>
    obtain ⟨hleafRead, hleaf, haligned⟩ := hrest.ends (toNat_page _)
    have hne : at_ ≠ c.entryAddr addr n table := by
      intro heq
      rw [heq, hread] at hleafRead
      exact hpointer (Option.some.inj hleafRead ▸ hleaf)
    have hapart := haligned.apart (c.aligned_entryAddr addr n htable) hne
    have hread' : readPte m' (c.entryAddr addr n table) (scheme c.xlen).pteBytes = some pte := by
      rw [← hread]
      unfold readPte
      rw [Memory.read_congr fun i hi => hmarked.rest _ (by omega)]
    have hleads := @Leads.pointer c readable m' addr' n level table at_ pte (leaf ||| kind.need)
    rw [hpage.entryAddr] at hleads
    exact hleads hreadable hread' hformed hpointer (ih hmarked (toNat_page _))

theorem Csrs.Leads.mono {readable readable' : U64 → Prop} {n level : Nat} {table : U64}
    (h : c.Leads readable m addr n table level at_ pte) (hmono : ∀ e, readable e → readable' e) :
    c.Leads readable' m addr n table level at_ pte := by
  induction h with
  | leaf hreadable hread hformed hleaf => exact .leaf (hmono _ hreadable) hread hformed hleaf
  | pointer hreadable hread hformed hpointer hrest ih =>
    exact .pointer (hmono _ hreadable) hread hformed hpointer ih

end

section

variable {c : Csrs} {m m' : Memory} {addr addr' p : U64} {kind : Access} {mode : Priv}

/-- The leaf a translation ends at, and what it leaves behind. -/
structure Csrs.Ended (c : Csrs) (m : Memory) (addr : U64) (kind : Access) (mode : Priv) (p : U64)
    (m' : Memory) (level : Nat) (at_ pte : U64) : Prop where
  leads : c.Leads (c.Readable (some kind) mode) m addr (scheme c.xlen).levels c.root level at_ pte
  accepts : c.Accepts (some kind) mode level pte
  phys : p = c.assemble addr level pte
  marked : c.Marked m m' at_ pte kind

theorem Csrs.translate_cases (c : Csrs) (m : Memory) (addr : U64) (kind : Access) (mode : Priv) :
    (∃ e, c.translate m addr kind mode = (.error e, m)) ∨
      (c.translationActive mode = false ∧ c.translate m addr kind mode = (.ok addr, m)) ∨
      (c.translationActive mode = true ∧ c.canonical addr = true ∧ ∃ p m' level at_ pte,
        c.translate m addr kind mode = (.ok p, m') ∧ c.Ended m addr kind mode p m' level at_ pte) := by
  cases hactive : c.translationActive mode with
  | false =>
    refine .inr (.inl ⟨rfl, ?_⟩)
    unfold Csrs.translate Csrs.walk
    rw [hactive]
    rfl
  | true =>
    cases hcanonical : c.canonical addr with
    | false =>
      refine .inl ⟨.page, ?_⟩
      unfold Csrs.translate Csrs.walk
      rw [hactive, hcanonical]
      rfl
    | true =>
      have hwalk : c.walk m addr (some kind) mode =
          c.walkLevels m addr (some kind) mode (scheme c.xlen).levels c.root := by
        unfold Csrs.walk
        rw [hactive, hcanonical]
        rfl
      cases hlevels : c.walkLevels m addr (some kind) mode (scheme c.xlen).levels c.root with
      | error e =>
        refine .inl ⟨e, ?_⟩
        unfold Csrs.translate
        rw [hwalk, hlevels]
      | ok walked =>
        obtain ⟨level, at_, pte, hleads, haccepts, hwalked⟩ := Csrs.leads_of_ok hlevels
        have hread := (hleads.ends (toNat_page _)).1
        rw [hwalked] at hlevels
        unfold Csrs.translate
        rw [hwalk, hlevels]
        unfold leafUpdate
        rw [Option.bind_some]
        by_cases hset : pte &&& kind.need = kind.need
        · rw [if_pos hset]
          exact .inr (.inr ⟨rfl, rfl, _, m, level, at_, pte, rfl, hleads, haccepts, rfl,
            c.marked_self hread hset⟩)
        · rw [if_neg hset]
          dsimp only
          split
          · exact .inl ⟨.access, rfl⟩
          · cases hwrite : writePte m at_ (scheme c.xlen).pteBytes (pte ||| kind.need) with
            | none => exact .inl ⟨.access, rfl⟩
            | some m' =>
              exact .inr (.inr ⟨rfl, rfl, _, m', level, at_, pte, rfl, hleads, haccepts, rfl,
                c.marked_of_write hread hwrite⟩)

theorem Csrs.Ended.walk {level : Nat} {at_ pte : U64} (h : c.Ended m addr kind mode p m' level at_ pte)
    (hactive : c.translationActive mode = true) (hcanonical : c.canonical addr = true)
    (hpage : SamePage addr addr') {who : Option Access} (hwho : who = some kind ∨ who = none) :
    c.walk m' addr' who mode = .ok ⟨c.assemble addr' level pte, none⟩ := by
  have hleads := h.leads.marked h.marked hpage (toNat_page _)
  have hreadable : ∀ e, c.Readable (some kind) mode e → c.Readable who mode e := by
    intro e he
    rcases hwho with rfl | rfl
    · exact he
    · intro hsome
      cases hsome
  have haccepts : c.Accepts who mode level (pte ||| kind.need) := by
    refine ⟨fun k hk => ?_, (misaligned_need c kind level pte).trans h.accepts.aligned⟩
    rcases hwho with rfl | rfl
    · exact (permitted_need c kind k mode pte).trans (h.accepts.permitted k hk)
    · cases hk
  have hlacks : leafUpdate who at_ (scheme c.xlen).pteBytes (pte ||| kind.need) = none := by
    rcases hwho with rfl | rfl
    · exact leafUpdate_need kind at_ _ pte
    · rfl
  have hok := Csrs.ok_of_leads (hleads.mono hreadable) haccepts
  rw [assemble_need, hlacks] at hok
  unfold Csrs.walk
  rw [hactive, hpage.canonical, hcanonical]
  exact hok

/-- **A translation to `p` that leaves `m'` behind speaks for its page.** Only the leaf the tables
lead to may have changed, by having its bits set; and from then on every address of the page
translates to what the page's cached base gives for it, with nothing to write, and a debugger
is told the same. -/
structure Csrs.SpeaksForPage (c : Csrs) (m : Memory) (addr : U64) (kind : Access) (mode : Priv)
    (p : U64) (m' : Memory) : Prop where
  changed : m' = m ∨ ∃ level at_ pte,
    c.Leads (c.Readable (some kind) mode) m addr (scheme c.xlen).levels c.root level at_ pte ∧
      c.Marked m m' at_ pte kind
  again : ∀ addr', SamePage addr addr' →
    c.walk m' addr' (some kind) mode = .ok ⟨onPage p addr', none⟩ ∧
      c.translate m' addr' kind mode = (.ok (onPage p addr'), m') ∧
      c.translateDebug m' addr' mode = .ok (onPage p addr')

/-- **A page-table walk that succeeds speaks for its page and for its repetition, and one that
fails changes nothing.** -/
theorem translate_speaks_for_page (c : Csrs) (m : Memory) (addr : U64) (kind : Access)
    (mode : Priv) :
    (∀ p, (c.translate m addr kind mode).1 = .ok p →
      c.SpeaksForPage m addr kind mode p (c.translate m addr kind mode).2) ∧
    ∀ e, (c.translate m addr kind mode).1 = .error e → (c.translate m addr kind mode).2 = m := by
  rcases c.translate_cases m addr kind mode with
    ⟨e, heq⟩ | ⟨hoff, heq⟩ | ⟨hactive, hcanonical, p, m', level, at_, pte, heq, hended⟩
  · rw [heq]
    exact ⟨fun p hp => (nomatch hp), fun _ _ => rfl⟩
  · rw [heq]
    refine ⟨fun p hp => ?_, fun _ _ => rfl⟩
    rw [← Except.ok.inj hp]
    refine ⟨.inl rfl, fun addr' hpage => ?_⟩
    have hwalk : ∀ who, c.walk m addr' who mode = .ok ⟨onPage addr addr', none⟩ := by
      intro who
      unfold Csrs.walk
      rw [hoff, ← hpage.eq_onPage]
      rfl
    refine ⟨hwalk _, ?_, ?_⟩
    · unfold Csrs.translate
      rw [hwalk]
    · unfold Csrs.translateDebug
      rw [hwalk]
      rfl
  · rw [heq]
    refine ⟨fun q hq => ?_, fun e he => (nomatch he)⟩
    rw [← Except.ok.inj hq]
    refine ⟨.inr ⟨level, at_, pte, hended.leads, hended.marked⟩, fun addr' hpage => ?_⟩
    have hagain := hended.walk hactive hcanonical hpage (.inl rfl)
    have hdebug := hended.walk hactive hcanonical hpage (.inr rfl)
    rw [hpage.assemble, ← hended.phys] at hagain hdebug
    refine ⟨hagain, ?_, ?_⟩
    · unfold Csrs.translate
      rw [hagain]
    · unfold Csrs.translateDebug
      rw [hdebug]
      rfl

end

end Rsemu.Riscv
