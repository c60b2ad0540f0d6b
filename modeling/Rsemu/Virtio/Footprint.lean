import Rsemu.Virtio.Rings

/-!
# What a walk reads

A chain is read from the available ring, from the queue's descriptor table, and from the tables
of its indirect descriptors. Memory that agrees there gives the same chain.
-/

namespace Rsemu.Virtio

/-- The memory that the chains of a queue are read from. -/
def Layout.Walked (layout : Layout) (mem : Reads) (x : Nat) : Prop :=
  layout.InAvail x ∨ (layout.desc ≤ x ∧ x < layout.desc + layout.size * descSize) ∨
    ∃ i d, descriptor mem layout i = .ok (some d) ∧ d.has descFIndirect = true ∧
      d.addr ≤ x ∧ x < d.addr + d.len / descSize * descSize

/-- Two views of memory that are the same where chains are read. -/
def Agree (layout : Layout) (mem mem' : Reads) : Prop :=
  ∀ a n, (∀ x, a ≤ x → x < a + n → layout.Walked mem x) → mem' a n = mem a n

section Agree

variable {layout : Layout} {mem mem' : Reads}

theorem load_congr {at_ k n : Nat} (h : mem' (at_ + k) n = mem (at_ + k) n) :
    (do mem'.load (← add64 at_ k) n) = (do mem.load (← add64 at_ k) n) := by
  rcases hadd : add64 at_ k with e | a
  · rfl
  · obtain rfl := add64_ok hadd
    show mem'.load (at_ + k) n = mem.load (at_ + k) n
    unfold Reads.load
    rw [h]

theorem load_bind_congr {α : Type} {at_ k n : Nat} (h : mem' (at_ + k) n = mem (at_ + k) n)
    {f f' : Nat → Except Fault α} (hf : ∀ v, f' v = f v) :
    (do f' (← mem'.load (← add64 at_ k) n)) = (do f (← mem.load (← add64 at_ k) n)) := by
  obtain rfl : f' = f := funext hf
  have hload := congrArg (· >>= f') (load_congr h)
  simpa only [bind_assoc] using hload

theorem readDescriptor_congr {at_ : Nat}
    (h : ∀ k n, k + n ≤ descSize → mem' (at_ + k) n = mem (at_ + k) n) :
    readDescriptor mem' at_ = readDescriptor mem at_ := by
  have h0 : mem'.load at_ 8 = mem.load at_ 8 := by
    unfold Reads.load
    rw [show mem' at_ 8 = mem at_ 8 from h 0 8 (by decide)]
  unfold readDescriptor
  rw [h0]
  refine congrArg _ (funext fun addr => ?_)
  refine load_bind_congr (h 8 4 (by decide)) fun len => ?_
  refine load_bind_congr (h 12 2 (by decide)) fun flags => ?_
  exact load_bind_congr (h 14 2 (by decide)) fun next => rfl

theorem tableEntry_congr {base count index : Nat} (hindex : index < count)
    (h : ∀ a n, base ≤ a → a + n ≤ base + count * descSize → mem' a n = mem a n) :
    tableEntry mem' base index = tableEntry mem base index := by
  unfold tableEntry
  rcases hadd : add64 base (index * descSize) with e | a
  · rfl
  · obtain rfl := add64_ok hadd
    refine readDescriptor_congr fun k n hk => h _ n (by omega) ?_
    have := Nat.mul_le_mul_right descSize (Nat.succ_le_of_lt hindex)
    rw [Nat.succ_mul] at this
    omega

theorem walkTable_congr {base count : Nat}
    (h : ∀ a n, base ≤ a → a + n ≤ base + count * descSize → mem' a n = mem a n) (fuel : Nat)
    {index : Nat} (hindex : 0 < fuel → index < count) :
    walkTable mem' base count fuel index = walkTable mem base count fuel index := by
  induction fuel generalizing index with
  | zero => rfl
  | succ fuel ih =>
    unfold walkTable
    rw [tableEntry_congr (hindex (Nat.succ_pos fuel)) h]
    split
    · rfl
    · split
      · rfl
      · split
        · rfl
        · split
          · rfl
          · rename_i hnext
            rw [ih fun _ => Nat.lt_of_not_le hnext]

section

variable (h : Agree layout mem mem')
include h

theorem descriptor_congr (index : Nat) :
    descriptor mem' layout index = descriptor mem layout index := by
  unfold descriptor
  split
  · rfl
  · rename_i hindex
    rcases hadd : add64 layout.desc (index * descSize) with e | a
    · rfl
    · obtain rfl := add64_ok hadd
      have hread : readDescriptor mem' (layout.desc + index * descSize) =
          readDescriptor mem (layout.desc + index * descSize) := by
        refine readDescriptor_congr fun k n hk => h _ n fun x hlo hhi => .inr (.inl ⟨by omega, ?_⟩)
        have := Nat.mul_le_mul_right descSize (Nat.succ_le_of_lt (Nat.lt_of_not_le hindex))
        rw [Nat.succ_mul] at this
        omega
      show (readDescriptor mem' _ >>= _) = (readDescriptor mem _ >>= _)
      rw [hread]

theorem chainFrom_congr (fuel index : Nat) :
    chainFrom mem' layout fuel index = chainFrom mem layout fuel index := by
  induction fuel generalizing index with
  | zero => rfl
  | succ fuel ih =>
    unfold chainFrom
    rw [descriptor_congr h]
    split
    · rfl
    · rfl
    · rename_i desc hdesc
      have hexpand : expand mem' desc = expand mem desc := by
        unfold expand walkIndirect
        split
        · rename_i hindirect
          rw [walkTable_congr (fun a n hlo hhi => h a n fun x hx hx' =>
            .inr (.inr ⟨index, desc, hdesc, hindirect, by omega, by omega⟩)) _ id]
        · rfl
      rw [hexpand]
      split
      · rfl
      · split
        · rfl
        · rw [ih]

theorem chain_congr (head : Nat) : chain mem' layout head = chain mem layout head := by
  unfold chain walkChain
  rw [chainFrom_congr h]

theorem availHead_congr (n : Nat) : availHead mem' layout n = availHead mem layout n := by
  have hslot := Nat.mod_lt n (ringLen_pos layout)
  unfold availHead
  rcases hadd : add64 layout.avail 4 with e | a
  · rfl
  · obtain rfl := add64_ok hadd
    show (do mem'.load (← add64 (layout.avail + 4) (n % layout.ringLen * 2)) 2) =
      (do mem.load (← add64 (layout.avail + 4) (n % layout.ringLen * 2)) 2)
    exact load_congr (h _ 2 fun x hlo hhi => .inl ⟨by omega, by omega⟩)

theorem availIdx_congr : availIdx mem' layout = availIdx mem layout := by
  exact load_congr (h _ 2 fun x hlo hhi => .inl ⟨by omega, by omega⟩)

end

end Agree

end Rsemu.Virtio
