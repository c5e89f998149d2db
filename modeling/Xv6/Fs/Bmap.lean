import Xv6.Fs.Dinode

/-!
# The blocks of an inode

`bmap` of `fs.c` finds the block of a file, and allocates it if there is none yet.  The
addresses of an inode are numbered here as slots: the direct ones, the indirect block
itself, and the entries of the indirect block.

* `slot` — the address in a slot.
* `Owns` — the blocks of an inode are in the data area, marked, and pairwise different.
* `Fill` — one slot is filled with a block that was free.
* `Grows` — what any number of fills can change.
* `wp_bmap` — **all that `bmap` does**.
-/

namespace Xv6
namespace Fs

open Prog Bytes

/-! ### Entries of an indirect block -/

def entry (b : Block) (j : ℕ) : UInt32 := UInt32.ofNat (wordAt 4 b (4 * j))

def setEntry (b : Block) (j : ℕ) (a : UInt32) : Block := patch b (4 * j) (toLe 4 a.toNat)

theorem entry_setEntry {j : ℕ} (hj : j < nindirect) (b : Block) (a : UInt32) (k : ℕ) :
    entry (setEntry b j a) k = if k = j then a else entry b k := by
  by_cases hk : k = j
  · have hlt : 4 * j + 4 ≤ 512 := by rw [nindirect] at hj; omega
    rw [if_pos hk, entry, setEntry, hk, wordAt_patch_self a.toNat_lt hlt, UInt32.ofNat_toNat]
  · rw [if_neg hk, entry, setEntry, wordAt_patch_of_disjoint (by rw [length_toLe]; omega), entry]

@[simp] theorem entry_zeroBlock (j : ℕ) : entry zeroBlock j = 0 := by
  rw [entry, zeroBlock, wordAt_zero]
  rfl

/-! ### The code -/

/-- The indirect block is loaded, and allocated if necessary. -/
def loadIndirect (sb : Superblock) (ip : Dinode) : DiskProg Dinode := do
  if ip.addr ndirect = 0 then
    let addr ← balloc sb
    return ip.setAddr ndirect addr
  else
    return ip

/-- The address of the block `bn` of the inode, and the inode with the addresses that
were allocated. -/
def bmap (sb : Superblock) (ip : Dinode) (bn : ℕ) : DiskProg (UInt32 × Dinode) := do
  if bn < ndirect then
    if ip.addr bn = 0 then
      let addr ← balloc sb
      return (addr, ip.setAddr bn addr)
    else
      return (ip.addr bn, ip)
  else if bn - ndirect < nindirect then
    let ip ← loadIndirect sb ip
    let bp ← bread (ip.addr ndirect).toNat
    if entry bp (bn - ndirect) = 0 then
      let addr ← balloc sb
      logWrite (ip.addr ndirect).toNat (setEntry bp (bn - ndirect) addr)
      return (addr, ip)
    else
      return (entry bp (bn - ndirect), ip)
  else
    stop (.panic "bmap: out of range")

/-! ### Slots -/

/-- The address in the slot `i`: the direct ones, the one of the indirect block, and the
entries of the indirect block. -/
def slot (d : Disk) (ip : Dinode) (i : ℕ) : UInt32 :=
  if i ≤ ndirect then ip.addr i
  else if ip.addr ndirect = 0 ∨ ndirect + nindirect < i then 0
  else entry (d (ip.addr ndirect).toNat) (i - (ndirect + 1))

/-- The slot of the block `bn` of a file. -/
def slotOf (bn : ℕ) : ℕ := if bn < ndirect then bn else bn + 1

section Slots

variable {d d' : Disk} {ip : Dinode}

theorem slot_direct {i : ℕ} (h : i ≤ ndirect) : slot d ip i = ip.addr i := if_pos h

theorem slot_entry {j : ℕ} (h : ip.addr ndirect ≠ 0) (hj : j < nindirect) :
    slot d ip (ndirect + 1 + j) = entry (d (ip.addr ndirect).toNat) j := by
  rw [slot, if_neg (by omega), if_neg (not_or_intro h (by omega)), Nat.add_sub_cancel_left]

theorem slot_of_addr_eq_zero {i : ℕ} (h : ip.addr ndirect = 0) (hi : ndirect ≤ i) :
    slot d ip i = 0 := by
  rcases eq_or_lt_of_le hi with rfl | hlt
  · rw [slot_direct le_rfl, h]
  · rw [slot, if_neg (by omega), if_pos (Or.inl h)]

theorem slot_of_lt {i : ℕ} (hi : ndirect + nindirect < i) : slot d ip i = 0 := by
  rw [slot, if_neg (by omega), if_pos (Or.inr hi)]

/-- The slots of one inode on two disks. -/
theorem slot_congr (h : ip.addr ndirect ≠ 0 →
    d' (ip.addr ndirect).toNat = d (ip.addr ndirect).toNat) (i : ℕ) :
    slot d' ip i = slot d ip i := by
  by_cases h0 : ip.addr ndirect = 0
  · simp [slot, h0]
  · rw [slot, slot, h h0]

theorem slot_addrs_congr {ip' : Dinode} (h : ip'.addrs = ip.addrs) (i : ℕ) :
    slot d ip' i = slot d ip i := by
  rw [slot, slot, Dinode.addr, Dinode.addr, Dinode.addr, Dinode.addr, h]

theorem slotOf_ne (bn : ℕ) : slotOf bn ≠ ndirect := by
  rw [slotOf]
  split
  · omega
  · omega

theorem slotOf_injective : Function.Injective slotOf := by
  intro b c h
  rw [slotOf, slotOf] at h
  split at h
  · split at h
    · exact h
    · omega
  · split at h
    · omega
    · omega

/-- An inode without blocks. -/
theorem slot_blank (type nlink : Int16) (i : ℕ) : slot d (Dinode.blank type nlink) i = 0 := by
  rcases Nat.lt_or_ge i ndirect with h | h
  · rw [slot_direct h.le, Dinode.addr_blank]
  · exact slot_of_addr_eq_zero (Dinode.addr_blank _ _ _) h

end Slots

/-! ### Ownership -/

/-- The blocks of the inode are in the data area, marked in the free map, and pairwise
different; the blocks before the data area are marked. -/
structure Owns (sb : Superblock) (d : Disk) (ip : Dinode) : Prop where
  meta_marked : ∀ b < sb.nmeta, marked sb d b = true
  range : ∀ i, slot d ip i ≠ 0 →
    sb.nmeta ≤ (slot d ip i).toNat ∧ (slot d ip i).toNat < sb.size
  slot_marked : ∀ i, slot d ip i ≠ 0 → marked sb d (slot d ip i).toNat = true
  inj : ∀ i j, slot d ip i ≠ 0 → slot d ip i = slot d ip j → i = j

/-- The free blocks. -/
def free (sb : Superblock) (d : Disk) : Finset ℕ :=
  (Finset.range sb.size).filter fun b => marked sb d b = false

/-- The empty ones among some slots. -/
def missing (d : Disk) (ip : Dinode) (S : Finset ℕ) : Finset ℕ :=
  S.filter fun i => slot d ip i = 0

/-- There are free blocks for all of the slots, unless it is `full`. -/
def Enough (full : Prop) (sb : Superblock) (d : Disk) (ip : Dinode) (S : Finset ℕ) : Prop :=
  full ∨ (missing d ip S).card ≤ (free sb d).card

/-- The slot `i` of `ip` is filled with the free block `a`. -/
structure Fill (sb : Superblock) (i : ℕ) (a : UInt32) (d : Disk) (ip : Dinode) (d' : Disk)
    (ip' : Dinode) : Prop where
  empty : slot d ip i = 0
  range : sb.nmeta ≤ a.toNat ∧ a.toNat < sb.size
  free : marked sb d a.toNat = false
  fields : ip' = { ip with addrs := ip'.addrs }
  slots : ∀ j, slot d' ip' j = if j = i then a else slot d ip j
  bits : ∀ b < sb.size, marked sb d' b = (decide (a.toNat = b) || marked sb d b)
  frame : ∀ b, sb.Outside b → b ≠ a.toNat →
    (slot d ip ndirect ≠ 0 → b ≠ (slot d ip ndirect).toNat) → d' b = d b
  zero : d' a.toNat = zeroBlock

/-- What changes when slots are filled and blocks of the inode are written. -/
structure Grows (sb : Superblock) (d : Disk) (ip : Dinode) (d' : Disk) (ip' : Dinode) : Prop where
  fields : ip' = { ip with addrs := ip'.addrs }
  keep : ∀ i, slot d ip i ≠ 0 → slot d' ip' i = slot d ip i
  fresh : ∀ i, slot d ip i = 0 → slot d' ip' i ≠ 0 → marked sb d (slot d' ip' i).toNat = false
  bits : ∀ b < sb.size, marked sb d' b = true ↔
    marked sb d b = true ∨ ∃ i, slot d ip i = 0 ∧ slot d' ip' i ≠ 0 ∧ (slot d' ip' i).toNat = b
  frame : ∀ b < sb.size, sb.Outside b → marked sb d b = true →
    (∀ i, slot d ip i ≠ 0 → (slot d ip i).toNat ≠ b) → d' b = d b

section Steps

variable {sb : Superblock} {d d' : Disk} {ip ip' : Dinode} {i : ℕ} {a : UInt32}

theorem Owns.nmeta_le_of_free (ho : Owns sb d ip) (hfree : marked sb d a.toNat = false) :
    sb.nmeta ≤ a.toNat := by
  by_contra hlt
  rw [ho.meta_marked _ (not_le.mp hlt)] at hfree
  exact Bool.noConfusion hfree

theorem Owns.slot_outside (ho : Owns sb d ip) (h : slot d ip i ≠ 0) :
    sb.Outside (slot d ip i).toNat := Or.inr (ho.range i h).1

theorem ne_zero_of_nmeta_le (h : sb.nmeta ≤ a.toNat) : a ≠ 0 := by
  rintro rfl
  have := sb.nmeta_pos
  simp at h
  omega

theorem Fill.ne_zero (h : Fill sb i a d ip d' ip') : a ≠ 0 := ne_zero_of_nmeta_le h.range.1

/-- A block that is free is no block of the inode. -/
theorem Owns.slot_ne_of_free (ho : Owns sb d ip) (hfree : marked sb d a.toNat = false) {j : ℕ}
    (hj : slot d ip j ≠ 0) : slot d ip j ≠ a := by
  intro h
  have hm := ho.slot_marked j hj
  rw [h, hfree] at hm
  exact Bool.noConfusion hm

theorem Fill.owns (h : Fill sb i a d ip d' ip') (ho : Owns sb d ip) : Owns sb d' ip' where
  meta_marked := fun b hb => by
    have hlt : b < sb.size := (hb.trans_le h.range.1).trans h.range.2
    rw [h.bits b hlt, ho.meta_marked b hb, Bool.or_true]
  range := fun j hj => by
    rw [h.slots j] at hj ⊢
    by_cases hji : j = i
    · rw [if_pos hji]
      exact h.range
    · rw [if_neg hji] at hj ⊢
      exact ho.range j hj
  slot_marked := fun j hj => by
    rw [h.slots j] at hj ⊢
    by_cases hji : j = i
    · rw [if_pos hji, h.bits _ h.range.2, decide_eq_true rfl, Bool.true_or]
    · rw [if_neg hji] at hj ⊢
      rw [h.bits _ (ho.range j hj).2, ho.slot_marked j hj, Bool.or_true]
  inj := fun j k hj hjk => by
    rw [h.slots j] at hj
    rw [h.slots j, h.slots k] at hjk
    by_cases hji : j = i
    · by_cases hki : k = i
      · rw [hji, hki]
      · rw [if_pos hji, if_neg hki] at hjk
        have hk : slot d ip k ≠ 0 := hjk ▸ h.ne_zero
        exact absurd hjk.symm (ho.slot_ne_of_free h.free hk)
    · rw [if_neg hji] at hj hjk
      by_cases hki : k = i
      · rw [if_pos hki] at hjk
        exact absurd hjk (ho.slot_ne_of_free h.free hj)
      · rw [if_neg hki] at hjk
        exact ho.inj j k hj hjk

theorem Grows.refl (sb : Superblock) (d : Disk) (ip : Dinode) : Grows sb d ip d ip where
  fields := rfl
  keep := fun _ _ => rfl
  fresh := fun _ h h' => absurd h h'
  bits := fun _ _ => by simp only [iff_self_or]; rintro ⟨i, h, h', -⟩; exact absurd h h'
  frame := fun _ _ _ _ _ => rfl

theorem Fill.grows (h : Fill sb i a d ip d' ip') : Grows sb d ip d' ip' where
  fields := h.fields
  keep := fun j hj => by
    have hji : j ≠ i := fun hji => hj (hji ▸ h.empty)
    rw [h.slots j, if_neg hji]
  fresh := fun j hj hj' => by
    rw [h.slots j] at hj' ⊢
    by_cases hji : j = i
    · rw [if_pos hji]
      exact h.free
    · rw [if_neg hji] at hj'
      exact absurd hj hj'
  bits := fun b hb => by
    rw [h.bits b hb, Bool.or_eq_true, decide_eq_true_iff, or_comm]
    refine or_congr Iff.rfl ⟨fun hab => ⟨i, h.empty, ?_, ?_⟩, ?_⟩
    · rw [h.slots i, if_pos rfl]
      exact h.ne_zero
    · rw [h.slots i, if_pos rfl, hab]
    · rintro ⟨j, hj, hj', hjb⟩
      rw [h.slots j] at hj' hjb
      by_cases hji : j = i
      · rwa [if_pos hji] at hjb
      · rw [if_neg hji] at hj'
        exact absurd hj hj'
  frame := fun b _ hout hb hne => by
    refine h.frame b hout ?_ fun h12 => (hne _ h12).symm
    rintro rfl
    rw [h.free] at hb
    exact Bool.noConfusion hb

theorem Grows.trans {d'' : Disk} {ip'' : Dinode} (h : Grows sb d ip d' ip')
    (h' : Grows sb d' ip' d'' ip'') (ho'' : Owns sb d'' ip'') :
    Grows sb d ip d'' ip'' where
  fields := by rw [h'.fields, h.fields]
  keep := fun i hi => by
    rw [h'.keep i (by rwa [h.keep i hi]), h.keep i hi]
  fresh := fun i hi hi' => by
    by_cases hmid : slot d' ip' i = 0
    · have hfree := h'.fresh i hmid hi'
      have hlt : (slot d'' ip'' i).toNat < sb.size := (ho''.range i hi').2
      by_contra hm
      rw [Bool.not_eq_false] at hm
      rw [(h.bits _ hlt).mpr (Or.inl hm)] at hfree
      exact Bool.noConfusion hfree
    · rw [h'.keep i hmid]
      exact h.fresh i hi hmid
  bits := fun b hb => by
    rw [h'.bits b hb, h.bits b hb]
    constructor
    · rintro ((hm | ⟨i, hi, hi', hib⟩) | ⟨i, hi, hi', hib⟩)
      · exact Or.inl hm
      · exact Or.inr ⟨i, hi, by rwa [h'.keep i hi'], by rwa [h'.keep i hi']⟩
      · refine Or.inr ⟨i, ?_, hi', hib⟩
        by_contra hne
        rw [h.keep i hne] at hi
        exact hne hi
    · rintro (hm | ⟨i, hi, hi', hib⟩)
      · exact Or.inl (Or.inl hm)
      · by_cases hmid : slot d' ip' i = 0
        · exact Or.inr ⟨i, hmid, hi', hib⟩
        · rw [h'.keep i hmid] at hib
          exact Or.inl (Or.inr ⟨i, hi, hmid, hib⟩)
  frame := fun b hb hout hm hne => by
    have hm' : marked sb d' b = true := (h.bits b hb).mpr (Or.inl hm)
    rw [h'.frame b hb hout hm' ?_, h.frame b hb hout hm hne]
    intro i hi hib
    by_cases hi0 : slot d ip i = 0
    · have hfree := h.fresh i hi0 hi
      rw [hib, hm] at hfree
      exact Bool.noConfusion hfree
    · rw [h.keep i hi0] at hib
      exact hne i hi0 hib

/-- A fill uses one free block for one of the slots. -/
theorem Fill.enough {full : Prop} {S : Finset ℕ} (h : Fill sb i a d ip d' ip') (hi : i ∈ S)
    (he : Enough full sb d ip S) : Enough full sb d' ip' S := by
  rcases he with he | he
  · exact Or.inl he
  · have hmissing : missing d' ip' S = (missing d ip S).erase i := by
      ext j
      simp only [missing, Finset.mem_erase, Finset.mem_filter, h.slots j]
      by_cases hji : j = i
      · simp [hji, h.ne_zero]
      · simp [hji]
    have hfree : Fs.free sb d' = (Fs.free sb d).erase a.toNat := by
      ext b
      simp only [Fs.free, Finset.mem_erase, Finset.mem_filter, Finset.mem_range]
      by_cases hb : b < sb.size
      · rw [h.bits b hb, Bool.or_eq_false_iff, decide_eq_false_iff_not, eq_comm (b := b)]
        tauto
      · tauto
    have hmem : i ∈ missing d ip S := Finset.mem_filter.mpr ⟨hi, h.empty⟩
    have hmem' : a.toNat ∈ Fs.free sb d :=
      Finset.mem_filter.mpr ⟨Finset.mem_range.mpr h.range.2, h.free⟩
    refine Or.inr ?_
    rw [hmissing, hfree, Finset.card_erase_of_mem hmem, Finset.card_erase_of_mem hmem']
    omega

/-- There is a free block for an empty slot. -/
theorem Enough.out_of_blocks {full : Prop} {S : Finset ℕ} (he : Enough full sb d ip S)
    (hi : i ∈ S) (hempty : slot d ip i = 0) (hfull : ∀ b < sb.size, marked sb d b = true) :
    full := by
  rcases he with he | he
  · exact he
  · have hfree : free sb d = ∅ := by
      refine Finset.filter_eq_empty_iff.mpr fun b hb => ?_
      rw [hfull b (Finset.mem_range.mp hb)]
      decide
    rw [hfree, Finset.card_empty, Nat.le_zero, Finset.card_eq_zero] at he
    exact absurd (Finset.mem_filter.mpr ⟨hi, hempty⟩) (he ▸ Finset.notMem_empty i)

end Steps

/-! ### What `bmap` does -/

section Rules

variable {sb : Superblock} {d : Disk} {ip : Dinode} {a : UInt32}

/-- An allocation for one of the slots in `addrs`. -/
theorem fill_setAddr (ho : Owns sb d ip) {i : ℕ} (hi : i ≤ ndirect) (hempty : ip.addr i = 0)
    (hlt : a.toNat < sb.size) (hfree : marked sb d a.toNat = false) :
    Fill sb i a d ip (taken sb d a.toNat) (ip.setAddr i a) := by
  have hmeta := ho.nmeta_le_of_free hfree
  have hout : sb.Outside a.toNat := Or.inr hmeta
  have hi13 : i < 13 := by rw [ndirect] at hi; omega
  have haddr := Dinode.addr_setAddr hi13 ip a
  refine ⟨by rw [slot_direct hi, hempty], ⟨hmeta, hlt⟩, hfree, rfl, fun j => ?_,
    fun b hb => marked_taken hout hb, fun b hb hne _ => taken_of_ne hlt hb hne, taken_self _⟩
  rcases le_or_gt j ndirect with hj | hj
  · rw [slot_direct hj, haddr, slot_direct hj]
  · rw [if_neg (by omega)]
    by_cases h12 : i = ndirect
    · -- the new indirect block is zeroed, so it has no entries
      have hzero : slot d ip j = 0 := slot_of_addr_eq_zero (h12 ▸ hempty) hj.le
      rw [hzero, slot, if_neg (by omega), haddr ndirect, if_pos h12.symm, taken_self,
        entry_zeroBlock, ite_self]
    · have hkeep : (ip.setAddr i a).addr ndirect = ip.addr ndirect := by
        rw [haddr, if_neg (Ne.symm h12)]
      by_cases h0 : ip.addr ndirect = 0
      · rw [slot_of_addr_eq_zero h0 hj.le, slot_of_addr_eq_zero (hkeep.trans h0) hj.le]
      · have hslot : slot d ip ndirect ≠ 0 := by rwa [slot_direct le_rfl]
        have hne : (ip.addr ndirect).toNat ≠ a.toNat := by
          have := ho.slot_ne_of_free hfree hslot
          rw [slot_direct le_rfl] at this
          exact fun h => this (UInt32.toNat_inj.mp h)
        have hind := ho.slot_outside hslot
        rw [slot_direct le_rfl] at hind
        rw [slot, slot, if_neg (not_le.mpr hj), if_neg (not_le.mpr hj), hkeep,
          taken_of_ne hlt hind hne]

/-- An allocation for an entry of the indirect block. -/
theorem fill_setEntry (ho : Owns sb d ip) {j : ℕ} (hj : j < nindirect)
    (hind : ip.addr ndirect ≠ 0) (hempty : entry (d (ip.addr ndirect).toNat) j = 0)
    (hlt : a.toNat < sb.size) (hfree : marked sb d a.toNat = false) :
    Fill sb (ndirect + 1 + j) a d ip
      (Function.update (taken sb d a.toNat) (ip.addr ndirect).toNat
        (setEntry (d (ip.addr ndirect).toNat) j a)) ip := by
  have hmeta := ho.nmeta_le_of_free hfree
  have hout : sb.Outside a.toNat := Or.inr hmeta
  have hslot : slot d ip ndirect ≠ 0 := by rwa [slot_direct le_rfl]
  have hindout := ho.slot_outside hslot
  rw [slot_direct le_rfl] at hindout
  refine ⟨by rw [slot_entry hind hj, hempty], ⟨hmeta, hlt⟩, hfree, rfl, fun k => ?_,
    fun b hb => ?_, fun b hb hne hb12 => ?_, ?_⟩
  · rcases le_or_gt k ndirect with hk | hk
    · rw [slot_direct hk, slot_direct hk, if_neg (by omega)]
    · rcases Nat.lt_or_ge (ndirect + nindirect) k with hk' | hk'
      · rw [slot_of_lt hk', slot_of_lt hk', if_neg (by omega)]
      · obtain ⟨l, rfl⟩ : ∃ l, k = ndirect + 1 + l := ⟨k - (ndirect + 1), by omega⟩
        have hl : l < nindirect := by omega
        rw [slot_entry hind hl, slot_entry hind hl, Function.update_self, entry_setEntry hj]
        simp only [Nat.add_left_cancel_iff]
  · rw [marked_update hindout hb, marked_taken hout hb]
  · rw [slot_direct le_rfl] at hb12
    rw [Function.update_of_ne (hb12 hind), taken_of_ne hlt hb hne]
  · have hne := ho.slot_ne_of_free hfree hslot
    rw [slot_direct le_rfl] at hne
    rw [Function.update_of_ne fun h => hne (UInt32.toNat_inj.mp h.symm), taken_self]

variable {E : Stop → Prop} {full : Prop} {S : Finset ℕ}

/-- What is known of the disk and the inode between two steps on the inode. -/
structure Good (full : Prop) (sb : Superblock) (S : Finset ℕ) (d : Disk) (ip : Dinode) :
    Prop where
  owns : Owns sb d ip
  enough : Enough full sb d ip S

/-- The blocks that the file had are kept, and the ones that it gets are zeroed. -/
structure Keeps (d : Disk) (ip : Dinode) (d' : Disk) (ip' : Dinode) : Prop where
  blocks : ∀ j, j ≠ ndirect → slot d ip j ≠ 0 → d' (slot d ip j).toNat = d (slot d ip j).toNat
  zero : ∀ j, j ≠ ndirect → slot d ip j = 0 → slot d' ip' j ≠ 0 →
    d' (slot d' ip' j).toNat = zeroBlock

theorem Keeps.refl (d : Disk) (ip : Dinode) : Keeps d ip d ip :=
  ⟨fun _ _ _ => rfl, fun _ _ h h' => absurd h h'⟩

theorem Keeps.trans {d' d'' : Disk} {ip' ip'' : Dinode} (h : Keeps d ip d' ip')
    (hgrow : Grows sb d ip d' ip') (h' : Keeps d' ip' d'' ip'')
    (hgrow' : Grows sb d' ip' d'' ip'') : Keeps d ip d'' ip'' where
  blocks := fun j hj hslot => by
    have hkeep := hgrow.keep j hslot
    have hb := h'.blocks j hj (by rwa [hkeep])
    rw [hkeep] at hb
    rw [hb, h.blocks j hj hslot]
  zero := fun j hj hslot hslot'' => by
    by_cases hslot' : slot d' ip' j = 0
    · exact h'.zero j hj hslot' hslot''
    · rw [hgrow'.keep j hslot', h'.blocks j hj hslot', h.zero j hj hslot hslot']

theorem Fill.keeps {i : ℕ} {d' : Disk} {ip' : Dinode} (h : Fill sb i a d ip d' ip')
    (ho : Owns sb d ip) : Keeps d ip d' ip' where
  blocks := fun j hj hslot => by
    refine h.frame _ (ho.slot_outside hslot) ?_ fun h12 heq => ?_
    · exact fun heq => ho.slot_ne_of_free h.free hslot (UInt32.toNat_inj.mp heq)
    · exact hj (ho.inj j ndirect hslot (UInt32.toNat_inj.mp heq))
  zero := fun j hj hslot hslot' => by
    rw [h.slots j] at hslot' ⊢
    by_cases hji : j = i
    · rw [if_pos hji, h.zero]
    · rw [if_neg hji] at hslot'
      exact absurd hslot hslot'

theorem Fill.good {i : ℕ} {d' : Disk} {ip' : Dinode} (h : Fill sb i a d ip d' ip') (hi : i ∈ S)
    (hg : Good full sb S d ip) : Good full sb S d' ip' :=
  ⟨h.owns hg.owns, h.enough hi hg.enough⟩

/-- The other blocks of the file have their addresses. -/
theorem Fill.slot_of_ne {i bn b : ℕ} {d' : Disk} {ip' : Dinode} (h : Fill sb i a d ip d' ip')
    (hi : i = slotOf bn) (hb : b ≠ bn) : slot d' ip' (slotOf b) = slot d ip (slotOf b) := by
  rw [h.slots, if_neg fun heq => hb (slotOf_injective (heq.trans hi))]

theorem Fill.slot_indirect {d' : Disk} {ip' : Dinode} (h : Fill sb ndirect a d ip d' ip') (b : ℕ) :
    slot d' ip' (slotOf b) = slot d ip (slotOf b) := by
  rw [h.slots, if_neg (slotOf_ne b)]

/-- The rule of `loadIndirect`: the indirect block is there, or it is allocated. -/
theorem wp_loadIndirect {Q : Dinode → Disk → Prop} (hl : Layout sb)
    (hg : Good (E noBlocks) sb S d ip)
    (hS : ndirect ∈ S) (hkeep : ip.addr ndirect ≠ 0 → Q ip d)
    (hfill : ∀ a d' ip', Fill sb ndirect a d ip d' ip' → Q ip' d') :
    wp (loadIndirect sb ip) E Q d := by
  rw [loadIndirect, wp_ite]
  refine ⟨fun h0 => ?_, fun h0 => hkeep h0⟩
  rw [wp_bind]
  refine wp_balloc hl.size (fun a hlt hfree => ?_) fun hfull => ?_
  · exact hfill a _ _ (fill_setAddr hg.owns le_rfl h0 hlt hfree)
  · exact hg.enough.out_of_blocks hS (by rw [slot_direct le_rfl, h0]) hfull

/-- The second half of `bmap`, when the indirect block is there. -/
theorem wp_bmap_entry {Q : UInt32 × Dinode → Disk → Prop} (hl : Layout sb)
    (hg : Good (E noBlocks) sb S d ip) {j : ℕ} (hj : j < nindirect) (hS : ndirect + 1 + j ∈ S)
    (hind : ip.addr ndirect ≠ 0)
    (hkeep : slot d ip (ndirect + 1 + j) ≠ 0 → Q (slot d ip (ndirect + 1 + j), ip) d)
    (hfill : ∀ a d', Fill sb (ndirect + 1 + j) a d ip d' ip → Q (a, ip) d') :
    wp (do
      let bp ← bread (ip.addr ndirect).toNat
      if entry bp j = 0 then
        let addr ← balloc sb
        logWrite (ip.addr ndirect).toNat (setEntry bp j addr)
        return (addr, ip)
      else
        return (entry bp j, ip)) E Q d := by
  rw [slot_entry hind hj] at hkeep
  rw [wp_bind, wp_bread, wp_ite]
  refine ⟨fun h0 => ?_, fun h0 => hkeep h0⟩
  rw [wp_bind]
  refine wp_balloc hl.size (fun a hlt hfree => ?_) fun hfull => ?_
  · exact hfill a _ (fill_setEntry hg.owns hj hind h0 hlt hfree)
  · exact hg.enough.out_of_blocks hS (by rw [slot_entry hind hj, h0]) hfull

/-- **The rule of `bmap`**: the address in the slot of the block, filled if it was empty. -/
theorem wp_bmap {Q : UInt32 × Dinode → Disk → Prop} {bn : ℕ} (hl : Layout sb)
    (hg : Good (E noBlocks) sb S d ip) (hbn : bn < maxfile) (hS : slotOf bn ∈ S)
    (hS12 : ndirect ≤ bn → ndirect ∈ S)
    (hQ : ∀ a d' ip', a ≠ 0 → slot d' ip' (slotOf bn) = a → Grows sb d ip d' ip' →
      Good (E noBlocks) sb S d' ip' → Keeps d ip d' ip' → (slot d ip (slotOf bn) ≠ 0 → ip' = ip) →
      (∀ b, b ≠ bn → slot d' ip' (slotOf b) = slot d ip (slotOf b)) → Q (a, ip') d') :
    wp (bmap sb ip bn) E Q d := by
  have hstay : ∀ a, slot d ip (slotOf bn) = a → a ≠ 0 → Q (a, ip) d := fun a ha h0 =>
    hQ a d ip h0 ha (Grows.refl sb d ip) hg (Keeps.refl d ip) (fun _ => rfl) fun _ _ => rfl
  rw [bmap, wp_ite]
  refine ⟨fun hlt => ?_, fun hge => ?_⟩
  · have hslot : slotOf bn = bn := if_pos hlt
    rw [hslot] at hS hstay
    rw [wp_ite]
    refine ⟨fun h0 => ?_, fun h0 => hstay _ (slot_direct hlt.le) h0⟩
    rw [wp_bind]
    refine wp_balloc hl.size (fun a ha hfree => ?_) fun hfull => ?_
    · have hfill := fill_setAddr hg.owns hlt.le h0 ha hfree
      refine hQ a _ _ hfill.ne_zero ?_ hfill.grows (hfill.good hS hg) (hfill.keeps hg.owns) ?_
        fun b hb => hfill.slot_of_ne hslot.symm hb
      · rw [hslot, hfill.slots, if_pos rfl]
      · rw [hslot]
        exact fun h => absurd hfill.empty h
    · exact hg.enough.out_of_blocks hS (by rw [slot_direct hlt.le, h0]) hfull
  · have hj : bn - ndirect < nindirect := by
      rw [maxfile] at hbn
      rw [ndirect, nindirect]
      omega
    have hslot : slotOf bn = ndirect + 1 + (bn - ndirect) := by
      rw [slotOf, if_neg hge]
      omega
    have h12 := hS12 (not_lt.mp hge)
    rw [wp_ite]
    refine ⟨fun _ => ?_, fun hnot => absurd hj hnot⟩
    rw [wp_bind]
    refine wp_loadIndirect hl hg h12 (fun hind => ?_) fun b d₁ ip₁ hfill₁ => ?_
    · refine wp_bmap_entry hl hg hj (hslot ▸ hS) hind (fun h0 => ?_) fun a d' hfill => ?_
      · exact hstay _ (by rw [hslot]) h0
      · exact hQ a _ _ hfill.ne_zero (by rw [hslot, hfill.slots, if_pos rfl]) hfill.grows
          (hfill.good (hslot ▸ hS) hg) (hfill.keeps hg.owns) (fun _ => rfl)
          fun b hb => hfill.slot_of_ne hslot.symm hb
    · -- two fills, the indirect block and the entry
      have hg₁ := hfill₁.good h12 hg
      have hempty : slot d ip (slotOf bn) = 0 := by
        refine slot_of_addr_eq_zero ?_ (hslot ▸ by omega)
        rw [← slot_direct (d := d) le_rfl, hfill₁.empty]
      have hind : ip₁.addr ndirect ≠ 0 := by
        rw [← slot_direct (d := d₁) le_rfl, hfill₁.slots, if_pos rfl]
        exact hfill₁.ne_zero
      refine wp_bmap_entry hl hg₁ hj (hslot ▸ hS) hind (fun h0 => ?_) fun a d' hfill => ?_
      · exact hQ _ _ _ h0 (by rw [hslot]) hfill₁.grows hg₁ (hfill₁.keeps hg.owns)
          (fun h => absurd hempty h) fun b _ => hfill₁.slot_indirect b
      · have hg' := hfill.good (hslot ▸ hS) hg₁
        exact hQ a _ _ hfill.ne_zero (by rw [hslot, hfill.slots, if_pos rfl])
          (hfill₁.grows.trans hfill.grows hg'.owns) hg'
          ((hfill₁.keeps hg.owns).trans hfill₁.grows (hfill.keeps hg₁.owns) hfill.grows)
          (fun h => absurd hempty h)
          fun b hb => (hfill.slot_of_ne hslot.symm hb).trans (hfill₁.slot_indirect b)

/-- A block that the file has. -/
theorem wp_bmap_of_ne {Q : UInt32 × Dinode → Disk → Prop} {bn : ℕ} (hbn : bn < maxfile)
    (h0 : slot d ip (slotOf bn) ≠ 0) :
    wp (bmap sb ip bn) E Q d ↔ Q (slot d ip (slotOf bn), ip) d := by
  by_cases hlt : bn < ndirect
  · have hslot : slotOf bn = bn := if_pos hlt
    rw [hslot, slot_direct hlt.le] at h0 ⊢
    rw [bmap, if_pos hlt, if_neg h0, wp_pure]
  · have hj : bn - ndirect < nindirect := by
      rw [maxfile] at hbn
      rw [ndirect, nindirect]
      omega
    have hslot : slotOf bn = ndirect + 1 + (bn - ndirect) := by
      rw [slotOf, if_neg hlt]
      omega
    have hind : ip.addr ndirect ≠ 0 := fun hind =>
      h0 (slot_of_addr_eq_zero hind (by omega))
    rw [hslot, slot_entry hind hj] at h0 ⊢
    rw [bmap, if_neg hlt, if_pos hj, loadIndirect, if_neg hind, wp_bind, wp_pure, wp_bind,
      wp_bread, if_neg h0, wp_pure]

end Rules

end Fs
end Xv6
