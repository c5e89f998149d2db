import Xv6.Lib.Bytes
import Xv6.Lib.Wp

/-!
# Disk blocks and their allocator

The layout of a file system on its disk, and the block allocator of `fs.c`: `balloc`,
`bfree`, `bzero` over the free bit map.  A program sees the blocks through the buffer cache
and the log, so a `bread` gives what the last `log_write` of the block left.

* `Superblock`, `Layout` — the places of the regions, and what `mkfs` guarantees of them.
* `marked` — the bit of a block in the free map.
* `taken`, `released` — the disk after an allocation, and after a block is freed.
* `wp_balloc`, `wp_bfree` — **all that the two functions do**.
-/

namespace Xv6
namespace Fs

open Prog Bytes

/-! ### Constants -/

def bsize : ℕ := 512

def ndirect : ℕ := 12

def nindirect : ℕ := 128

def maxfile : ℕ := 140

/-- Inodes per block. -/
def ipb : ℕ := 8

/-- Bits per block of the free map. -/
def bpb : ℕ := 4096

/-! ### The disk -/

abbrev Block := Vector UInt8 512

abbrev Disk := ℕ → Block

/-- The superblock, as `mkfs` writes it. -/
structure Superblock where
  size : ℕ
  nblocks : ℕ
  ninodes : ℕ
  nlog : ℕ
  logstart : ℕ
  inodestart : ℕ
  bmapstart : ℕ

/-- The block that holds the inode `i`. -/
def Superblock.iblock (sb : Superblock) (i : ℕ) : ℕ := i / ipb + sb.inodestart

/-- The block of the free map that holds the bit of the block `b`. -/
def Superblock.bblock (sb : Superblock) (b : ℕ) : ℕ := b / bpb + sb.bmapstart

/-- The first block behind the free map. -/
def Superblock.nmeta (sb : Superblock) : ℕ := sb.bmapstart + (sb.size / bpb + 1)

theorem Superblock.bmapstart_lt_nmeta (sb : Superblock) : sb.bmapstart < sb.nmeta :=
  Nat.lt_add_of_pos_right (Nat.succ_pos _)

theorem Superblock.nmeta_pos (sb : Superblock) : 0 < sb.nmeta :=
  sb.bmapstart_lt_nmeta.trans_le' (Nat.zero_le _)

/-- The order of the regions on the disk. -/
structure Layout (sb : Superblock) : Prop where
  boot : 0 < sb.inodestart
  inodes : sb.inodestart + (sb.ninodes / ipb + 1) ≤ sb.bmapstart
  data : sb.nmeta ≤ sb.size
  size : sb.size < 2 ^ 32
  /-- A directory entry has sixteen bits for its inode. -/
  ninodes : sb.ninodes ≤ 2 ^ 16

/-- Why a call does not return. -/
inductive Stop
  | panic (msg : String)
  /-- It sleeps for good, on a lock that it holds itself. -/
  | deadlock
  deriving DecidableEq

abbrev DiskProg (α : Type) := Prog Disk Stop α

def bread (b : ℕ) : DiskProg Block := do return (← get) b

/-- `log_write` of the buffer of the block, with the contents it has by then. -/
def logWrite (b : ℕ) (data : Block) : DiskProg Unit := modify fun d => Function.update d b data

def zeroBlock : Block := Vector.replicate 512 0

def bzero (b : ℕ) : DiskProg Unit := logWrite b zeroBlock

theorem byteAt_zeroBlock (i : ℕ) : byteAt zeroBlock i = 0 := byteAt_zero i

/-! ### The free map -/

/-- The bit of the block `b`. -/
def marked (sb : Superblock) (d : Disk) (b : ℕ) : Bool := bitAt (d (sb.bblock b)) (b % bpb)

/-- What the two loops of `balloc` look for: the first block with a clear bit. -/
def freeBlock (sb : Superblock) (d : Disk) : Option ℕ :=
  (List.range sb.size).find? fun b => !marked sb d b

def noBlocks : Stop := .panic "balloc: out of blocks"

def balloc (sb : Superblock) : DiskProg UInt32 := do
  match freeBlock sb (← get) with
  | some b =>
      let bp ← bread (sb.bblock b)
      logWrite (sb.bblock b) (setBit bp (b % bpb))
      bzero b
      return UInt32.ofNat b
  | none => stop noBlocks

def bfree (sb : Superblock) (b : UInt32) : DiskProg Unit := do
  let bp ← bread (sb.bblock b.toNat)
  if bitAt bp (b.toNat % bpb) = false then
    stop (.panic "freeing free block")
  else
    logWrite (sb.bblock b.toNat) (clearBit bp (b.toNat % bpb))

/-- The disk after `balloc` has given out the block `b`. -/
def taken (sb : Superblock) (d : Disk) (b : ℕ) : Disk :=
  Function.update (Function.update d (sb.bblock b) (setBit (d (sb.bblock b)) (b % bpb))) b zeroBlock

/-- The disk after `bfree`. -/
def released (sb : Superblock) (d : Disk) (b : ℕ) : Disk :=
  Function.update d (sb.bblock b) (clearBit (d (sb.bblock b)) (b % bpb))

section Rules

variable {E : Stop → Prop} {d : Disk} {sb : Superblock}

@[simp] theorem wp_bread (b : ℕ) (Q : Block → Disk → Prop) :
    wp (bread b) E Q d ↔ Q (d b) d := Iff.rfl

@[simp] theorem wp_logWrite (b : ℕ) (data : Block) (Q : Unit → Disk → Prop) :
    wp (logWrite b data) E Q d ↔ Q () (Function.update d b data) := Iff.rfl

@[simp] theorem wp_bzero (b : ℕ) (Q : Unit → Disk → Prop) :
    wp (bzero b) E Q d ↔ Q () (Function.update d b zeroBlock) := Iff.rfl

theorem wp_balloc_some {b : ℕ} (h : freeBlock sb d = some b) (Q : UInt32 → Disk → Prop) :
    wp (balloc sb) E Q d ↔ Q (UInt32.ofNat b) (taken sb d b) := by
  rw [balloc, wp_bind, wp_get, h]
  exact Iff.rfl

theorem wp_balloc_none (h : freeBlock sb d = none) (Q : UInt32 → Disk → Prop) :
    wp (balloc sb) E Q d ↔ E noBlocks := by
  rw [balloc, wp_bind, wp_get, h]
  exact Iff.rfl

theorem balloc_some {b : ℕ} (h : freeBlock sb d = some b) :
    balloc sb d = .ok (UInt32.ofNat b, taken sb d b) :=
  eq_ok_of_wp ((wp_balloc_some h _).mpr ⟨rfl, rfl⟩)

theorem balloc_none (h : freeBlock sb d = none) : balloc sb d = .error noBlocks :=
  eq_error_of_wp ((wp_balloc_none h _).mpr rfl)

/-- **The rule of `balloc`**: it gives out a free block, or there is none. -/
theorem wp_balloc {Q : UInt32 → Disk → Prop} (hsize : sb.size < 2 ^ 32)
    (hok : ∀ a : UInt32, a.toNat < sb.size → marked sb d a.toNat = false →
      Q a (taken sb d a.toNat))
    (hfull : (∀ b < sb.size, marked sb d b = true) → E noBlocks) :
    wp (balloc sb) E Q d := by
  cases hfind : freeBlock sb d with
  | some b =>
    have hb : b < sb.size := List.mem_range.mp (List.mem_of_find?_eq_some hfind)
    have hfree : marked sb d b = false := by simpa using List.find?_some hfind
    have hto : (UInt32.ofNat b).toNat = b :=
      UInt32.toNat_ofNat_of_lt' (by simpa using hb.trans hsize)
    rw [wp_balloc_some hfind]
    have hQ := hok (UInt32.ofNat b) (by rwa [hto]) (by rwa [hto])
    rwa [hto] at hQ
  | none =>
    rw [wp_balloc_none hfind]
    refine hfull fun b hb => ?_
    simpa using List.find?_eq_none.mp hfind b (List.mem_range.mpr hb)

/-- **The rule of `bfree`.** -/
theorem wp_bfree {Q : Unit → Disk → Prop} (b : UInt32)
    (hok : marked sb d b.toNat = true → Q () (released sb d b.toNat))
    (hfree : marked sb d b.toNat = false → E (.panic "freeing free block")) :
    wp (bfree sb b) E Q d := by
  rw [bfree, wp_bind, wp_bread, wp_ite]
  refine ⟨hfree, fun h => ?_⟩
  exact hok (by simpa [marked] using h)

end Rules

/-! ### What an allocation changes -/

section Changes

variable {sb : Superblock} {d : Disk}

/-- The bits of two blocks are not the same one. -/
theorem eq_of_bit_eq {b c : ℕ} (hblock : sb.bblock b = sb.bblock c) (hbit : b % bpb = c % bpb) :
    b = c := by
  rw [Superblock.bblock, Superblock.bblock] at hblock
  have hdiv : b / bpb = c / bpb := by omega
  rw [← Nat.div_add_mod b bpb, ← Nat.div_add_mod c bpb, hdiv, hbit]

/-- A block outside the free map. -/
def Superblock.Outside (sb : Superblock) (b : ℕ) : Prop := b < sb.bmapstart ∨ sb.nmeta ≤ b

theorem Superblock.Outside.ne_bblock {b c : ℕ} (h : sb.Outside b) (hc : c < sb.size) :
    b ≠ sb.bblock c := by
  have hle : c / bpb ≤ sb.size / bpb := Nat.div_le_div_right hc.le
  intro hb
  rw [Superblock.bblock] at hb
  rcases h with h | h
  · exact absurd h (not_lt_of_ge (hb ▸ Nat.le_add_left _ _))
  · rw [Superblock.nmeta] at h
    generalize c / bpb = q at hle hb
    omega

/-- A block of inodes is outside the free map. -/
theorem Layout.outside_iblock (hl : Layout sb) {i : ℕ} (hi : i < sb.ninodes) :
    sb.Outside (sb.iblock i) := by
  have hle : i / ipb ≤ sb.ninodes / ipb := Nat.div_le_div_right hi.le
  have h := hl.inodes
  rw [Superblock.Outside, Superblock.iblock]
  omega

theorem marked_update_of_ne {b c : ℕ} (h : c ≠ sb.bblock b) (data : Block) :
    marked sb (Function.update d c data) b = marked sb d b := by
  rw [marked, Function.update_of_ne h.symm, marked]

/-- A write outside the free map. -/
theorem marked_update {b c : ℕ} (hc : sb.Outside c) (hb : b < sb.size) (data : Block) :
    marked sb (Function.update d c data) b = marked sb d b :=
  marked_update_of_ne (hc.ne_bblock hb) data

theorem marked_taken {b c : ℕ} (hb : sb.Outside b) (hc : c < sb.size) :
    marked sb (taken sb d b) c = (decide (b = c) || marked sb d c) := by
  have hmod : b % bpb < 8 * 512 := Nat.mod_lt _ (by decide)
  rw [taken, marked_update hb hc]
  by_cases hblock : sb.bblock c = sb.bblock b
  · rw [marked, hblock, Function.update_self, bitAt_setBit hmod, marked, hblock]
    congr 1
    rw [decide_eq_decide]
    exact ⟨fun h => eq_of_bit_eq hblock.symm h, fun h => by rw [h]⟩
  · have hne : b ≠ c := fun h => hblock (by rw [h])
    rw [marked_update_of_ne (Ne.symm hblock)]
    simp [hne]

theorem marked_released {b c : ℕ} :
    marked sb (released sb d b) c = (!decide (b = c) && marked sb d c) := by
  have hmod : b % bpb < 8 * 512 := Nat.mod_lt _ (by decide)
  rw [released]
  by_cases hblock : sb.bblock c = sb.bblock b
  · rw [marked, hblock, Function.update_self, bitAt_clearBit hmod, marked, hblock]
    congr 2
    rw [decide_eq_decide]
    exact ⟨fun h => eq_of_bit_eq hblock.symm h, fun h => by rw [h]⟩
  · have hne : b ≠ c := fun h => hblock (by rw [h])
    rw [marked_update_of_ne (Ne.symm hblock)]
    simp [hne]

theorem taken_self (b : ℕ) : taken sb d b b = zeroBlock := Function.update_self _ _ _

theorem taken_of_ne {b c : ℕ} (hb : b < sb.size) (hc : sb.Outside c) (hne : c ≠ b) :
    taken sb d b c = d c := by
  rw [taken, Function.update_of_ne hne, Function.update_of_ne (hc.ne_bblock hb)]

theorem released_of_outside {b c : ℕ} (hb : b < sb.size) (hc : sb.Outside c) :
    released sb d b c = d c := by
  rw [released, Function.update_of_ne (hc.ne_bblock hb)]

end Changes

end Fs
end Xv6
