import Xv6.Fs.Disk

/-!
# Inodes on the disk

The record that `fs.h` lays out in 64 bytes, and its place in the inode blocks.

* `Dinode` — the record; the cached copy of an inode holds the same fields.
* `Dinode.encode`, `Dinode.decode` — its bytes.
* `dinode`, `putDinode` — the inode of a number, read and written.
* `dinode_putDinode` — **inodes do not share bytes**.
-/

namespace Xv6
namespace Fs

open Prog Bytes

/-- `struct dinode`, and the fields of `struct inode` that are copies of it. -/
@[ext] structure Dinode where
  type : Int16
  major : Int16
  minor : Int16
  nlink : Int16
  size : UInt32
  addrs : Vector UInt32 13
  deriving DecidableEq

def tDir : Int16 := 1

def tFile : Int16 := 2

def tDev : Int16 := 3

namespace Dinode

/-- A zeroed inode in which two fields are set. -/
def blank (type nlink : Int16) : Dinode := ⟨type, 0, 0, nlink, 0, Vector.replicate 13 0⟩

/-- The address in the slot `i` of `addrs`. -/
def addr (ip : Dinode) (i : ℕ) : UInt32 := ip.addrs[i]?.getD 0

def setAddr (ip : Dinode) (i : ℕ) (a : UInt32) : Dinode :=
  { ip with addrs := ip.addrs.setIfInBounds i a }

theorem addr_setAddr {i : ℕ} (hi : i < 13) (ip : Dinode) (a : UInt32) (j : ℕ) :
    (ip.setAddr i a).addr j = if j = i then a else ip.addr j := by
  rw [addr, setAddr, addr, Vector.getElem?_setIfInBounds]
  by_cases hj : j = i
  · simp [hj, hi]
  · simp [hj, Ne.symm hj]

@[simp] theorem addr_blank (type nlink : Int16) (i : ℕ) : (blank type nlink).addr i = 0 := by
  rcases Nat.lt_or_ge i 13 with h | h
  · simp [addr, blank, h]
  · simp [addr, h]

@[simp] theorem setAddr_type (ip : Dinode) (i : ℕ) (a : UInt32) :
    (ip.setAddr i a).type = ip.type := rfl

@[simp] theorem setAddr_size (ip : Dinode) (i : ℕ) (a : UInt32) :
    (ip.setAddr i a).size = ip.size := rfl

/-! ### Bytes -/

/-- The fields, in their order, with their widths. -/
def encode (x : Dinode) : List UInt8 :=
  toLe 2 x.type.toUInt16.toNat ++ (toLe 2 x.major.toUInt16.toNat ++
    (toLe 2 x.minor.toUInt16.toNat ++ (toLe 2 x.nlink.toUInt16.toNat ++
      (toLe 4 x.size.toNat ++ x.addrs.toList.flatMap fun a => toLe 4 a.toNat))))

def decode (b : Block) (off : ℕ) : Dinode where
  type := (UInt16.ofNat (wordAt 2 b off)).toInt16
  major := (UInt16.ofNat (wordAt 2 b (off + 2))).toInt16
  minor := (UInt16.ofNat (wordAt 2 b (off + 4))).toInt16
  nlink := (UInt16.ofNat (wordAt 2 b (off + 6))).toInt16
  size := UInt32.ofNat (wordAt 4 b (off + 8))
  addrs := Vector.ofFn fun i => UInt32.ofNat (wordAt 4 b (off + 12 + 4 * i))

theorem length_flatMap_toLe (l : List UInt32) :
    (l.flatMap fun a => toLe 4 a.toNat).length = 4 * l.length := by
  induction l with
  | nil => rfl
  | cons a l ih =>
    rw [List.flatMap_cons, List.length_append, length_toLe, ih, List.length_cons]
    omega

@[simp] theorem length_encode (x : Dinode) : x.encode.length = 64 := by
  simp only [encode, List.length_append, length_toLe, length_flatMap_toLe, Vector.length_toList]

/-- The `i`-th address among the encoded ones. -/
theorem flatMap_toLe_split {l : List UInt32} {i : ℕ} (hi : i < l.length) :
    (l.flatMap fun a => toLe 4 a.toNat) =
      ((l.take i).flatMap fun a => toLe 4 a.toNat) ++
        (toLe 4 l[i].toNat ++ ((l.drop (i + 1)).flatMap fun a => toLe 4 a.toNat)) := by
  conv_lhs => rw [← List.take_append_drop i l, List.drop_eq_getElem_cons hi, List.flatMap_append,
    List.flatMap_cons]

theorem short_lt (x : Int16) : x.toUInt16.toNat < 256 ^ 2 := x.toUInt16.toNat_lt

theorem word_lt (x : UInt32) : x.toNat < 256 ^ 4 := x.toNat_lt

/-- A field in the encoded inode. -/
theorem wordAt_patch_encode {x : Dinode} {k v off o : ℕ} (pre post : List UInt8)
    (hx : x.encode = pre ++ (toLe k v ++ post)) (ho : o = off + pre.length) (hv : v < 256 ^ k)
    (h : o + k ≤ 512) (b : Block) : wordAt k (patch b off x.encode) o = v := by
  rw [hx, wordAt_patch_append ho hv h]

/-- **An inode is read back as it was written.** -/
theorem decode_patch_encode {off : ℕ} (h : off + 64 ≤ 512) (b : Block) (x : Dinode) :
    decode (patch b off x.encode) off = x := by
  have hshort : ∀ (o : ℕ) (y : Int16),
      wordAt 2 (patch b off x.encode) o = y.toUInt16.toNat →
        (UInt16.ofNat (wordAt 2 (patch b off x.encode) o)).toInt16 = y := fun o y hw => by
    rw [hw, UInt16.ofNat_toNat, Int16.toInt16_toUInt16]
  have htype : wordAt 2 (patch b off x.encode) off = x.type.toUInt16.toNat :=
    wordAt_patch_encode [] _ (by rw [encode]; rfl) (by simp) (short_lt _) (by omega) b
  have hmajor : wordAt 2 (patch b off x.encode) (off + 2) = x.major.toUInt16.toNat :=
    wordAt_patch_encode (toLe 2 x.type.toUInt16.toNat) _ (by rw [encode]) (by simp)
      (short_lt _) (by omega) b
  have hminor : wordAt 2 (patch b off x.encode) (off + 4) = x.minor.toUInt16.toNat :=
    wordAt_patch_encode (toLe 2 x.type.toUInt16.toNat ++ toLe 2 x.major.toUInt16.toNat) _
      (by rw [encode, List.append_assoc]) (by simp) (short_lt _) (by omega) b
  have hnlink : wordAt 2 (patch b off x.encode) (off + 6) = x.nlink.toUInt16.toNat :=
    wordAt_patch_encode (toLe 2 x.type.toUInt16.toNat ++ (toLe 2 x.major.toUInt16.toNat ++
      toLe 2 x.minor.toUInt16.toNat)) _ (by simp only [encode, List.append_assoc]; rfl) (by simp)
      (short_lt _) (by omega) b
  have hsize : wordAt 4 (patch b off x.encode) (off + 8) = x.size.toNat :=
    wordAt_patch_encode (toLe 2 x.type.toUInt16.toNat ++ (toLe 2 x.major.toUInt16.toNat ++
      (toLe 2 x.minor.toUInt16.toNat ++ toLe 2 x.nlink.toUInt16.toNat))) _
      (by simp only [encode, List.append_assoc]; rfl) (by simp) (word_lt _) (by omega) b
  refine Dinode.ext (hshort _ _ htype) (hshort _ _ hmajor) (hshort _ _ hminor)
    (hshort _ _ hnlink) ?_ (Vector.ext fun i hi => ?_)
  · exact (congrArg UInt32.ofNat hsize).trans UInt32.ofNat_toNat
  · have hlen : i < x.addrs.toList.length := by simpa using hi
    have haddr : wordAt 4 (patch b off x.encode) (off + 12 + 4 * i) = x.addrs[i].toNat :=
      wordAt_patch_encode (toLe 2 x.type.toUInt16.toNat ++ (toLe 2 x.major.toUInt16.toNat ++
        (toLe 2 x.minor.toUInt16.toNat ++ (toLe 2 x.nlink.toUInt16.toNat ++
          (toLe 4 x.size.toNat ++ (x.addrs.toList.take i).flatMap fun a => toLe 4 a.toNat))))) _
        (by simp only [encode, List.append_assoc]; rw [flatMap_toLe_split hlen]; rfl)
        (by simp only [List.length_append, length_toLe, length_flatMap_toLe, List.length_take]
            omega)
        (word_lt _) (by omega) b
    rw [decode, Vector.getElem_ofFn]
    exact (congrArg UInt32.ofNat haddr).trans UInt32.ofNat_toNat

/-- Bytes that are written elsewhere. -/
theorem decode_patch_of_disjoint {off off' : ℕ} {bs : List UInt8}
    (h : off' + 64 ≤ off ∨ off + bs.length ≤ off') (b : Block) :
    decode (patch b off bs) off' = decode b off' := by
  have hword : ∀ k o : ℕ, off' ≤ o → o + k ≤ off' + 64 →
      wordAt k (patch b off bs) o = wordAt k b o := fun k o ho hk =>
    wordAt_patch_of_disjoint (by omega) b
  refine Dinode.ext ?_ ?_ ?_ ?_ ?_ (Vector.ext fun i hi => ?_)
  · exact congrArg (fun v => (UInt16.ofNat v).toInt16) (hword 2 off' (by omega) (by omega))
  · exact congrArg (fun v => (UInt16.ofNat v).toInt16) (hword 2 (off' + 2) (by omega) (by omega))
  · exact congrArg (fun v => (UInt16.ofNat v).toInt16) (hword 2 (off' + 4) (by omega) (by omega))
  · exact congrArg (fun v => (UInt16.ofNat v).toInt16) (hword 2 (off' + 6) (by omega) (by omega))
  · exact congrArg UInt32.ofNat (hword 4 (off' + 8) (by omega) (by omega))
  · rw [decode, Vector.getElem_ofFn, decode, Vector.getElem_ofFn]
    exact congrArg UInt32.ofNat (hword 4 _ (by omega) (by omega))

end Dinode

/-! ### The inode blocks -/

/-- The inode `i` on the disk. -/
def dinode (sb : Superblock) (d : Disk) (i : ℕ) : Dinode :=
  Dinode.decode (d (sb.iblock i)) (64 * (i % ipb))

/-- The disk with the inode `i` written. -/
def putDinode (sb : Superblock) (d : Disk) (i : ℕ) (x : Dinode) : Disk :=
  Function.update d (sb.iblock i) (patch (d (sb.iblock i)) (64 * (i % ipb)) x.encode)

/-- What `ilock` reads. -/
def readDinode (sb : Superblock) (i : ℕ) : DiskProg Dinode := do
  let bp ← bread (sb.iblock i)
  return Dinode.decode bp (64 * (i % ipb))

/-- `iupdate` of the inode `i` with the copy `ip`. -/
def iupdate (sb : Superblock) (i : ℕ) (ip : Dinode) : DiskProg Unit := do
  let bp ← bread (sb.iblock i)
  logWrite (sb.iblock i) (patch bp (64 * (i % ipb)) ip.encode)

section Rules

variable {E : Stop → Prop} {d : Disk} {sb : Superblock}

@[simp] theorem wp_readDinode (i : ℕ) (Q : Dinode → Disk → Prop) :
    wp (readDinode sb i) E Q d ↔ Q (dinode sb d i) d := Iff.rfl

@[simp] theorem wp_iupdate (i : ℕ) (ip : Dinode) (Q : Unit → Disk → Prop) :
    wp (iupdate sb i ip) E Q d ↔ Q () (putDinode sb d i ip) := Iff.rfl

theorem putDinode_of_ne {i b : ℕ} (h : b ≠ sb.iblock i) (x : Dinode) :
    putDinode sb d i x b = d b := Function.update_of_ne h _ _

/-- **Inodes do not share bytes.** -/
theorem dinode_putDinode (i : ℕ) (x : Dinode) (j : ℕ) :
    dinode sb (putDinode sb d i x) j = if j = i then x else dinode sb d j := by
  have hi : i % 8 < 8 := Nat.mod_lt _ (by decide)
  have hj : j % 8 < 8 := Nat.mod_lt _ (by decide)
  by_cases hblock : sb.iblock j = sb.iblock i
  · rw [dinode, hblock, putDinode, Function.update_self]
    by_cases hji : j = i
    · rw [if_pos hji, hji, Dinode.decode_patch_encode (by rw [ipb]; omega)]
    · have hdiv : j / 8 = i / 8 := by
        simp only [Superblock.iblock, ipb] at hblock
        omega
      rw [if_neg hji, Dinode.decode_patch_of_disjoint
        (by rw [Dinode.length_encode, ipb]; omega), dinode, hblock]
  · have hji : j ≠ i := fun h => hblock (by rw [h])
    rw [dinode, putDinode_of_ne hblock, if_neg hji, dinode]

theorem Layout.iblock_lt (hl : Layout sb) {i : ℕ} (hi : i < sb.ninodes) :
    sb.iblock i < sb.bmapstart := by
  have hle : i / ipb ≤ sb.ninodes / ipb := Nat.div_le_div_right hi.le
  have h := hl.inodes
  rw [Superblock.iblock]
  omega

theorem Layout.iblock_pos (hl : Layout sb) (i : ℕ) : 0 < sb.iblock i :=
  hl.boot.trans_le (Nat.le_add_left _ _)

theorem marked_putDinode (hl : Layout sb) {i b : ℕ} (hi : i < sb.ninodes) (hb : b < sb.size)
    (x : Dinode) : marked sb (putDinode sb d i x) b = marked sb d b :=
  marked_update (hl.outside_iblock hi) hb _

end Rules

end Fs
end Xv6
