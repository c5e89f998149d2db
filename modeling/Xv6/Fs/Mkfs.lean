import Xv6.Fs.Dirent
import Xv6.Fs.FileArray

/-!
# mkfs

`mkfs.c` builds a file system in an image file: the superblock, the root directory, and one
file for each argument.  Blocks and inodes are given out one after the other by two
counters, and the free map is written at the end.

* `Image` — the image file and the two counters.
* `rsect`, `wsect`, `rinode`, `winode`, `ialloc`, `iappend`, `balloc`, `main` — the functions.
* `Image.disk` — the image as a disk whose free map is the one `balloc` will write.
-/

namespace Xv6
namespace Mkfs

open Fs Prog Bytes

/-- How `mkfs` ends early. -/
inductive Stop
  /-- An assertion fails. -/
  | abort
  | exit (status : ℕ)
  deriving DecidableEq

/-- The image file, of `length` sectors, behind which nothing can be read, and the counters
`freeinode` and `freeblock`. -/
structure Image where
  sectors : Disk
  length : ℕ
  freeinode : ℕ
  freeblock : ℕ

abbrev ImageProg (α : Type) := Prog Image Stop α

/-- The superblock that `main` writes, with `FSSIZE`, `NINODES` and `LOGSIZE`. -/
def sb : Superblock where
  size := 1000
  nblocks := 941
  ninodes := 200
  nlog := 30
  logstart := 2
  inodestart := 32
  bmapstart := 58

/-! ### The code -/

def rsect (sec : ℕ) : ImageProg Block := do
  let s ← get
  if sec < s.length then
    return s.sectors sec
  else
    stop (.exit 1)

/-- A sector behind the end makes the file longer. -/
def wsect (sec : ℕ) (buf : Block) : ImageProg Unit := modify fun s =>
  { s with sectors := Function.update s.sectors sec buf, length := max s.length (sec + 1) }

def winode (inum : ℕ) (ip : Dinode) : ImageProg Unit := do
  let buf ← rsect (sb.iblock inum)
  wsect (sb.iblock inum) (patch buf (64 * (inum % ipb)) ip.encode)

def rinode (inum : ℕ) : ImageProg Dinode := do
  let buf ← rsect (sb.iblock inum)
  return Dinode.decode buf (64 * (inum % ipb))

def ialloc (type : Int16) : ImageProg ℕ := do
  let inum ← modifyGet fun s => (s.freeinode, { s with freeinode := s.freeinode + 1 })
  winode inum (Dinode.blank type 1)
  return inum

/-- `freeblock++` -/
def nextBlock : ImageProg UInt32 :=
  modifyGet fun s => (UInt32.ofNat s.freeblock, { s with freeblock := s.freeblock + 1 })

/-- The indirect block is given out if necessary. -/
def indirectOf (din : Dinode) : ImageProg Dinode := do
  if din.addr ndirect = 0 then
    let x ← nextBlock
    return din.setAddr ndirect x
  else
    return din

/-- The part of `iappend` that finds the address of the block `fbn`, and the inode with the
addresses that were given out. -/
def blockOf (din : Dinode) (fbn : ℕ) : ImageProg (UInt32 × Dinode) := do
  if fbn < ndirect then
    if din.addr fbn = 0 then
      let x ← nextBlock
      return (x, din.setAddr fbn x)
    else
      return (din.addr fbn, din)
  else
    let din ← indirectOf din
    let indirect ← rsect (din.addr ndirect).toNat
    if entry indirect (fbn - ndirect) = 0 then
      let x ← nextBlock
      wsect (din.addr ndirect).toNat (setEntry indirect (fbn - ndirect) x)
      return (x, din)
    else
      return (entry indirect (fbn - ndirect), din)

/-- The loop of `iappend`, for the bytes `p` that are left: the inode and the offset. -/
def appendLoop (din : Dinode) (off : ℕ) (p : List UInt8) : ImageProg (Dinode × ℕ) := do
  if p.length = 0 then
    return (din, off)
  else
    let fbn := off / bsize
    if fbn < maxfile then
      let (x, din) ← blockOf din fbn
      let n1 := min p.length ((fbn + 1) * bsize - off)
      let buf ← rsect x.toNat
      wsect x.toNat (patch buf (off - fbn * bsize) (p.take n1))
      appendLoop din (off + n1) (p.drop n1)
    else
      stop .abort
termination_by p.length
decreasing_by
  rw [List.length_drop]
  rw [bsize]
  omega

def iappend (inum : ℕ) (p : List UInt8) : ImageProg Unit := do
  let din ← rinode inum
  let (din, off) ← appendLoop din din.size.toNat p
  winode inum { din with size := UInt32.ofNat off }

/-- The bitmap block with the first `used` bits set. -/
def usedMap (used : ℕ) : Block := (List.range used).foldl setBit zeroBlock

def balloc (used : ℕ) : ImageProg Unit := do
  if used < bsize * 8 then
    wsect sb.bmapstart (usedMap used)
  else
    stop .abort

/-- An argument: its name, and what the `read` calls give, or nothing if it cannot be
opened. -/
structure Input where
  name : List UInt8
  reads : Option (List (List UInt8))

/-- A leading `_` of a name is skipped. -/
def Input.stored (f : Input) : List UInt8 :=
  if f.name.head? = some 0x5f then f.name.tail else f.name

/-- One round of the loop over the arguments. -/
def addFile (rootino : ℕ) (f : Input) : ImageProg Unit := do
  if 0x2f ∈ f.name then
    stop .abort
  else
    match f.reads with
    | none => stop (.exit 1)
    | some reads =>
        let inum ← ialloc tFile
        iappend rootino (Dirent.encode ⟨inum, f.stored⟩)
        reads.forM fun buf => iappend inum buf

/-- The superblock as bytes. -/
def sbBytes : List UInt8 :=
  toLe 4 sb.size ++ toLe 4 sb.nblocks ++ toLe 4 sb.ninodes ++ toLe 4 sb.nlog ++
    toLe 4 sb.logstart ++ toLe 4 sb.inodestart ++ toLe 4 sb.bmapstart

/-- The loop that writes the zeroed sectors. -/
@[irreducible] def zeroes (n : ℕ) : ImageProg Unit := (List.range n).forM fun i => wsect i zeroBlock

/-- `main`, from the empty image on; it returns for `exit(0)`. -/
def main (files : List Input) : ImageProg Unit := do
  modify fun s => { s with freeblock := sb.nmeta }
  zeroes sb.size
  wsect 1 (patch zeroBlock 0 sbBytes)
  let rootino ← ialloc tDir
  if rootino = 1 then
    iappend rootino (Dirent.encode ⟨rootino, [0x2e]⟩)
    iappend rootino (Dirent.encode ⟨rootino, [0x2e, 0x2e]⟩)
    files.forM fun f => addFile rootino f
    let din ← rinode rootino
    let off := (din.size.toNat / bsize + 1) * bsize
    winode rootino { din with size := UInt32.ofNat off }
    balloc (← get).freeblock
  else
    stop .abort

/-- The image that `open` with `O_TRUNC` leaves, and the counters at the start. -/
def Image.empty : Image := ⟨fun _ => zeroBlock, 0, 1, 0⟩

/-! ### The image as a disk -/

/-- The image with the free map that `balloc` would write. -/
def Image.disk (s : Image) : Disk := Function.update s.sectors sb.bmapstart (usedMap s.freeblock)

theorem bitAt_usedMap {used : ℕ} (h : used ≤ 4096) (i : ℕ) :
    bitAt (usedMap used) i = decide (i < used) := by
  induction used with
  | zero =>
    rw [usedMap, List.range_zero, List.foldl_nil, zeroBlock, bitAt_zero]
    simp
  | succ n ih =>
    rw [usedMap, List.range_succ, List.foldl_append, List.foldl_cons, List.foldl_nil,
      bitAt_setBit (by omega), ← usedMap, ih (by omega), ← Bool.decide_or, decide_eq_decide]
    omega

theorem sb_layout : Layout sb := ⟨by decide, by decide, by decide, by decide, by decide⟩

end Mkfs
end Xv6
