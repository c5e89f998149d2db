import Xv6.Fs.FileData
import Xv6.Lib.Table

/-!
# References to inodes

`iget`, `idup`, `ilock`, `iunlock` and `iput` of `fs.c`, called by one process while no other one
is at work on inodes.

## Main definitions

* `Icache` — the disks, and the table of inodes in memory.
* `Agrees` — the inodes of which the table and the disks hold the copies.
* `Since` — what has become of the table since a call began: the references that it has taken, and
  the lock that it holds.

## Main results

* `wp_iget`, `wp_idup`, `wp_ilock`, `wp_iunlock`, `wp_iput` — **the rules**: each of these functions
  takes or releases one reference or lock, and the inodes stay as they are.
-/

namespace Xv6
namespace Fs

open Prog

/-! ### The code -/

/-- A device, and the number of an inode on it. -/
structure Ino where
  dev : UInt32
  inum : UInt32
  deriving DecidableEq

/-- An index into `icache.inode`, of which there are `NINODE`. -/
abbrev Slot := Fin 50

instance neZeroSlots : NeZero 50 := ⟨by decide⟩

/-- `struct inode` -/
structure Inode where
  ino : Ino
  ref : ℕ
  locked : Bool
  valid : Bool
  /-- The fields that are copied from the disk. -/
  copy : Dinode

/-- The disks, and `icache`. -/
structure Icache where
  disk : UInt32 → Disk
  inode : Slot → Inode

abbrev IcacheProg (α : Type) := Prog Icache Stop α

def Icache.set (s : Icache) (i : Slot) (ip : Inode) : Icache :=
  { s with inode := Function.update s.inode i ip }

def Icache.setRef (s : Icache) (i : Slot) (n : ℕ) : Icache :=
  s.set i { s.inode i with ref := n }

def Icache.setLocked (s : Icache) (i : Slot) (b : Bool) : Icache :=
  s.set i { s.inode i with locked := b }

/-- A function of one disk. -/
def onDisk {α : Type} (dev : UInt32) (x : DiskProg α) : IcacheProg α :=
  zoom (fun s => s.disk dev) (fun d s => { s with disk := Function.update s.disk dev d }) x

/-- The slot is in use, for the inode `x`. -/
def Icache.Holds (s : Icache) (i : Slot) (x : Ino) : Prop :=
  0 < (s.inode i).ref ∧ (s.inode i).ino = x

instance (s : Icache) (i : Slot) (x : Ino) : Decidable (s.Holds i x) :=
  inferInstanceAs (Decidable (_ ∧ _))

def noInodes : Stop := .panic "iget: no inodes"

/-- `iget` -/
def iget (x : Ino) : IcacheProg Slot := do
  let s ← get
  match Table.find fun i => s.Holds i x with
  | some i =>
      set (s.setRef i ((s.inode i).ref + 1))
      return i
  | none =>
    match Table.find fun i => (s.inode i).ref = 0 with
    | some i =>
        set (s.set i { s.inode i with ino := x, ref := 1, valid := false })
        return i
    | none => stop noInodes

/-- `idup` -/
def idup (i : Slot) : IcacheProg Slot := do
  let s ← get
  set (s.setRef i ((s.inode i).ref + 1))
  return i

def acquiresleep (i : Slot) : IcacheProg Unit := do
  let s ← get
  if (s.inode i).locked then stop .deadlock
  else set (s.setLocked i true)

def releasesleep (i : Slot) : IcacheProg Unit := do
  let s ← get
  set (s.setLocked i false)

/-- `ilock` -/
def ilock (sb : Superblock) (i : Slot) : IcacheProg Unit := do
  if ((← get).inode i).ref < 1 then stop (.panic "ilock")
  else
    acquiresleep i
    let ip := (← get).inode i
    if ip.valid then return
    else
      let dip ← onDisk ip.ino.dev (readDinode sb ip.ino.inum.toNat)
      modify fun s => s.set i { ip with copy := dip, valid := true }
      if dip.type = 0 then stop (.panic "ilock: no type") else return

/-- `iunlock` -/
def iunlock (i : Slot) : IcacheProg Unit := do
  let ip := (← get).inode i
  if ip.locked = false ∨ ip.ref < 1 then stop (.panic "iunlock")
  else releasesleep i

/-- `itrunc` of the inode `inum`. -/
def itrunc (sb : Superblock) (inum : ℕ) (ip : Dinode) : DiskProg Dinode := do
  let ip ← (List.range ndirect).foldlM (fun ip i => do
    if ip.addr i ≠ 0 then
      bfree sb (ip.addr i)
      return ip.setAddr i 0
    else
      return ip) ip
  let ip ←
    if ip.addr ndirect ≠ 0 then do
      let bp ← bread (ip.addr ndirect).toNat
      (List.range nindirect).forM fun j => do
        if entry bp j ≠ 0 then bfree sb (entry bp j)
      bfree sb (ip.addr ndirect)
      pure (ip.setAddr ndirect 0)
    else
      pure ip
  let ip := { ip with size := 0 }
  iupdate sb inum ip
  return ip

/-- What `iput` does before it gives up the lock. -/
def ifree (sb : Superblock) (i : Slot) : IcacheProg Unit := do
  let ip := (← get).inode i
  if ip.valid ∧ ip.copy.nlink = 0 ∧ ip.ref = 1 then
    let dip ← onDisk ip.ino.dev (itrunc sb ip.ino.inum.toNat ip.copy)
    let dip := { dip with type := 0 }
    onDisk ip.ino.dev (iupdate sb ip.ino.inum.toNat dip)
    modify fun s => s.set i { ip with copy := dip, valid := false }

/-- `iput` -/
def iput (sb : Superblock) (i : Slot) : IcacheProg Unit := do
  acquiresleep i
  ifree sb i
  releasesleep i
  modify fun s => s.setRef i ((s.inode i).ref - 1)

/-- `iunlockput` -/
def iunlockput (sb : Superblock) (i : Slot) : IcacheProg Unit := do
  iunlock i
  iput sb i

/-! ### The inodes -/

/-- The inode on its disk. -/
def Icache.stored (sb : Superblock) (s : Icache) (x : Ino) : Dinode :=
  dinode sb (s.disk x.dev) x.inum.toNat

/-- The inode in a slot: the copy, or what it will be. -/
def Icache.current (sb : Superblock) (s : Icache) (i : Slot) : Dinode :=
  if (s.inode i).valid then (s.inode i).copy else s.stored sb (s.inode i).ino

/-- The table and the disks hold the inodes `inode`. -/
structure Agrees (sb : Superblock) (s : Icache) (inode : Ino → Dinode) : Prop where
  cached : ∀ i, 0 < (s.inode i).ref → s.current sb i = inode (s.inode i).ino
  stored : ∀ x, (∀ i, ¬s.Holds i x) → s.stored sb x = inode x

/-- From `s₀` to `s`, the references `held` have been taken, and the lock `lk`. -/
structure Since (sb : Superblock) (inode : Ino → Dinode) (s₀ : Icache) (held : Slot → ℕ)
    (lk : Option Slot) (s : Icache) : Prop where
  disk : s.disk = s₀.disk
  ref : ∀ i, (s.inode i).ref = (s₀.inode i).ref + held i
  locked : ∀ i, (s.inode i).locked = true ↔ lk = some i
  ino : ∀ i, 0 < (s₀.inode i).ref → (s.inode i).ino = (s₀.inode i).ino
  agrees : Agrees sb s inode
  /-- A slot that was not in use has an inode that was not in the table. -/
  fresh : ∀ i, (s₀.inode i).ref = 0 → 0 < held i → ∀ j, ¬s₀.Holds j (s.inode i).ino

section Rules

variable {sb : Superblock} {inode : Ino → Dinode} {s₀ s : Icache} {held : Slot → ℕ}
  {lk : Option Slot} {E : Stop → Prop} {i : Slot}

theorem Icache.inode_set (s : Icache) (i : Slot) (ip : Inode) (j : Slot) :
    (s.set i ip).inode j = if j = i then ip else s.inode j := Function.update_apply _ _ _ _

/-- A change of a slot that leaves its inode. -/
theorem Icache.ino_set (s : Icache) {i : Slot} {ip : Inode} (hino : ip.ino = (s.inode i).ino)
    (j : Slot) : ((s.set i ip).inode j).ino = (s.inode j).ino := by
  rw [s.inode_set]
  split
  · next hj => rw [hj, hino]
  · rfl

/-- A change of a slot that leaves its references. -/
theorem Icache.ref_set (s : Icache) {i : Slot} {ip : Inode} (href : ip.ref = (s.inode i).ref)
    (j : Slot) : ((s.set i ip).inode j).ref = (s.inode j).ref := by
  rw [s.inode_set]
  split
  · next hj => rw [hj, href]
  · rfl

/-- A change of a slot that leaves what it holds. -/
theorem Icache.current_set (s : Icache) {i : Slot} {ip : Inode}
    (h : (s.set i ip).current sb i = s.current sb i) (j : Slot) :
    (s.set i ip).current sb j = s.current sb j := by
  by_cases hj : j = i
  · rw [hj, h]
  · rw [Icache.current, s.inode_set, if_neg hj]
    rfl

section SetRef

variable (s) (i) (n : ℕ) (j : Slot)

theorem Icache.ref_setRef :
    ((s.setRef i n).inode j).ref = if j = i then n else (s.inode j).ref := by
  rw [Icache.setRef, s.inode_set]
  split <;> rfl

@[simp] theorem Icache.ino_setRef : ((s.setRef i n).inode j).ino = (s.inode j).ino := by
  refine s.ino_set ?_ j
  rfl

@[simp] theorem Icache.locked_setRef :
    ((s.setRef i n).inode j).locked = (s.inode j).locked := by
  rw [Icache.setRef, s.inode_set]
  split
  · next hj => rw [hj]
  · rfl

theorem Icache.valid_setRef : ((s.setRef i n).inode j).valid = (s.inode j).valid := by
  rw [Icache.setRef, s.inode_set]
  split
  · next hj => rw [hj]
  · rfl

theorem Icache.copy_setRef : ((s.setRef i n).inode j).copy = (s.inode j).copy := by
  rw [Icache.setRef, s.inode_set]
  split
  · next hj => rw [hj]
  · rfl

@[simp] theorem Icache.current_setRef : (s.setRef i n).current sb j = s.current sb j :=
  s.current_set (by rw [Icache.current, s.inode_set, if_pos rfl]; rfl) j

end SetRef

/-- A lock is taken and given back. -/
theorem Icache.setLocked_back (h : (s.inode i).locked = false) :
    (s.setLocked i true).setLocked i false = s := by
  have hself : { s.inode i with locked := false } = s.inode i := by rw [← h]
  refine congrArg (Icache.mk s.disk) (funext fun j => ?_)
  change ((s.setLocked i true).setLocked i false).inode j = _
  rw [Icache.setLocked, Icache.inode_set, Icache.setLocked, s.inode_set, s.inode_set, if_pos rfl]
  split
  · next hj => rw [hj, hself]
  · rfl

theorem Since.refl (hagree : Agrees sb s inode) (hunlocked : ∀ i, (s.inode i).locked = false) :
    Since sb inode s 0 none s where
  disk := rfl
  ref := fun _ => rfl
  locked := fun i => by simp [hunlocked i]
  ino := fun _ _ => rfl
  agrees := hagree
  fresh := fun _ _ h => absurd h (lt_irrefl 0)

/-- What the table held it still holds. -/
theorem Since.holds (h : Since sb inode s₀ held lk s) {x : Ino} (hx : s₀.Holds i x) :
    s.Holds i x := by
  refine ⟨?_, (h.ino i hx.1).trans hx.2⟩
  rw [h.ref i]
  exact Nat.lt_add_right _ hx.1

/-- A change of a slot that leaves its inode, its references and its place in the table. -/
theorem Since.set_same (h : Since sb inode s₀ held lk s) {ip : Inode} {lk' : Option Slot}
    (hino : ip.ino = (s.inode i).ino) (href : ip.ref = (s.inode i).ref)
    (hlk : ∀ j, (if j = i then ip.locked else (s.inode j).locked) = true ↔ lk' = some j)
    (hcurrent : (s.set i ip).current sb i = s.current sb i) :
    Since sb inode s₀ held lk' (s.set i ip) := by
  have hinos := s.ino_set hino
  have hrefs := s.ref_set href
  refine ⟨h.disk, fun j => (hrefs j).trans (h.ref j), fun j => ?_,
    fun j hj => (hinos j).trans (h.ino j hj), ⟨fun j hj => ?_, fun x hx => ?_⟩,
    fun j hj hheld => ?_⟩
  · rw [s.inode_set, ← hlk j]
    split <;> rfl
  · rw [hrefs] at hj
    rw [hinos, ← h.agrees.cached j hj, s.current_set hcurrent]
  · refine h.agrees.stored x fun j hj => hx j ⟨?_, ?_⟩
    · rw [hrefs]
      exact hj.1
    · rw [hinos]
      exact hj.2
  · rw [hinos]
    exact h.fresh j hj hheld

theorem Since.addRef (h : Since sb inode s₀ held lk s) (hi : 0 < (s.inode i).ref) :
    Since sb inode s₀ (held + Pi.single i 1) lk (s.setRef i ((s.inode i).ref + 1)) := by
  -- the slots in use are the same
  have hused : ∀ j, 0 < ((s.setRef i ((s.inode i).ref + 1)).inode j).ref ↔ 0 < (s.inode j).ref :=
    fun j => by
      rw [s.ref_setRef]
      split
      · next hj => exact iff_of_true (Nat.succ_pos _) (hj ▸ hi)
      · rfl
  refine ⟨h.disk, fun j => ?_, fun j => ?_, fun j hj => ?_, ⟨fun j hj => ?_, fun x hx => ?_⟩,
    fun j hj hheld => ?_⟩
  · rw [s.ref_setRef, Pi.add_apply, Pi.single_apply]
    split
    · next hj => rw [hj, h.ref i, Nat.add_assoc]
    · rw [h.ref j, Nat.add_zero]
  · rw [s.locked_setRef, h.locked j]
  · rw [s.ino_setRef, h.ino j hj]
  · rw [s.current_setRef, s.ino_setRef]
    exact h.agrees.cached j ((hused j).mp hj)
  · refine h.agrees.stored x fun j hj => hx j ⟨(hused j).mpr hj.1, ?_⟩
    rw [s.ino_setRef]
    exact hj.2
  · rw [s.ino_setRef]
    refine h.fresh j hj ?_
    rw [Pi.add_apply, Pi.single_apply] at hheld
    split at hheld
    · next hji =>
      rw [← hji, h.ref j, hj] at hi
      omega
    · exact hheld

/-- The last reference to an inode that was not in the table leaves it to its disk. -/
theorem Since.dropRef (hagree : Agrees sb s₀ inode)
    (h : Since sb inode s₀ (held + Pi.single i 1) lk s) :
    Since sb inode s₀ held lk (s.setRef i ((s.inode i).ref - 1)) := by
  have hrefs : ∀ j, ((s.setRef i ((s.inode i).ref - 1)).inode j).ref =
      (s₀.inode j).ref + held j := fun j => by
    have hj := h.ref j
    rw [Pi.add_apply, Pi.single_apply] at hj
    rw [s.ref_setRef]
    split
    · next hji =>
      rw [if_pos hji, hji] at hj
      rw [hji]
      omega
    · next hji => rwa [if_neg hji] at hj
  refine ⟨h.disk, hrefs, fun j => ?_, fun j hj => ?_, ⟨fun j hj => ?_, fun x hx => ?_⟩,
    fun j hj hheld => ?_⟩
  · rw [s.locked_setRef, h.locked j]
  · rw [s.ino_setRef, h.ino j hj]
  · rw [s.current_setRef, s.ino_setRef]
    refine h.agrees.cached j ?_
    rw [hrefs] at hj
    rw [h.ref j, Pi.add_apply]
    omega
  · by_cases hheld : ∃ j, s.Holds j x
    · obtain ⟨j, hj, hjx⟩ := hheld
      have hnot := hx j
      rw [Icache.Holds, hrefs, s.ino_setRef, not_and] at hnot
      have hzero : (s₀.inode j).ref = 0 ∧ held j = 0 := by
        by_contra hne
        exact hnot (by omega) hjx
      have hfresh := h.fresh j hzero.1 (by rw [h.ref j, hzero.1] at hj; omega)
      rw [hjx] at hfresh
      rw [← hagree.stored x hfresh, Icache.stored, Icache.stored,
        show (s.setRef i ((s.inode i).ref - 1)).disk = s₀.disk from h.disk]
    · exact h.agrees.stored x fun j hj => hheld ⟨j, hj⟩
  · rw [s.ino_setRef]
    refine h.fresh j hj ?_
    rw [Pi.add_apply]
    omega

/-- An inode that was not in the table is put into a slot that is not in use. -/
theorem Since.fill (h : Since sb inode s₀ held lk s) (hi : (s.inode i).ref = 0) {x : Ino}
    (hx : ∀ j, ¬s.Holds j x) : Since sb inode s₀ (held + Pi.single i 1) lk
      (s.set i { s.inode i with ino := x, ref := 1, valid := false }) := by
  have hzero : (s₀.inode i).ref = 0 ∧ held i = 0 := by
    have href := h.ref i
    omega
  refine ⟨h.disk, fun j => ?_, fun j => ?_, fun j hj => ?_, ⟨fun j hj => ?_, fun y hy => ?_⟩,
    fun j hj hheld => ?_⟩
  · rw [s.inode_set, Pi.add_apply, Pi.single_apply]
    split
    · next hj => rw [hj, hzero.1, hzero.2]
    · rw [h.ref j, Nat.add_zero]
  · rw [← h.locked j, s.inode_set]
    split
    · next hj => rw [hj]
    · rfl
  · have hji : j ≠ i := by
      rintro rfl
      omega
    rw [s.inode_set, if_neg hji, h.ino j hj]
  · rw [Icache.current, s.inode_set]
    split
    · exact h.agrees.stored x hx
    · next hji =>
      rw [s.inode_set, if_neg hji] at hj
      exact h.agrees.cached j hj
  · refine h.agrees.stored y fun j hj => hy j ?_
    have hji : j ≠ i := by
      rintro rfl
      have hpos := hj.1
      omega
    rw [Icache.Holds, s.inode_set, if_neg hji]
    exact hj
  · rw [s.inode_set]
    split
    · exact fun k hk => hx k (h.holds hk)
    · next hji =>
      rw [Pi.add_apply, Pi.single_apply, if_neg hji, Nat.add_zero] at hheld
      exact h.fresh j hj hheld

/-- **The rule of `iget`.** -/
theorem wp_iget {x : Ino} {Q : Slot → Icache → Prop} (h : Since sb inode s₀ held lk s)
    (hfull : (∀ j, (s.inode j).ref ≠ 0) → E noInodes)
    (hQ : ∀ i s', Since sb inode s₀ (held + Pi.single i 1) lk s' → (s'.inode i).ino = x →
      (∀ j, 0 < (s.inode j).ref → (s'.inode j).ino = (s.inode j).ino) → Q i s') :
    wp (iget x) E Q s := by
  rw [iget, wp_bind, wp_get]
  cases hfind : Table.find fun i => decide (s.Holds i x) with
  | some i =>
    have hi : s.Holds i x := of_decide_eq_true (Table.find_spec hfind)
    rw [wp_bind, wp_set, wp_pure]
    exact hQ i _ (h.addRef hi.1) (by rw [s.ino_setRef]; exact hi.2) fun j _ => s.ino_setRef i _ j
  | none =>
    have hx : ∀ j, ¬s.Holds j x := fun j =>
      of_decide_eq_false (Table.find_eq_none.mp hfind j)
    dsimp only
    cases hempty : Table.find fun i => decide ((s.inode i).ref = 0) with
    | some i =>
      have hi : (s.inode i).ref = 0 := of_decide_eq_true (Table.find_spec hempty)
      rw [wp_bind, wp_set, wp_pure]
      refine hQ i _ (h.fill hi hx) (by rw [s.inode_set, if_pos rfl]) fun j hj => ?_
      have hji : j ≠ i := by
        rintro rfl
        omega
      rw [s.inode_set, if_neg hji]
    | none => exact hfull fun j => of_decide_eq_false (Table.find_eq_none.mp hempty j)

/-- **The rule of `idup`.** -/
theorem wp_idup {Q : Slot → Icache → Prop} (h : Since sb inode s₀ held lk s)
    (hi : 0 < (s.inode i).ref)
    (hQ : ∀ s', Since sb inode s₀ (held + Pi.single i 1) lk s' →
      (∀ j, (s'.inode j).ino = (s.inode j).ino) → Q i s') : wp (idup i) E Q s := by
  rw [idup, wp_bind, wp_get, wp_bind, wp_set, wp_pure]
  exact hQ _ (h.addRef hi) (s.ino_setRef i _)

/-- The lock of an inode is taken or given back. -/
theorem Since.setLocked (h : Since sb inode s₀ held lk s) {b : Bool} {lk' : Option Slot}
    (hlk : ∀ j, (if j = i then b else (s.inode j).locked) = true ↔ lk' = some j) :
    Since sb inode s₀ held lk' (s.setLocked i b) :=
  h.set_same rfl rfl hlk (by rw [Icache.current, s.inode_set, if_pos rfl]; rfl)

theorem wp_acquiresleep {Q : Unit → Icache → Prop} (h : Since sb inode s₀ held none s)
    (hQ : Since sb inode s₀ held (some i) (s.setLocked i true) → Q () (s.setLocked i true)) :
    wp (acquiresleep i) E Q s := by
  have hfree : (s.inode i).locked = false := by
    rw [← Bool.not_eq_true, h.locked i]
    exact nofun
  rw [acquiresleep, wp_bind, wp_get, if_neg (by rw [hfree]; decide), wp_set]
  refine hQ (h.setLocked fun j => ?_)
  split
  · next hj => simp [hj]
  · next hj =>
    rw [h.locked j]
    simp [Ne.symm hj]

theorem wp_releasesleep {Q : Unit → Icache → Prop} (h : Since sb inode s₀ held (some i) s)
    (hQ : Since sb inode s₀ held none (s.setLocked i false) → Q () (s.setLocked i false)) :
    wp (releasesleep i) E Q s := by
  rw [releasesleep, wp_bind, wp_get, wp_set]
  refine hQ (h.setLocked fun j => ?_)
  split
  · simp
  · next hj =>
    rw [h.locked j]
    simp [Ne.symm hj]

@[simp] theorem Icache.ino_setLocked (s : Icache) (i : Slot) (b : Bool) (j : Slot) :
    ((s.setLocked i b).inode j).ino = (s.inode j).ino := by
  refine s.ino_set ?_ j
  rfl

/-- What is read of the disk leaves the disk. -/
theorem wp_onDisk_read {α : Type} {dev : UInt32} {x : DiskProg α} {Q : α → Icache → Prop}
    (h : wp x E (fun a d => d = s.disk dev ∧ Q a s) (s.disk dev)) : wp (onDisk dev x) E Q s := by
  rw [onDisk, wp_zoom]
  refine wp_imp h ?_
  rintro a d ⟨rfl, hQ⟩
  rwa [Function.update_eq_self]

/-- **The rule of `ilock`**, for an inode that is allocated. -/
theorem wp_ilock {Q : Unit → Icache → Prop} (h : Since sb inode s₀ held none s)
    (hi : 0 < (s.inode i).ref) (htype : (inode (s.inode i).ino).type ≠ 0)
    (hQ : ∀ s', Since sb inode s₀ held (some i) s' → (∀ j, (s'.inode j).ino = (s.inode j).ino) →
      (s'.inode i).copy = inode (s.inode i).ino → Q () s') : wp (ilock sb i) E Q s := by
  rw [ilock, wp_bind, wp_get, if_neg (by omega), wp_bind]
  refine wp_acquiresleep h fun h₁ => ?_
  have hcurrent : (s.setLocked i true).current sb i = inode (s.inode i).ino := by
    have hpos : 0 < ((s.setLocked i true).inode i).ref := by
      rwa [Icache.setLocked, s.inode_set, if_pos rfl]
    rw [h₁.agrees.cached i hpos, s.ino_setLocked]
  have hinos := s.ino_setLocked i true
  generalize s.setLocked i true = s₁ at h₁ hcurrent hinos ⊢
  rw [wp_bind, wp_get]
  dsimp only
  cases hvalid : (s₁.inode i).valid with
  | true =>
    rw [if_pos rfl, wp_pure]
    rw [Icache.current, if_pos hvalid] at hcurrent
    exact hQ s₁ h₁ hinos hcurrent
  | false =>
    rw [Icache.current, if_neg (by rw [hvalid]; decide)] at hcurrent
    rw [if_neg (by decide), wp_bind]
    refine wp_onDisk_read ((wp_readDinode _ _).mpr ⟨rfl, ?_⟩)
    have hdip : dinode sb (s₁.disk (s₁.inode i).ino.dev) (s₁.inode i).ino.inum.toNat =
        inode (s.inode i).ino := hcurrent
    rw [hdip, wp_bind, wp_modify, if_neg htype, wp_pure]
    refine hQ _ (h₁.set_same rfl rfl (fun j => ?_) ?_) (fun j => ?_) ?_
    · rw [← h₁.locked j]
      split
      · next hj => rw [hj]
      · rfl
    · rw [Icache.current, Icache.current, s₁.inode_set, if_pos rfl, if_pos rfl, hvalid, hcurrent]
      rfl
    · refine (s₁.ino_set ?_ j).trans (hinos j)
      rfl
    · rw [s₁.inode_set, if_pos rfl]

/-- **The rule of `iunlock`.** -/
theorem wp_iunlock {Q : Unit → Icache → Prop} (h : Since sb inode s₀ held (some i) s)
    (hi : 0 < (s.inode i).ref)
    (hQ : ∀ s', Since sb inode s₀ held none s' → (∀ j, (s'.inode j).ino = (s.inode j).ino) →
      Q () s') : wp (iunlock i) E Q s := by
  have hlocked := (h.locked i).mpr rfl
  rw [iunlock, wp_bind, wp_get]
  dsimp only
  rw [if_neg (by rw [hlocked]; simp; omega)]
  exact wp_releasesleep h fun h' => hQ _ h' (s.ino_setLocked i false)

/-- The inode is not freed: it has a link, or another reference. -/
def Retained (inode : Ino → Dinode) (s₀ : Icache) (x : Ino) : Prop :=
  (inode x).nlink ≠ 0 ∨ ∃ j, s₀.Holds j x

/-- **The rule of `iput`**, for an inode that it does not free. -/
theorem wp_iput {Q : Unit → Icache → Prop} (hagree : Agrees sb s₀ inode)
    (h : Since sb inode s₀ (held + Pi.single i 1) none s)
    (hretained : Retained inode s₀ (s.inode i).ino)
    (hQ : ∀ s', Since sb inode s₀ held none s' → (∀ j, (s'.inode j).ino = (s.inode j).ino) →
      Q () s') : wp (iput sb i) E Q s := by
  rw [iput, wp_bind]
  refine wp_acquiresleep h fun h₁ => ?_
  have hinos := s.ino_setLocked i true
  generalize s.setLocked i true = s₁ at h₁ hinos ⊢
  have href := h₁.ref i
  rw [Pi.add_apply, Pi.single_eq_same] at href
  have hnot : ¬((s₁.inode i).valid = true ∧ (s₁.inode i).copy.nlink = 0 ∧
      (s₁.inode i).ref = 1) := by
    rintro ⟨hvalid, hnlink, hone⟩
    rcases hretained with hlink | ⟨j, hj⟩
    · have hcurrent := h₁.agrees.cached i (by omega)
      rw [Icache.current, if_pos hvalid, hinos] at hcurrent
      rw [hcurrent] at hnlink
      exact hlink hnlink
    · have hfresh := h₁.fresh i (by omega) (by rw [Pi.add_apply, Pi.single_eq_same]; omega) j
      rw [hinos] at hfresh
      exact hfresh hj
  rw [wp_bind, ifree, wp_bind, wp_get]
  dsimp only
  rw [if_neg hnot, wp_pure, wp_bind]
  refine wp_releasesleep h₁ fun h₂ => ?_
  have hinos₂ := s₁.ino_setLocked i false
  generalize s₁.setLocked i false = s₂ at h₂ hinos₂ ⊢
  rw [wp_modify]
  exact hQ _ (h₂.dropRef hagree) fun j =>
    (s₂.ino_setRef i _ j).trans ((hinos₂ j).trans (hinos j))

/-- The rule of `iunlockput`. -/
theorem wp_iunlockput {Q : Unit → Icache → Prop} (hagree : Agrees sb s₀ inode)
    (h : Since sb inode s₀ (held + Pi.single i 1) (some i) s)
    (hretained : Retained inode s₀ (s.inode i).ino)
    (hQ : ∀ s', Since sb inode s₀ held none s' → (∀ j, (s'.inode j).ino = (s.inode j).ino) →
      Q () s') : wp (iunlockput sb i) E Q s := by
  have hpos : 0 < (s.inode i).ref := by
    rw [h.ref i, Pi.add_apply, Pi.single_eq_same]
    omega
  rw [iunlockput, wp_bind]
  refine wp_iunlock h hpos fun s₁ h₁ hinos => ?_
  refine wp_iput hagree h₁ (by rwa [hinos]) fun s₂ h₂ hinos₂ => ?_
  exact hQ s₂ h₂ fun j => (hinos₂ j).trans (hinos j)

end Rules

end Fs
end Xv6
