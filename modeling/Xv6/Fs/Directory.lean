import Xv6.Fs.FileArray
import Xv6.Fs.Namex
import Xv6.Lib.Machine

/-!
# Directories

`dirlink` of `fs.c`, and what `sys_unlink` of `sysfile.c` does to a directory.  The calls of one
process, while no other one is at work on inodes, on a directory whose inode is in the table.

## Main definitions

* `dirlink`, `dirunlink` — the code.
* `binding` — the inode that a name is bound to, and the offset of its entry.
* `DirMap`, `DirMap.Step` — a finite map from names, and the calls on it.
* `IsDir` — the directory is in order, and no name is bound twice.
* `DirOp.Safe` — a call that does not run out of anything, and links no name of the directory
  itself.

## Main results

* `binding_link`, `binding_unlink` — what one entry does to the map.
* `wp_lookup`, `wp_link`, `wp_unlink` — the rules of the calls.
* `directory_refines_map` — **directories are finite maps**.
-/

namespace Xv6
namespace Fs

open Prog

/-! ### The code -/

/-- The inode that an entry is for, and the offset of the entry. -/
abbrev Binding := UInt32 × ℕ

/-- The loop of `dirlink` that looks for an entry that is not in use, where `size` is `dp->size`. -/
def dirfree (sb : Superblock) (dev : Devsw) (dp : Slot) (size off : ℕ) : IcacheProg ℕ := do
  if off < size then
    let ip := (← get).inode dp
    let (r, bs, dip) ← onDisk ip.ino.dev (readi sb dev ip.copy (UInt32.ofNat off) 16)
    modify fun s => s.set dp { ip with copy := dip }
    if r ≠ direntSize then
      stop (.panic "dirlink read")
    else if (Dirent.decode bs).inum = 0 then
      return off
    else
      dirfree sb dev dp size (off + direntSize)
  else
    return off
termination_by size - off
decreasing_by
  rw [direntSize]
  omega

/-- `writei` of an entry, which is to succeed. -/
def putDirent (sb : Superblock) (dev : Devsw) (dp : Slot) (de : List UInt8) (off : ℕ)
    (msg : String) : IcacheProg Unit := do
  let ip := (← get).inode dp
  let (r, dip) ← onDisk ip.ino.dev
    (writei sb dev ip.ino.inum.toNat ip.copy (fun k => de.getD k 0) (UInt32.ofNat off) 16)
  modify fun s => s.set dp { ip with copy := dip }
  if r ≠ direntSize then stop (.panic msg)

/-- `dirlink` -/
def dirlink (sb : Superblock) (dev : Devsw) (dp : Slot) (name : List UInt8) (inum : UInt32) :
    IcacheProg ℤ := do
  match ← dirlookup sb dev dp name with
  | some (ip, _) =>
      iput sb ip
      return -1
  | none =>
      let off ← dirfree sb dev dp ((← get).inode dp).copy.size.toNat 0
      putDirent sb dev dp (Dirent.encode ⟨inum.toNat, name⟩) off "dirlink"
      return 0

/-- What `sys_unlink` does to the directory, when the inode of the entry may be unlinked. -/
def dirunlink (sb : Superblock) (dev : Devsw) (dp : Slot) (name : List UInt8) :
    IcacheProg (Option Slot) := do
  if namecmp name (str ".") ∨ namecmp name (str "..") then
    return none
  else
    match ← dirlookup sb dev dp name with
    | none => return none
    | some (ip, off) =>
        putDirent sb dev dp (List.replicate direntSize 0) off "unlink: writei"
        return some ip

/-- The calls on a directory. -/
inductive DirOp
  | lookup (name : List UInt8)
  | link (name : List UInt8) (inum : UInt32)
  | unlink (name : List UInt8)

/-- Their results. -/
inductive DirAnswer
  | found (r : Option Binding)
  | status (r : ℤ)

/-- A call by a process that holds a reference to the directory.  It locks the directory for the
time of the call, and puts the inode that it gets. -/
def DirOp.exec (sb : Superblock) (dev : Devsw) (dp : Slot) : DirOp → IcacheProg DirAnswer
  | lookup name => do
      ilock sb dp
      let r ← dirlookup sb dev dp name
      iunlock dp
      match r with
      | none => return .found none
      | some (ip, off) =>
          let inum := ((← get).inode ip).ino.inum
          iput sb ip
          return .found (some (inum, off))
  | link name inum => do
      ilock sb dp
      let r ← dirlink sb dev dp name inum
      iunlock dp
      return .status r
  | unlink name => do
      ilock sb dp
      let r ← dirunlink sb dev dp name
      iunlock dp
      match r with
      | none => return .status (-1)
      | some ip =>
          iput sb ip
          return .status 0

/-- A call that returns. -/
def dirStep (sb : Superblock) (dev : Devsw) (dp : Slot) (s : Icache) (op : DirOp) :
    Option (Icache × DirAnswer) :=
  match op.exec sb dev dp s with
  | .ok (a, s') => some (s', a)
  | .error _ => none

/-! ### What names are bound to -/

/-- The entry is in use, for the name. -/
def Dirent.isFor (de : Dirent) (key : List UInt8) : Bool := de.inum ≠ 0 && key == cname de.name

/-- What a name is bound to. -/
def binding (es : List Dirent) (key : List UInt8) : Option Binding :=
  (es.zipIdx.find? fun p => p.1.isFor key).map fun p =>
    (UInt32.ofNat p.1.inum, direntSize * p.2)

/-- No name is bound twice. -/
def Once (es : List Dirent) : Prop :=
  ∀ (j k : ℕ) (de de' : Dirent) (key : List UInt8), es[j]? = some de → es[k]? = some de' →
    de.isFor key → de'.isFor key → j = k

theorem binding_eq_none {es : List Dirent} {key : List UInt8} :
    binding es key = none ↔ ∀ (k : ℕ) de, es[k]? = some de → de.isFor key = false := by
  rw [binding, Option.map_eq_none_iff, List.find?_eq_none]
  constructor
  · intro h k de hk
    exact Bool.eq_false_iff.mpr (h (de, k) (List.mem_zipIdx_iff_getElem?.mpr hk))
  · rintro h ⟨de, k⟩ hp
    have hk := h k de (List.mem_zipIdx_iff_getElem?.mp hp)
    rw [hk]
    decide

theorem binding_eq_some {es : List Dirent} (honce : Once es) {key : List UInt8} {b : Binding} :
    binding es key = some b ↔ ∃ (k : ℕ) (de : Dirent), es[k]? = some de ∧ de.isFor key ∧
      b = (UInt32.ofNat de.inum, direntSize * k) := by
  constructor
  · intro h
    rw [binding, Option.map_eq_some_iff] at h
    obtain ⟨⟨de, k⟩, hfind, rfl⟩ := h
    have hfor := List.find?_some hfind
    exact ⟨k, de, List.mem_zipIdx_iff_getElem?.mp (List.mem_of_find?_eq_some hfind), hfor, rfl⟩
  · rintro ⟨k, de, hk, hnames, rfl⟩
    cases h : binding es key with
    | none =>
      rw [binding_eq_none] at h
      rw [h k de hk] at hnames
      exact absurd hnames (by decide)
    | some b =>
      rw [binding, Option.map_eq_some_iff] at h
      obtain ⟨⟨de', k'⟩, hfind, rfl⟩ := h
      have hk' := List.mem_zipIdx_iff_getElem?.mp (List.mem_of_find?_eq_some hfind)
      have hfor := List.find?_some hfind
      obtain rfl : k = k' := honce k k' de de' key hk hk' hnames hfor
      rw [hk] at hk'
      rw [Option.some.inj hk']

theorem getElem?_put {es : List Dirent} {k : ℕ} (hk : k ≤ es.length) (de : Dirent) (j : ℕ) :
    (es.take k ++ de :: es.drop (k + 1))[j]? = if j = k then some de else es[j]? := by
  have hlen : (es.take k).length = k := by rw [List.length_take, min_eq_left hk]
  rcases Nat.lt_trichotomy j k with hj | rfl | hj
  · rw [if_neg hj.ne, List.getElem?_append_left (by omega), List.getElem?_take_of_lt hj]
  · rw [if_pos rfl, List.getElem?_append_right hlen.le, hlen, Nat.sub_self, List.getElem?_cons_zero]
  · obtain ⟨i, rfl⟩ := Nat.exists_eq_add_of_lt hj
    rw [if_neg hj.ne', List.getElem?_append_right (by omega), hlen,
      show k + i + 1 - k = i + 1 by omega, List.getElem?_cons_succ, List.getElem?_drop,
      show k + 1 + i = k + i + 1 by omega]

section Put

variable {es : List Dirent} {k : ℕ} {de : Dirent}

/-- An entry is written for a name that is not bound elsewhere. -/
theorem Once.put (honce : Once es) (hk : k ≤ es.length)
    (hnew : ∀ key, de.isFor key → ∀ j de', es[j]? = some de' → de'.isFor key → j = k) :
    Once (es.take k ++ de :: es.drop (k + 1)) := by
  intro i j a b key hi hj ha hb
  rw [getElem?_put hk] at hi hj
  split at hi
  · next hik =>
    obtain rfl := Option.some.inj hi
    split at hj
    · next hjk => rw [hik, hjk]
    · exact hik.trans (hnew key ha j b hj hb).symm
  · split at hj
    · next hjk =>
      obtain rfl := Option.some.inj hj
      exact (hnew key hb i a hi ha).trans hjk.symm
    · exact honce i j a b key hi hj ha hb

/-- The names that neither the old entry nor the new one is for. -/
theorem binding_put_of_ne (honce : Once es) (hk : k ≤ es.length)
    (honce' : Once (es.take k ++ de :: es.drop (k + 1))) {key : List UInt8}
    (hnew : de.isFor key = false) (hold : ∀ de', es[k]? = some de' → de'.isFor key = false) :
    binding (es.take k ++ de :: es.drop (k + 1)) key = binding es key := by
  refine Option.ext fun b => ?_
  rw [binding_eq_some honce', binding_eq_some honce]
  refine exists_congr fun j => exists_congr fun a => ?_
  rw [getElem?_put hk]
  split
  · next hjk =>
    rw [hjk]
    refine ⟨?_, ?_⟩
    · rintro ⟨hj, ha, -⟩
      rw [← Option.some.inj hj, hnew] at ha
      exact absurd ha (by decide)
    · rintro ⟨hj, ha, -⟩
      rw [hold a hj] at ha
      exact absurd ha (by decide)
  · rfl

/-- **A name is bound**: the entry was not in use. -/
theorem binding_link (honce : Once es) (hk : k ≤ es.length) (hfree : ∀ de', es[k]? = some de' →
    de'.inum = 0) {name : List UInt8} (hde : de.inum ≠ 0 ∧ cname de.name = cname name)
    (hunbound : binding es (cname name) = none) :
    Once (es.take k ++ de :: es.drop (k + 1)) ∧
      binding (es.take k ++ de :: es.drop (k + 1)) = Function.update (binding es) (cname name)
        (some (UInt32.ofNat de.inum, direntSize * k)) := by
  have hnames : ∀ key, de.isFor key = true ↔ key = cname name := fun key => by
    simp [Dirent.isFor, hde.1, hde.2]
  have hold : ∀ key de', es[k]? = some de' → de'.isFor key = false := fun key de' h => by
    simp [Dirent.isFor, hfree de' h]
  have honce' : Once (es.take k ++ de :: es.drop (k + 1)) := by
    refine honce.put hk fun key hkey j de' hj hde' => ?_
    rw [(hnames key).mp hkey, binding_eq_none.mp hunbound j de' hj] at hde'
    exact absurd hde' (by decide)
  refine ⟨honce', funext fun key => ?_⟩
  by_cases hkey : key = cname name
  · rw [hkey, Function.update_self, binding_eq_some honce']
    exact ⟨k, de, by rw [getElem?_put hk, if_pos rfl], (hnames _).mpr rfl, rfl⟩
  · rw [Function.update_of_ne hkey]
    exact binding_put_of_ne honce hk honce'
      (Bool.eq_false_iff.mpr fun h => hkey ((hnames key).mp h)) (hold key)

/-- **A name is no longer bound.** -/
theorem binding_unlink (honce : Once es) {old : Dirent} (hk : es[k]? = some old)
    {key : List UInt8} (hold : old.isFor key) (hde : de.inum = 0) :
    Once (es.take k ++ de :: es.drop (k + 1)) ∧
      binding (es.take k ++ de :: es.drop (k + 1)) = Function.update (binding es) key none := by
  have hlt : k ≤ es.length := (List.getElem?_eq_some_iff.mp hk).1.le
  have hnames : ∀ key, de.isFor key = false := fun key => by simp [Dirent.isFor, hde]
  have honce' : Once (es.take k ++ de :: es.drop (k + 1)) := by
    refine honce.put hlt fun key hkey => ?_
    rw [hnames key] at hkey
    exact absurd hkey (by decide)
  refine ⟨honce', funext fun key' => ?_⟩
  by_cases hkey : key' = key
  · rw [hkey, Function.update_self, binding_eq_none]
    intro j a hj
    rw [getElem?_put hlt] at hj
    split at hj
    · rw [← Option.some.inj hj, hnames]
    · next hjk =>
      refine Bool.eq_false_iff.mpr fun ha => hjk ?_
      exact honce j k a old key hj hk ha hold
  · rw [Function.update_of_ne hkey]
    refine binding_put_of_ne honce hlt honce' (hnames _) fun de' hde' => ?_
    rw [hk] at hde'
    obtain rfl := Option.some.inj hde'
    simp only [Dirent.isFor, Bool.and_eq_true, beq_iff_eq] at hold
    simp [Dirent.isFor, ← hold.2, hkey]

end Put


/-! ### Finite maps -/

/-- What names are bound to, and how many bytes the directory has. -/
structure DirMap where
  bound : List UInt8 → Option Binding
  size : ℕ

namespace DirMap

/-- No name is bound to an entry at the offset. -/
def Unused (m : DirMap) (off : ℕ) : Prop := ∀ key b, m.bound key = some b → b.2 ≠ off

/-- The calls on a finite map. -/
inductive Step (m : DirMap) : DirOp → DirMap → DirAnswer → Prop
  | lookup (name : List UInt8) : Step m (.lookup name) m (.found (m.bound (cname name)))
  /-- The name is bound. -/
  | bound {name : List UInt8} (inum : UInt32) (h : (m.bound (cname name)).isSome) :
      Step m (.link name inum) m (.status (-1))
  /-- An entry that is not in use is taken. -/
  | reuse {name : List UInt8} {inum : UInt32} {off : ℕ} (h : m.bound (cname name) = none)
      (hoff : direntSize ∣ off ∧ off < m.size) (hunused : m.Unused off) :
      Step m (.link name inum)
        ⟨Function.update m.bound (cname name) (some (inum, off)), m.size⟩ (.status 0)
  /-- There is none, and the directory grows. -/
  | grow {name : List UInt8} {inum : UInt32} (h : m.bound (cname name) = none)
      (hfull : ∀ off, direntSize ∣ off → off < m.size → ¬m.Unused off) :
      Step m (.link name inum)
        ⟨Function.update m.bound (cname name) (some (inum, m.size)), m.size + direntSize⟩
        (.status 0)
  | unlink {name : List UInt8} (h : (m.bound (cname name)).isSome)
      (hdot : cname name ≠ str "." ∧ cname name ≠ str "..") :
      Step m (.unlink name) ⟨Function.update m.bound (cname name) none, m.size⟩ (.status 0)
  /-- There is nothing to remove, or it is an entry that stays. -/
  | stays {name : List UInt8}
      (h : m.bound (cname name) = none ∨ cname name = str "." ∨ cname name = str "..") :
      Step m (.unlink name) m (.status (-1))

end DirMap

/-- The map that a directory is. -/
def dirMap (c : List UInt8) : DirMap := ⟨binding (entries c), c.length⟩

/-- An entry that is not in use. -/
theorem unused_dirMap {c : List UInt8} (honce : Once (entries c)) {k : ℕ}
    (h : ∀ de, (entries c)[k]? = some de → de.inum = 0) : (dirMap c).Unused (direntSize * k) := by
  intro key b hb heq
  obtain ⟨j, de, hj, hfor, rfl⟩ := (binding_eq_some honce).mp hb
  obtain rfl : j = k := Nat.eq_of_mul_eq_mul_left (by decide) heq
  rw [Dirent.isFor, h de hj] at hfor
  exact absurd hfor Bool.false_ne_true

/-- An entry that is in use. -/
theorem not_unused_dirMap {c : List UInt8} (honce : Once (entries c)) {k : ℕ} {de : Dirent}
    (hk : (entries c)[k]? = some de) (hinum : de.inum ≠ 0) :
    ¬(dirMap c).Unused (direntSize * k) := fun h =>
  h (cname de.name) _ ((binding_eq_some honce).mpr
    ⟨k, de, hk, by simp [Dirent.isFor, hinum], rfl⟩) rfl

section Calls

variable {sb : Superblock} {dev : Devsw} {s s' : Icache} {dp i : Slot} {name : List UInt8}
  {E : Stop → Prop} {x : Ino} {ip : Dinode} {c : List UInt8} {lk : Option Slot}

/-! ### The loop -/

/-- The loop ends at the first entry that is not in use, or at the end. -/
theorem wp_dirfree {Q : ℕ → Icache → Prop} (h : Holding s i x ip c)
    (hQ : ∀ k ≤ (entries c).length, (∀ de, (entries c)[k]? = some de → de.inum = 0) →
      (∀ de ∈ (entries c).take k, de.inum ≠ 0) → Q (direntSize * k) s)
    (n : ℕ) : ∀ k, k + n = (entries c).length → (∀ de ∈ (entries c).take k, de.inum ≠ 0) →
      wp (dirfree sb dev i ip.size.toNat (direntSize * k)) E Q s := by
  induction n with
  | zero =>
    intro k hk hused
    have hend : ¬direntSize * k < ip.size.toNat := by
      rw [← h.size, ← hk, Nat.add_zero]
      exact lt_irrefl _
    rw [dirfree, if_neg hend, wp_pure]
    refine hQ k (by omega) (fun de hde => ?_) hused
    rw [List.getElem?_eq_none (by omega)] at hde
    cases hde
  | succ n ih =>
    intro k hk hused
    have hlt : k < (entries c).length := by omega
    have hmore : direntSize * k < ip.size.toNat := by
      rw [← h.size]
      exact Nat.mul_lt_mul_of_pos_left hlt (by decide)
    rw [dirfree, if_pos hmore, wp_bind, wp_get, wp_bind, h.ino, h.copy]
    refine wp_readEntry h hlt fun bs hbs => ?_
    dsimp only
    rw [wp_bind, wp_modify, s.set_self (by rw [← h.ino, ← h.copy]), if_neg (not_not.mpr rfl), hbs,
      wp_ite]
    refine ⟨fun hfree => ?_, fun hfree => ?_⟩
    · refine hQ k hlt.le (fun de hde => ?_) hused
      rw [List.getElem?_eq_getElem hlt] at hde
      rwa [← Option.some.inj hde]
    · rw [← Nat.mul_succ]
      refine ih (k + 1) (by omega) fun de hde => ?_
      rw [List.take_succ_eq_append_getElem hlt, List.mem_append, List.mem_singleton] at hde
      rcases hde with hde | rfl
      · exact hused de hde
      · exact hfree

/-! ### The table -/

/-- The slot `dp` is in use for the inode `x`, the copy is `ip`, and the lock `lk` is held. -/
structure Using (dp : Slot) (x : Ino) (ip : Dinode) (lk : Option Slot) (s : Icache) : Prop where
  ref : 0 < (s.inode dp).ref
  ino : (s.inode dp).ino = x
  valid : (s.inode dp).valid = true
  copy : (s.inode dp).copy = ip
  locked : ∀ i, (s.inode i).locked = true ↔ lk = some i

/-- A reference to the slot has been taken, and the slot is not to be freed. -/
def Spare (s : Icache) (i : Slot) : Prop :=
  0 < (s.inode i).ref ∧ ((s.inode i).valid = true → (s.inode i).ref ≠ 1)

/-- There is a slot for the inode. -/
def Room (s : Icache) (y : Ino) : Prop := (∃ i, s.Holds i y) ∨ ∃ i, (s.inode i).ref = 0

instance (s : Icache) (y : Ino) : Decidable (Room s y) := inferInstanceAs (Decidable (_ ∨ _))

/-- Room depends on the references and the inodes. -/
theorem Room.congr (href : ∀ j, (s'.inode j).ref = (s.inode j).ref)
    (hino : ∀ j, (s'.inode j).ino = (s.inode j).ino) (y : Ino) (h : Room s y) : Room s' y := by
  simpa only [Room, Icache.Holds, href, hino] using h

/-- `iget`, where there is a slot. -/
theorem wp_iget_room {y : Ino} {Q : Slot → Icache → Prop} (h : Using dp x ip lk s)
    (hroom : Room s y) (hQ : ∀ i s', Using dp x ip lk s' → s'.disk = s.disk →
      (s'.inode i).ino = y → Spare s' i → Q i s') : wp (iget y) E Q s := by
  rw [iget, wp_bind, wp_get]
  cases hfind : Table.find fun i => decide (s.Holds i y) with
  | some i =>
    have hi : s.Holds i y := of_decide_eq_true (Table.find_spec hfind)
    have hpos := hi.1
    rw [wp_bind, wp_set, wp_pure]
    refine hQ i _ ⟨?_, ?_, ?_, ?_, fun j => ?_⟩ rfl (by rw [s.ino_setRef, hi.2]) ⟨?_, fun _ => ?_⟩
    · rw [s.ref_setRef]
      split
      · exact Nat.succ_pos _
      · exact h.ref
    · rw [s.ino_setRef, h.ino]
    · rw [s.valid_setRef, h.valid]
    · rw [s.copy_setRef, h.copy]
    · rw [s.locked_setRef, h.locked]
    · rw [s.ref_setRef, if_pos rfl]
      exact Nat.succ_pos _
    · rw [s.ref_setRef, if_pos rfl]
      omega
  | none =>
    have hnot : ∀ j, ¬s.Holds j y := fun j => of_decide_eq_false (Table.find_eq_none.mp hfind j)
    dsimp only
    cases hempty : Table.find fun i => decide ((s.inode i).ref = 0) with
    | some i =>
      have hi : (s.inode i).ref = 0 := of_decide_eq_true (Table.find_spec hempty)
      have hne : dp ≠ i := by
        rintro rfl
        exact h.ref.ne' hi
      have hdp : ∀ ip : Inode, (s.set i ip).inode dp = s.inode dp := fun ip => by
        rw [s.inode_set, if_neg hne]
      have hself : ∀ ip : Inode, (s.set i ip).inode i = ip := fun ip => by
        rw [s.inode_set, if_pos rfl]
      rw [wp_bind, wp_set, wp_pure]
      refine hQ i _ ⟨by rw [hdp]; exact h.ref, by rw [hdp, h.ino], by rw [hdp, h.valid],
        by rw [hdp, h.copy], fun j => ?_⟩ rfl (by rw [hself]) ⟨?_, ?_⟩
      · rw [← h.locked j, s.inode_set]
        split
        · next hj => rw [hj]
        · rfl
      · rw [hself]
        exact Nat.one_pos
      · rw [hself]
        exact fun hfalse => absurd hfalse Bool.false_ne_true
    | none =>
      rcases hroom with ⟨j, hj⟩ | ⟨j, hj⟩
      · exact absurd hj (hnot j)
      · exact absurd hj (of_decide_eq_false (Table.find_eq_none.mp hempty j))

theorem Using.unlocked (h : Using dp x ip lk s) (hne : lk ≠ some i) :
    (s.inode i).locked = false :=
  Bool.eq_false_iff.mpr fun hi => hne ((h.locked i).mp hi)

/-- `iunlock` of the directory. -/
theorem wp_iunlock_dir {Q : Unit → Icache → Prop} (h : Using dp x ip (some dp) s)
    (hQ : ∀ s', Using dp x ip none s' → s'.disk = s.disk →
      (∀ j, (s'.inode j).ino = (s.inode j).ino ∧ (Spare s j → Spare s' j)) → Q () s') :
    wp (iunlock dp) E Q s := by
  have hlocked := (h.locked dp).mpr rfl
  have href := h.ref
  rw [iunlock, wp_bind, wp_get]
  dsimp only
  rw [if_neg (by rw [hlocked]; simp; omega), releasesleep, wp_bind, wp_get, wp_set]
  have hdp : (s.setLocked dp false).inode dp = { s.inode dp with locked := false } := by
    rw [Icache.setLocked, s.inode_set, if_pos rfl]
  refine hQ _ ⟨by rw [hdp]; exact h.ref, by rw [hdp]; exact h.ino, by rw [hdp]; exact h.valid,
    by rw [hdp]; exact h.copy, fun j => ?_⟩ rfl fun j => ⟨s.ino_setLocked dp false j, fun hj => ?_⟩
  · rw [Icache.setLocked, s.inode_set]
    split
    · simp
    · next hj =>
      rw [h.locked j]
      simp [Ne.symm hj]
  · have hspare := hj
    rw [Spare, Icache.setLocked, s.inode_set]
    split
    · next hd => exact hd ▸ hspare
    · exact hj

/-- `iput` of an inode that stays in use, or was never read. -/
theorem wp_iput_spare {Q : Unit → Icache → Prop} (h : Using dp x ip lk s) (hi : Spare s i)
    (hfree : (s.inode i).locked = false)
    (hQ : ∀ s', Using dp x ip lk s' → s'.disk = s.disk → Q () s') : wp (iput sb i) E Q s := by
  obtain ⟨hpos, hspare⟩ := hi
  have hset := Icache.setLocked_back hfree
  have hself : (s.setLocked i true).inode i = { s.inode i with locked := true } := by
    rw [Icache.setLocked, s.inode_set, if_pos rfl]
  rw [iput, wp_bind, acquiresleep, wp_bind, wp_get, if_neg (by rw [hfree]; decide), wp_set, wp_bind,
    ifree, wp_bind, wp_get]
  dsimp only
  rw [hself, if_neg (fun hall => hspare hall.1 hall.2.2), wp_pure, wp_bind, releasesleep, wp_bind,
    wp_get, wp_set, hset, wp_modify]
  refine hQ _ ⟨?_, ?_, ?_, ?_, fun j => ?_⟩ rfl
  · rw [s.ref_setRef]
    split
    · next hd =>
      have hone := hspare (by rw [← hd, h.valid])
      omega
    · exact h.ref
  · rw [s.ino_setRef, h.ino]
  · rw [s.valid_setRef, h.valid]
  · rw [s.copy_setRef, h.copy]
  · rw [s.locked_setRef, h.locked]


/-! ### The directory -/

/-- The directory `ip`, which is the inode `inum`, is in order, and no name is bound twice. -/
structure DirOk (sb : Superblock) (inum : ℕ) (d : Disk) (ip : Dinode) : Prop where
  type : ip.type = tDir
  file : FileOk sb inum d ip
  whole : direntSize ∣ ip.size.toNat
  once : Once (entries (contents d ip))

/-- The slot `dp` is in use for the directory `x`, and no lock is held. -/
structure IsDir (sb : Superblock) (dp : Slot) (x : Ino) (s : Icache) : Prop where
  ref : 0 < (s.inode dp).ref
  ino : (s.inode dp).ino = x
  unlocked : ∀ i, (s.inode i).locked = false
  ok : DirOk sb x.inum.toNat (s.disk x.dev) (s.current sb dp)

theorem DirOk.holding (hok : DirOk sb x.inum.toNat (s.disk x.dev) ip) (h : Using dp x ip lk s) :
    Holding s dp x ip (contents (s.disk x.dev) ip) :=
  ⟨h.ino, h.copy, hok.type, rfl, hok.file.covered, hok.whole⟩

/-- `ilock` of the directory. -/
theorem wp_ilock_dir {Q : Unit → Icache → Prop} (h : IsDir sb dp x s)
    (hQ : ∀ s', Using dp x (s.current sb dp) (some dp) s' → s'.disk = s.disk →
      (∀ y, Room s y → Room s' y) → Q () s') : wp (ilock sb dp) E Q s := by
  have href := h.ref
  rw [ilock, wp_bind, wp_get, if_neg (by omega), wp_bind, acquiresleep, wp_bind, wp_get,
    if_neg (by rw [h.unlocked]; decide), wp_set]
  have hdp : (s.setLocked dp true).inode dp = { s.inode dp with locked := true } := by
    rw [Icache.setLocked, s.inode_set, if_pos rfl]
  have hlocked : ∀ j, ((s.setLocked dp true).inode j).locked = true ↔
      some dp = some j := fun j => by
    rw [Icache.setLocked, s.inode_set]
    split
    · next hj => simp [hj]
    · next hj => simp [h.unlocked j, Ne.symm hj]
  have hcurrent : (s.setLocked dp true).current sb dp = s.current sb dp := by
    rw [Icache.current, hdp]
    rfl
  have hdisk : (s.setLocked dp true).disk = s.disk := rfl
  have hrefs : ∀ j, ((s.setLocked dp true).inode j).ref = (s.inode j).ref := by
    refine s.ref_set ?_
    rfl
  have hinos := s.ino_setLocked dp true
  have href₁ : 0 < ((s.setLocked dp true).inode dp).ref := by rwa [hdp]
  have hino₁ : ((s.setLocked dp true).inode dp).ino = x := by rw [hdp, ← h.ino]
  generalize s.setLocked dp true = s₁ at hlocked hcurrent hdisk href₁ hino₁ hrefs hinos
  rw [← hcurrent] at hQ
  rw [wp_bind, wp_get]
  dsimp only
  cases hvalid : (s₁.inode dp).valid with
  | true =>
    rw [if_pos rfl, wp_pure]
    refine hQ s₁ ⟨href₁, hino₁, hvalid, ?_, hlocked⟩ hdisk (Room.congr hrefs hinos)
    rw [Icache.current, if_pos hvalid]
  | false =>
    have hstored : s₁.current sb dp = dinode sb (s₁.disk (s₁.inode dp).ino.dev)
        (s₁.inode dp).ino.inum.toNat := by
      rw [Icache.current, if_neg (by rw [hvalid]; decide)]
      rfl
    have htype : (s₁.current sb dp).type ≠ 0 := by
      rw [hcurrent, h.ok.type]
      decide
    rw [if_neg (by decide), wp_bind]
    refine wp_onDisk_read ((wp_readDinode _ _).mpr ⟨rfl, ?_⟩)
    rw [wp_bind, wp_modify, ← hstored, if_neg htype, wp_pure]
    have hself : ∀ ip : Inode, (s₁.set dp ip).inode dp = ip := fun ip => by
      rw [s₁.inode_set, if_pos rfl]
    refine hQ _ ⟨by rw [hself]; exact href₁, by rw [hself]; exact hino₁, by rw [hself],
      by rw [hself], fun j => ?_⟩ hdisk fun y hy =>
        Room.congr (s₁.ref_set (by rfl)) (s₁.ino_set (by rfl)) y (Room.congr hrefs hinos y hy)
    rw [← hlocked j, s₁.inode_set]
    split
    · next hj => rw [hj]
    · rfl

/-- **The rule of `dirlookup`**: what the name is bound to. -/
theorem wp_dirlookup_binding {Q : Option (Slot × ℕ) → Icache → Prop}
    (h : Using dp x ip (some dp) s) (hok : DirOk sb x.inum.toNat (s.disk x.dev) ip)
    (hnone : binding (entries (contents (s.disk x.dev) ip)) (cname name) = none → Q none s)
    (hsome : ∀ b, binding (entries (contents (s.disk x.dev) ip)) (cname name) = some b →
      Room s ⟨x.dev, b.1⟩ ∧ ∀ i s', Using dp x ip (some dp) s' → s'.disk = s.disk →
        (s'.inode i).ino = ⟨x.dev, b.1⟩ → Spare s' i → Q (some (i, b.2)) s') :
    wp (dirlookup sb dev dp name) E Q s := by
  rw [dirlookup, wp_bind, wp_get]
  dsimp only
  rw [h.copy, if_neg (not_not.mpr hok.type)]
  refine wp_dirscan (hok.holding h) (fun hfail => hnone (binding_eq_none.mpr fun k de hk => ?_))
    (fun k de hk hde => ?_) _ 0 (Nat.zero_add _) (fun de hde => absurd hde List.not_mem_nil)
  · rw [Bool.eq_false_iff, Dirent.isFor, ne_eq, Bool.and_eq_true, decide_eq_true_eq]
    rintro ⟨hinum, hname⟩
    have hfail := hfail de (List.mem_of_getElem? hk) hinum
    rw [namecmp, hname] at hfail
    exact absurd hfail (by decide)
  · have hfor := List.find?_some hde
    obtain ⟨hroom, hQ⟩ := hsome _ ((binding_eq_some hok.once).mpr ⟨k, de, hk, hfor, rfl⟩)
    exact wp_iget_room h hroom hQ

/-- Nothing but the directory `x` has changed. -/
structure Frame (sb : Superblock) (x : Ino) (s s' : Icache) : Prop where
  kept : Kept sb x.inum.toNat (s.disk x.dev) (s'.disk x.dev)
  disk : ∀ v, v ≠ x.dev → s'.disk v = s.disk v

theorem Frame.of_disk (h : s'.disk = s.disk) : Frame sb x s s' :=
  ⟨by rw [h]; exact Kept.refl _ _ _, fun v _ => by rw [h]⟩

/-- **An entry is written.** -/
theorem wp_putDirent {Q : Unit → Icache → Prop} (hl : Layout sb) (hinum : x.inum.toNat < sb.ninodes)
    (h : Using dp x ip lk s) (hok : DirOk sb x.inum.toNat (s.disk x.dev) ip)
    (hc : c = contents (s.disk x.dev) ip) {de : List UInt8} (hde : de.length = direntSize) {k : ℕ}
    (hk : k ≤ (entries c).length) {msg : String}
    (hmax : direntSize * k + direntSize ≤ maxfile * bsize)
    (he : (missing (s.disk x.dev) ip
      (needed (max c.length (direntSize * k + direntSize)))).card ≤ (free sb (s.disk x.dev)).card)
    (honce : Once ((entries c).take k ++ Dirent.decode de :: (entries c).drop (k + 1)))
    (hQ : ∀ s' ip', Using dp x ip' lk s' → DirOk sb x.inum.toNat (s'.disk x.dev) ip' →
      entries (contents (s'.disk x.dev) ip') =
        (entries c).take k ++ Dirent.decode de :: (entries c).drop (k + 1) →
      (contents (s'.disk x.dev) ip').length = max c.length (direntSize * k + direntSize) →
      (∀ j, (s'.inode j).ino = (s.inode j).ino ∧ (Spare s j → Spare s' j)) → Frame sb x s s' →
      Q () s') : wp (putDirent sb dev dp de (direntSize * k) msg) E Q s := by
  have hholding := hok.holding h
  rw [← hc] at hholding
  have hsize := hholding.size
  have hlen : c.length = ip.size.toNat := by rw [hc, length_contents]
  have hle := Nat.mul_le_mul_left direntSize hk
  rw [hsize] at hle
  have hnat : (UInt32.ofNat (direntSize * k)).toNat = direntSize * k := by
    rw [maxfile, bsize] at hmax
    exact UInt32.toNat_ofNat_of_lt' (by rw [UInt32.size]; omega)
  generalize hoff : UInt32.ofNat (direntSize * k) = off at hnat
  have hwrites : (FileOp.write (fun j => de.getD j 0) off 16).Writes c := by
    refine ⟨?_, ?_, ?_⟩
    · rw [hnat, hlen]
      exact hle
    · rw [maxfile, bsize] at hmax
      rw [hnat, show (16 : UInt32).toNat = direntSize from rfl]
      omega
    · rw [hnat]
      exact hmax
  have hsrc : (List.range (16 : UInt32).toNat).map (fun j => de.getD j 0) = de := by
    refine List.ext_getElem (by rw [List.length_map, List.length_range, hde]; rfl)
      fun j hj hj' => ?_
    rw [List.getElem_map, List.getElem_range, List.getD_eq_getElem _ _ hj']
  have hflat : ((FileOp.write (fun j => de.getD j 0) off 16).flat c).2 =
      c.take (direntSize * k) ++ de ++ c.drop (direntSize * k + direntSize) := by
    rw [FileOp.flat, if_pos hwrites, hsrc, hnat]
    rfl
  have hlength : (c.take (direntSize * k) ++ de ++
      c.drop (direntSize * k + direntSize)).length =
        max c.length (direntSize * k + direntSize) := by
    simp only [List.length_append, List.length_take, List.length_drop, hde]
    omega
  have hop := wp_fileOp dev (E := E) hl hinum hok.file (Or.inr he)
    (.write (fun j => de.getD j 0) off 16) (by rw [← hc, hflat, hlength])
  have htype : wp (writei sb dev x.inum.toNat ip (fun j => de.getD j 0) off 16) E
      (fun r _ => r.2.type = ip.type) (s.disk x.dev) :=
    wp_writei_type hl hok.file (Or.inr he) (by rw [hnat, hlen]; rfl)
  rw [FileOp.exec, wp_bind, ← hc] at hop
  rw [putDirent, wp_bind, wp_get]
  dsimp only
  rw [wp_bind, h.ino, h.copy, hoff, onDisk, wp_zoom]
  refine wp_mono (wp_and hop htype) ?_ fun e he => he.1
  rintro ⟨r, ip'⟩ d' ⟨⟨hr, href, -, -⟩, htype⟩
  dsimp only at hr href htype ⊢
  rw [FileOp.flat, if_pos hwrites, Prod.mk.injEq] at hr
  rw [hflat] at href
  have hr : r = direntSize := hr.1
  rw [wp_bind, wp_modify, if_neg (not_not.mpr hr), wp_pure]
  have hentries := entries_put (Dvd.intro _ (hsize.trans hlen.symm)) hk hde
  rw [← href.contents] at hentries hlength
  have hself : ∀ s : Icache, ∀ ip : Inode, (s.set dp ip).inode dp = ip := fun s ip => by
    rw [s.inode_set, if_pos rfl]
  have hdisk : Function.update s.disk x.dev d' x.dev = d' := Function.update_self _ _ _
  refine hQ _ ip' ⟨by rw [hself]; exact h.ref, by rw [hself], by rw [hself]; exact h.valid,
    by rw [hself], fun j => ?_⟩ ?_ ?_ ?_ (fun j => ⟨?_, fun hj => ?_⟩) ⟨?_, fun v hv => ?_⟩
  · rw [← h.locked j, Icache.inode_set]
    split
    · next hj => rw [hj]
    · rfl
  · change DirOk sb x.inum.toNat (Function.update s.disk x.dev d' x.dev) ip'
    rw [hdisk]
    refine ⟨htype.trans hok.type, href.ok, ?_, by rw [hentries]; exact honce⟩
    rw [← length_contents, hlength]
    rcases max_choice c.length (direntSize * k + direntSize) with hc' | hc'
    · rw [hc', hlen, ← hsize]
      exact Dvd.intro _ rfl
    · rw [hc', ← Nat.mul_succ]
      exact Dvd.intro _ rfl
  · change entries (contents (Function.update s.disk x.dev d' x.dev) ip') = _
    rw [hdisk, hentries]
  · change (contents (Function.update s.disk x.dev d' x.dev) ip').length = _
    rw [hdisk, hlength]
  · rw [Icache.inode_set]
    split
    · next hj => rw [hj, h.ino]
    · rfl
  · have hspare := hj
    rw [Spare, Icache.inode_set]
    split
    · next hj =>
      subst hj
      exact hspare
    · exact hj
  · change Kept sb _ _ (Function.update s.disk x.dev d' x.dev)
    rw [hdisk]
    exact href.kept
  · exact Function.update_of_ne hv _ _


/-! ### The calls -/

/-- The map that the directory is. -/
def Icache.dirMap (sb : Superblock) (dp : Slot) (x : Ino) (s : Icache) : DirMap :=
  Fs.dirMap (contents (s.disk x.dev) (s.current sb dp))

/-- There is an entry that is not in use, or room for another one. -/
def Spacious (sb : Superblock) (d : Disk) (ip : Dinode) : Prop :=
  (∃ de ∈ entries (contents d ip), de.inum = 0) ∨
    (ip.size.toNat + direntSize ≤ maxfile * bsize ∧
      (missing d ip (needed (ip.size.toNat + direntSize))).card ≤ (free sb d).card)

/-- The call does not run out of inodes in memory, of bytes of a file, or of blocks; and no name is
linked that is the name of the directory itself. -/
def DirOp.Safe (sb : Superblock) (dp : Slot) (x : Ino) (s : Icache) : DirOp → Prop
  | lookup name => ∀ b, (s.dirMap sb dp x).bound (cname name) = some b → Room s ⟨x.dev, b.1⟩
  | link name _ =>
      (∀ b, (s.dirMap sb dp x).bound (cname name) = some b → Room s ⟨x.dev, b.1⟩ ∧ b.1 ≠ x.inum) ∧
      ((s.dirMap sb dp x).bound (cname name) = none →
        Spacious sb (s.disk x.dev) (s.current sb dp))
  | unlink name => cname name ≠ str "." → cname name ≠ str ".." →
      ∀ b, (s.dirMap sb dp x).bound (cname name) = some b → Room s ⟨x.dev, b.1⟩

/-- The inode that is linked has a number that fits into an entry. -/
def DirOp.Valid : DirOp → Prop
  | link _ inum => 0 < inum.toNat ∧ inum.toNat < 2 ^ 16
  | _ => True

theorem Using.current (h : Using dp x ip lk s) : s.current sb dp = ip := by
  rw [Icache.current, if_pos h.valid, h.copy]

/-- The call is over. -/
theorem Using.isDir (h : Using dp x ip none s)
    (hok : DirOk sb x.inum.toNat (s.disk x.dev) ip) : IsDir sb dp x s where
  ref := h.ref
  ino := h.ino
  unlocked := fun i => Bool.eq_false_iff.mpr fun hi => by
    have hnone := (h.locked i).mp hi
    cases hnone
  ok := by rwa [h.current]

/-- What a call leaves behind. -/
def Leaves (sb : Superblock) (dp : Slot) (x : Ino) (s : Icache) (op : DirOp) (a : DirAnswer)
    (s' : Icache) : Prop :=
  IsDir sb dp x s' ∧ (s.dirMap sb dp x).Step op (s'.dirMap sb dp x) a ∧ Frame sb x s s'

/-- A call that does not write. -/
theorem Using.leaves {op : DirOp} {a : DirAnswer} (h : IsDir sb dp x s)
    (hu : Using dp x (s.current sb dp) none s') (hdisk : s'.disk = s.disk)
    (hstep : (s.dirMap sb dp x).Step op (s.dirMap sb dp x) a) : Leaves sb dp x s op a s' := by
  refine ⟨hu.isDir (by rw [hdisk]; exact h.ok), ?_, Frame.of_disk hdisk⟩
  have hmap : s'.dirMap sb dp x = s.dirMap sb dp x := by
    rw [Icache.dirMap, Icache.dirMap, hu.current, hdisk]
  rwa [hmap]

/-- A call that writes. -/
theorem Using.leaves_put {op : DirOp} {a : DirAnswer} {s₁ s₂ : Icache} (hdisk₁ : s₁.disk = s.disk)
    (hframe : Frame sb x s₁ s₂) (hok : DirOk sb x.inum.toNat (s₂.disk x.dev) ip)
    (hu : Using dp x ip none s') (hdisk₂ : s'.disk = s₂.disk)
    (hstep : (s.dirMap sb dp x).Step op (Fs.dirMap (contents (s₂.disk x.dev) ip)) a) :
    Leaves sb dp x s op a s' := by
  obtain ⟨hkept, hdisks⟩ := hframe
  rw [hdisk₁] at hkept hdisks
  rw [← hdisk₂] at hkept hdisks hok hstep
  refine ⟨hu.isDir hok, ?_, hkept, hdisks⟩
  have hmap : s'.dirMap sb dp x = Fs.dirMap (contents (s'.disk x.dev) ip) := by
    rw [Icache.dirMap, hu.current]
  rwa [hmap]

theorem namecmp_iff {name t : List UInt8} (ht : cname t = t) :
    namecmp name t = true ↔ cname name = t := by
  rw [namecmp, beq_iff_eq, ht]

/-- What is bound, once the directory is locked. -/
theorem bound_dirMap (hdisk : s'.disk = s.disk) : (s.dirMap sb dp x).bound =
    binding (entries (contents (s'.disk x.dev) (s.current sb dp))) := by
  rw [hdisk]
  rfl

theorem wp_lookup (h : IsDir sb dp x s) (hsafe : (DirOp.lookup name).Safe sb dp x s) :
    wp ((DirOp.lookup name).exec sb dev dp) (fun _ => False)
      (fun a s' => Leaves sb dp x s (.lookup name) a s') s := by
  have hstep := DirMap.Step.lookup (m := s.dirMap sb dp x) name
  rw [DirOp.exec, wp_bind]
  refine wp_ilock_dir h fun s₁ hu₁ hdisk₁ hroom => ?_
  have hok := h.ok
  have hbound : (s.dirMap sb dp x).bound (cname name) = _ := congrFun (bound_dirMap hdisk₁) _
  rw [← hdisk₁] at hok
  rw [wp_bind]
  refine wp_dirlookup_binding hu₁ hok (fun hnone => ?_) fun b hb =>
    ⟨hroom _ (hsafe b (hbound.trans hb)), fun i s₂ hu₂ hdisk₂ hino hi => ?_⟩
  · rw [hbound, hnone] at hstep
    rw [wp_bind]
    exact wp_iunlock_dir hu₁ fun s₂ hu₂ hdisk₂ _ => hu₂.leaves h (hdisk₂.trans hdisk₁) hstep
  · rw [hbound, hb] at hstep
    rw [wp_bind]
    refine wp_iunlock_dir hu₂ fun s₃ hu₃ hdisk₃ hkeep => ?_
    obtain ⟨hino₃, hi₃⟩ := hkeep i
    rw [wp_bind, wp_get]
    dsimp only
    rw [wp_bind]
    refine wp_iput_spare hu₃ (hi₃ hi) (hu₃.unlocked fun hnone => by cases hnone)
      fun s₄ hu₄ hdisk₄ => ?_
    rw [wp_pure, hino₃, hino]
    exact hu₄.leaves h (hdisk₄.trans (hdisk₃.trans (hdisk₂.trans hdisk₁))) hstep

/-- The entry of a name that is linked. -/
theorem decode_link {inum : UInt32} (hvalid : (DirOp.link name inum).Valid) :
    Dirent.decode (Dirent.encode ⟨inum.toNat, name⟩) = ⟨inum.toNat, strncpy name⟩ :=
  Dirent.decode_encode hvalid.2

/-- **A name is linked.** -/
theorem wp_link (hl : Layout sb) (hinum : x.inum.toNat < sb.ninodes) (h : IsDir sb dp x s)
    {inum : UInt32} (hvalid : (DirOp.link name inum).Valid)
    (hsafe : (DirOp.link name inum).Safe sb dp x s) :
    wp ((DirOp.link name inum).exec sb dev dp) (fun _ => False)
      (fun a s' => Leaves sb dp x s (.link name inum) a s') s := by
  obtain ⟨hsome, hspace⟩ := hsafe
  rw [DirOp.exec, wp_bind]
  refine wp_ilock_dir h fun s₁ hu₁ hdisk₁ hroom => ?_
  have hok := h.ok
  have hbound : (s.dirMap sb dp x).bound (cname name) = _ := congrFun (bound_dirMap hdisk₁) _
  rw [← hdisk₁] at hok hspace
  rw [wp_bind, dirlink, wp_bind]
  refine wp_dirlookup_binding hu₁ hok (fun hnone => ?_) fun b hb =>
    ⟨hroom _ (hsome b (hbound.trans hb)).1, fun i s₂ hu₂ hdisk₂ hino hi => ?_⟩
  · dsimp only
    have hspace := hspace (hbound.trans hnone)
    obtain ⟨c, hc⟩ : ∃ c, c = contents (s₁.disk x.dev) (s.current sb dp) := ⟨_, rfl⟩
    have hmap : s.dirMap sb dp x = Fs.dirMap c := by rw [Icache.dirMap, ← hdisk₁, hc]
    have hlen : c.length = (s.current sb dp).size.toNat := by rw [hc, length_contents]
    have hholding := hok.holding hu₁
    rw [← hc] at hnone hholding
    have hsize := hholding.size
    rw [← hlen] at hsize
    rw [wp_bind, wp_get, wp_bind, hu₁.copy]
    refine wp_dirfree hholding (fun k hk hfree hused => ?_) _ 0 (Nat.zero_add _)
      (fun de hde => absurd hde List.not_mem_nil)
    have honce : Once (entries c) := by rw [hc]; exact hok.once
    obtain ⟨honce', hbinding⟩ := binding_link honce hk hfree
      (show (⟨inum.toNat, strncpy name⟩ : Dirent).inum ≠ 0 ∧ _ from
        ⟨hvalid.1.ne', cname_strncpy name⟩) hnone
    rw [UInt32.ofNat_toNat] at hbinding
    rw [← decode_link hvalid] at honce' hbinding
    -- the entry is in the directory, or it is the next one
    have hfits : direntSize * k + direntSize ≤ maxfile * bsize ∧
        (missing (s₁.disk x.dev) (s.current sb dp)
          (needed (max c.length (direntSize * k + direntSize)))).card ≤
            (free sb (s₁.disk x.dev)).card := by
      rcases Nat.lt_or_eq_of_le hk with hlt | heq
      · have hle := Nat.mul_le_mul_left direntSize (Nat.succ_le_of_lt hlt)
        rw [hsize, Nat.mul_succ] at hle
        refine ⟨hle.trans (hlen.trans_le hok.file.covered.size_le), ?_⟩
        rw [max_eq_left hle, hlen, hok.file.covered.missing, Finset.card_empty]
        exact Nat.zero_le _
      · rw [heq, List.take_length] at hused
        rw [heq, hsize, max_eq_right (Nat.le_add_right _ _), hlen]
        refine hspace.resolve_left ?_
        rintro ⟨de, hde, hzero⟩
        rw [← hc] at hde
        exact hused de hde hzero
    rw [wp_bind]
    refine wp_putDirent hl hinum hu₁ hok hc (Dirent.length_encode _) hk hfits.1 hfits.2 honce'
      fun s₂ ip₂ hu₂ hok₂ hentries hlength _ hframe => ?_
    rw [wp_pure, wp_bind]
    refine wp_iunlock_dir hu₂ fun s₃ hu₃ hdisk₃ _ => ?_
    refine Using.leaves_put hdisk₁ hframe hok₂ hu₃ hdisk₃ ?_
    rw [Fs.dirMap, hentries, hbinding, hlength, hmap]
    rcases Nat.lt_or_eq_of_le hk with hlt | heq
    · have hle := Nat.mul_le_mul_left direntSize (Nat.succ_le_of_lt hlt)
      rw [hsize, Nat.mul_succ] at hle
      rw [max_eq_left hle]
      exact .reuse hnone ⟨Dvd.intro _ rfl, Nat.lt_of_lt_of_le (Nat.lt_add_of_pos_right (by decide))
        hle⟩ (unused_dirMap honce hfree)
    · rw [heq, List.take_length] at hused
      rw [heq, hsize, max_eq_right (Nat.le_add_right _ _)]
      refine .grow hnone fun off hdvd hoff => ?_
      obtain ⟨j, rfl⟩ := hdvd
      have hj : j < (entries c).length := Nat.lt_of_mul_lt_mul_left (hoff.trans_eq hsize.symm)
      exact not_unused_dirMap honce (List.getElem?_eq_getElem hj) (hused _ (List.getElem_mem hj))
  · -- the inode that was found is not the directory, whose lock is held
    have hne : i ≠ dp := by
      rintro rfl
      rw [hu₂.ino] at hino
      refine (hsome b (hbound.trans hb)).2 ?_
      rw [hino]
    have hstep : DirMap.Step (s.dirMap sb dp x) (.link name inum) _ _ :=
      .bound inum (by rw [hbound, hb]; rfl)
    dsimp only
    rw [wp_bind]
    refine wp_iput_spare hu₂ hi (hu₂.unlocked fun heq => hne (Option.some.inj heq).symm)
      fun s₃ hu₃ hdisk₃ => ?_
    rw [wp_pure, wp_bind]
    refine wp_iunlock_dir hu₃ fun s₄ hu₄ hdisk₄ _ => ?_
    exact hu₄.leaves h (hdisk₄.trans (hdisk₃.trans (hdisk₂.trans hdisk₁))) hstep

/-- **A name is removed.** -/
theorem wp_unlink (hl : Layout sb) (hinum : x.inum.toNat < sb.ninodes) (h : IsDir sb dp x s)
    (hsafe : (DirOp.unlink name).Safe sb dp x s) :
    wp ((DirOp.unlink name).exec sb dev dp) (fun _ => False)
      (fun a s' => Leaves sb dp x s (.unlink name) a s') s := by
  rw [DirOp.exec, wp_bind]
  refine wp_ilock_dir h fun s₁ hu₁ hdisk₁ hroom => ?_
  have hok := h.ok
  have hbound : (s.dirMap sb dp x).bound (cname name) = _ := congrFun (bound_dirMap hdisk₁) _
  rw [← hdisk₁] at hok
  -- nothing is removed
  have hstays : ∀ {s₂}, Using dp x (s.current sb dp) (some dp) s₂ → s₂.disk = s₁.disk →
      (s.dirMap sb dp x).bound (cname name) = none ∨ cname name = str "." ∨ cname name = str ".." →
      wp (iunlock dp) (fun _ => False) (fun _ s' => Leaves sb dp x s (.unlink name)
        (.status (-1)) s') s₂ := fun hu₂ hdisk₂ hwhy =>
    wp_iunlock_dir hu₂ fun s₃ hu₃ hdisk₃ _ =>
      hu₃.leaves h (hdisk₃.trans (hdisk₂.trans hdisk₁)) (.stays hwhy)
  rw [wp_bind, dirunlink, wp_ite, namecmp_iff rfl, namecmp_iff rfl]
  refine ⟨fun hdot => ?_, fun hdot => ?_⟩
  · rw [wp_pure, wp_bind]
    exact hstays hu₁ rfl (.inr hdot)
  rw [not_or] at hdot
  rw [wp_bind]
  refine wp_dirlookup_binding hu₁ hok (fun hnone => ?_) fun b hb =>
    ⟨hroom _ (hsafe hdot.1 hdot.2 b (hbound.trans hb)), fun i s₂ hu₂ hdisk₂ hino hi => ?_⟩
  · dsimp only
    rw [wp_pure, wp_bind]
    exact hstays hu₁ rfl (.inl (hbound.trans hnone))
  · dsimp only
    rw [← hdisk₂] at hok
    obtain ⟨k, de, hk, hfor, rfl⟩ := (binding_eq_some (by rw [← hdisk₂]; exact hok.once)).mp hb
    obtain ⟨c, hc⟩ : ∃ c, c = contents (s₁.disk x.dev) (s.current sb dp) := ⟨_, rfl⟩
    have hmap : s.dirMap sb dp x = Fs.dirMap c := by rw [Icache.dirMap, ← hdisk₁, hc]
    rw [← hc] at hb hk
    have hc₂ : c = contents (s₂.disk x.dev) (s.current sb dp) := by rw [hc, hdisk₂]
    have hlen : c.length = (s.current sb dp).size.toNat := by rw [hc, length_contents]
    have hlt := (List.getElem?_eq_some_iff.mp hk).1
    have hsize := (hok.holding hu₂).size
    have hle := Nat.mul_le_mul_left direntSize (Nat.succ_le_of_lt hlt)
    rw [← hc₂, ← hlen] at hsize
    rw [hsize, Nat.mul_succ] at hle
    have honce : Once (entries c) := by rw [hc₂]; exact hok.once
    have hzero : (Dirent.decode (List.replicate direntSize 0)).inum = 0 := by decide
    obtain ⟨honce', hbinding⟩ := binding_unlink honce hk hfor hzero
    rw [wp_bind]
    refine wp_putDirent hl hinum hu₂ hok hc₂ List.length_replicate hlt.le ?_ ?_ honce'
      fun s₃ ip₃ hu₃ hok₃ hentries hlength hkeep₃ hframe => ?_
    · exact hle.trans (hlen.trans_le hok.file.covered.size_le)
    · rw [max_eq_left hle, hlen, hok.file.covered.missing, Finset.card_empty]
      exact Nat.zero_le _
    rw [wp_pure, wp_bind]
    refine wp_iunlock_dir hu₃ fun s₄ hu₄ hdisk₄ hkeep₄ => ?_
    dsimp only
    rw [wp_bind]
    refine wp_iput_spare hu₄ ((hkeep₄ i).2 ((hkeep₃ i).2 hi))
      (hu₄.unlocked fun hnone => by cases hnone) fun s₅ hu₅ hdisk₅ => ?_
    rw [wp_pure]
    refine Using.leaves_put (hdisk₂.trans hdisk₁) hframe hok₃ hu₅ (hdisk₅.trans hdisk₄) ?_
    rw [Fs.dirMap, hentries, hbinding, hlength, max_eq_left hle, hmap]
    exact .unlink (Option.isSome_iff_exists.mpr ⟨_, hb⟩) hdot

/-- **One call.** -/
theorem wp_dirOp (hl : Layout sb) (hinum : x.inum.toNat < sb.ninodes) (h : IsDir sb dp x s)
    (op : DirOp) (hvalid : op.Valid) (hsafe : op.Safe sb dp x s) :
    wp (op.exec sb dev dp) (fun _ => False) (fun a s' => Leaves sb dp x s op a s') s := by
  cases op with
  | lookup name => exact wp_lookup h hsafe
  | link name inum => exact wp_link hl hinum h hvalid hsafe
  | unlink name => exact wp_unlink hl hinum h hsafe

theorem Frame.trans {s'' : Icache} (h : Frame sb x s s') (h' : Frame sb x s' s'') :
    Frame sb x s s'' :=
  ⟨h.kept.trans h'.kept, fun v hv => (h'.disk v hv).trans (h.disk v hv)⟩

end Calls

/-- A disk with a directory that has one entry, on which the blocks in use are marked. -/
def dirDisk : Disk := fun b => if b = 4 then Bytes.patch zeroBlock 0 [0x3f] else dotDisk b

def dirCache : Icache := { dotCache with disk := fun _ => dirDisk }

theorem slot_dotRoot (i : ℕ) : slot dirDisk dotRoot i = if i = 0 then 5 else 0 := by
  rcases Nat.lt_or_ge i ndirect with hi | hi
  · have hall : ∀ i < ndirect, dotRoot.addr i = if i = 0 then 5 else 0 := by decide
    rw [slot_direct hi.le, hall i hi]
  · rw [slot_of_addr_eq_zero (by decide) hi, if_neg (by rintro rfl; exact absurd hi (by decide))]

theorem slot_ne_zero_iff {i : ℕ} : slot dirDisk dotRoot i ≠ 0 ↔ i = 0 := by
  rw [slot_dotRoot]
  by_cases hi : i = 0
  · rw [if_pos hi]
    exact iff_of_true (by decide) hi
  · rw [if_neg hi]
    exact iff_of_false (not_not.mpr rfl) hi

theorem entries_dirDisk : entries (contents dirDisk dotRoot) = [⟨1, strncpy (str ".")⟩] := by
  decide +kernel

theorem isDir_dirCache : IsDir tinySb 0 ⟨rootdev, rootino⟩ dirCache := by
  have hfirst : ∀ i, slot dirDisk dotRoot i ≠ 0 → slot dirDisk dotRoot i = 5 := fun i hi => by
    rw [slot_dotRoot, if_pos (slot_ne_zero_iff.mp hi)]
  have hfree : ∀ j < tinySb.ninodes, (dinode tinySb dirDisk j).type = 0 := by decide +kernel
  have howns : Owns tinySb dirDisk dotRoot := by
    refine ⟨by decide +kernel, fun i hi => ?_, fun i hi => ?_, fun i j hi hij => ?_⟩
    · rw [hfirst i hi]
      decide
    · rw [hfirst i hi]
      decide +kernel
    · have hj : slot dirDisk dotRoot j ≠ 0 := hij ▸ hi
      rw [slot_ne_zero_iff.mp hi, slot_ne_zero_iff.mp hj]
  have hcovered : Covered dirDisk dotRoot 0 dotRoot.size.toNat := fun i _ hi => by
    have hlt : i < 16 := hi
    rw [slot_ne_zero_iff, Nat.div_eq_of_lt (hlt.trans (by decide))]
    rfl
  have honce : Once (entries (contents dirDisk dotRoot)) := by
    rw [entries_dirDisk]
    intro j k de de' key hj hk _ _
    have hj := (List.getElem?_eq_some_iff.mp hj).1
    have hk := (List.getElem?_eq_some_iff.mp hk).1
    rw [List.length_singleton] at hj hk
    omega
  exact ⟨Nat.one_pos, rfl, fun _ => rfl, rfl, ⟨by decide, howns, hcovered,
    fun j hj _ htype => absurd (hfree j hj) htype⟩, by decide, honce⟩

/-- **A directory is locked twice**, when the name that is linked is its own: `dirlink` does not
return. -/
theorem not_directory_refines_map : ¬∀ (sb : Superblock) (dev : Devsw) (dp : Slot) (x : Ino)
    (s : Icache) (ops : List DirOp), Layout sb → x.inum.toNat < sb.ninodes → IsDir sb dp x s →
      (∀ op ∈ ops, op.Valid) → ∃ s' as, Machine.run (dirStep sb dev dp) s ops = some (s', as) ∧
        Machine.Trace DirMap.Step (s.dirMap sb dp x) ops (s'.dirMap sb dp x) as := by
  intro h
  have hnone : (dirStep tinySb ⟨fun _ => none, fun _ => none⟩ 0 dirCache
      (.link (str ".") 5)).isNone = true := by
    decide +kernel
  obtain ⟨s', as, hrun, -⟩ := h tinySb ⟨fun _ => none, fun _ => none⟩ 0 ⟨rootdev, rootino⟩ dirCache
    [.link (str ".") 5] tinySb_layout (by decide) isDir_dirCache
    fun op hop => by rw [List.mem_singleton.mp hop]; exact ⟨by decide, by decide⟩
  obtain ⟨p, q, hp, -⟩ := Machine.run_cons_eq_some.mp hrun
  rw [Option.isNone_iff_eq_none.mp hnone] at hp
  cases hp

end Fs
end Xv6
