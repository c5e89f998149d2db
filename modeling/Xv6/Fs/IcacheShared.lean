import Xv6.Fs.Icache
import Xv6.Lib.Machine

/-!
# The inode cache, shared

`ialloc`, `iget`, `idup`, `ilock`, `iupdate`, `iunlock` and `iput` of `fs.c`, called by any number
of processes.  What is done with `icache.lock` or with the buffer of the inode locked is one step,
and between two steps any other process may take its own; a sleep lock is taken in one step.

## Main definitions

* `Code`, `Pc`, `State`, `step` — where a process is in these functions, and the steps.
* `Disciplined` — what the callers of the functions see to.
* `Store`, `Store.Step` — what the cache is for: inodes with references to them, and locks.
* `Inv` — what every step keeps.

## Main results

* `inv_step` — every step keeps the invariant, and is a step of the store.
* `icache_is_store` — **the cache is a store of inodes**, over whole runs.
-/

namespace Xv6
namespace IcacheShared

open Machine
open Fs (Ino Slot Dinode)

variable {P : Type*}

/-! ### The code -/

/-- `struct inode` -/
structure Inode (P : Type*) where
  ino : Ino
  ref : ℕ
  /-- The process that has `ip->lock`. -/
  lock : Option P
  valid : Bool
  /-- The fields that are copied from the disk. -/
  copy : Dinode

/-- The places in `ilock`, `iunlock` and `iput`, with the next statement as their comment. -/
inductive Code
  /-- `acquiresleep(&ip->lock);` -/
  | ilock0
  /-- `if(ip->valid == 0)` -/
  | ilock1
  /-- From `bread` to `brelse`: the fields are copied. -/
  | ilock2
  /-- `ip->valid = 1; if(ip->type == 0) panic("ilock: no type");` -/
  | ilock3
  /-- `releasesleep(&ip->lock);` -/
  | iunlock0
  /-- `acquiresleep(&ip->lock);` -/
  | iput0
  /-- `if(ip->valid && ip->nlink == 0)` -/
  | iput1
  /-- `int r = ip->ref;`, and `if(r == 1)` -/
  | iput2
  /-- `itrunc(ip);` -/
  | iput3
  /-- `ip->type = 0; iupdate(ip);` -/
  | iput4
  /-- `ip->valid = 0;` -/
  | iput5
  /-- `releasesleep(&ip->lock);` -/
  | iput6
  /-- `ip->ref--;` -/
  | iput7
  deriving DecidableEq

/-- Where a process is. -/
inductive Pc
  /-- In none of the functions. -/
  | user
  /-- In the loop of `ialloc`, at an inode number. -/
  | ialloc (dev : UInt32) (type : Int16) (inum : ℕ)
  /-- `return iget(dev, inum);` -/
  | iget (x : Ino)
  | on (c : Code) (i : Slot)
  | panicked
  deriving DecidableEq

/-- The inodes on the disks are those that the buffers hold. -/
structure State (P : Type*) where
  ip : Slot → Inode P
  disk : Ino → Dinode
  pc : P → Pc
  /-- The references that processes and files have: those with which `iput` was not called. -/
  refs : Slot → ℕ

inductive Action (P : Type*)
  | ialloc (p : P) (dev : UInt32) (type : Int16)
  /-- `iget` is called by another function than `ialloc`. -/
  | iget (p : P) (x : Ino)
  | idup (p : P) (i : Slot)
  | ilock (p : P) (i : Slot)
  /-- The fields of an inode are set. -/
  | change (p : P) (i : Slot) (d : Dinode)
  | iupdate (p : P) (i : Slot)
  | iunlock (p : P) (i : Slot)
  | iput (p : P) (i : Slot)
  /-- The next statement of the function that the process is in. -/
  | next (p : P)

inductive Event (P : Type*)
  | allocated (p : P) (x : Ino) (type : Int16)
  /-- A new reference to the inode, in the slot. -/
  | got (p : P) (i : Slot) (x : Ino)
  | locked (p : P) (i : Slot)
  /-- `ilock` returns. -/
  | loaded (p : P) (i : Slot) (d : Dinode)
  | changed (p : P) (i : Slot) (d : Dinode)
  | unlocked (p : P) (i : Slot)
  /-- `iput` is called. -/
  | dropped (p : P) (i : Slot)
  | truncated (p : P) (i : Slot)
  | freed (p : P) (i : Slot)
  | panicked (p : P) (message : String)
  | quiet

section Step

variable [DecidableEq P]

def State.goto (s : State P) (p : P) (c : Pc) : State P := { s with pc := Function.update s.pc p c }

def State.set (s : State P) (i : Slot) (ip : Inode P) : State P :=
  { s with ip := Function.update s.ip i ip }

def State.setRefs (s : State P) (i : Slot) (n : ℕ) : State P :=
  { s with refs := Function.update s.refs i n }

/-- The inode is copied to its disk. -/
def State.write (s : State P) (x : Ino) (d : Dinode) : State P :=
  { s with disk := Function.update s.disk x d }

def panic (s : State P) (p : P) (message : String) : State P × Event P :=
  (s.goto p .panicked, .panicked p message)

/-- A reference to a slot that is in use. -/
def grab (s : State P) (p : P) (i : Slot) : State P × Event P :=
  (((s.set i { s.ip i with ref := (s.ip i).ref + 1 }).setRefs i (s.refs i + 1)).goto p .user,
    .got p i (s.ip i).ino)

/-- The slot is in use, for the inode `x`. -/
def State.Holds (s : State P) (i : Slot) (x : Ino) : Prop := 0 < (s.ip i).ref ∧ (s.ip i).ino = x

instance (s : State P) (i : Slot) (x : Ino) : Decidable (s.Holds i x) :=
  inferInstanceAs (Decidable (_ ∧ _))

/-- `iget` -/
def iget (s : State P) (p : P) (x : Ino) : State P × Event P :=
  match Table.find fun i => s.Holds i x with
  | some i => grab s p i
  | none =>
    match Table.find fun i => (s.ip i).ref = 0 with
    | some i =>
        (((s.set i { s.ip i with ino := x, ref := 1, valid := false }).setRefs i 1).goto p .user,
          .got p i x)
    | none => panic s p "iget: no inodes"

/-- `acquiresleep(&ip->lock)`, and what comes after it. -/
def acquiresleep (s : State P) (p : P) (i : Slot) (c : Code) : Option (State P × Event P) :=
  if (s.ip i).lock = none then
    some ((s.set i { s.ip i with lock := some p }).goto p (.on c i), .locked p i)
  else none

/-- `itrunc`, without the blocks that it frees and the call of `iupdate`. -/
def itrunc (d : Dinode) : Dinode := { d with size := 0, addrs := Vector.replicate 13 0 }

/-- The next statement in `ilock`, `iunlock` or `iput`. -/
def statement (s : State P) (p : P) (i : Slot) : Code → Option (State P × Event P)
  | .ilock0 => acquiresleep s p i .ilock1
  | .ilock1 =>
      if (s.ip i).valid then some (s.goto p .user, .loaded p i (s.ip i).copy)
      else some (s.goto p (.on .ilock2 i), .quiet)
  | .ilock2 =>
      some ((s.set i { s.ip i with copy := s.disk (s.ip i).ino }).goto p (.on .ilock3 i), .quiet)
  | .ilock3 =>
      let t := s.set i { s.ip i with valid := true }
      if (s.ip i).copy.type = 0 then some (panic t p "ilock: no type")
      else some (t.goto p .user, .loaded p i (s.ip i).copy)
  | .iunlock0 => some ((s.set i { s.ip i with lock := none }).goto p .user, .unlocked p i)
  | .iput0 => acquiresleep s p i .iput1
  | .iput1 =>
      if (s.ip i).valid ∧ (s.ip i).copy.nlink = 0 then some (s.goto p (.on .iput2 i), .quiet)
      else some (s.goto p (.on .iput6 i), .quiet)
  | .iput2 =>
      if (s.ip i).ref = 1 then some (s.goto p (.on .iput3 i), .quiet)
      else some (s.goto p (.on .iput6 i), .quiet)
  | .iput3 =>
      let d := itrunc (s.ip i).copy
      some (((s.set i { s.ip i with copy := d }).write (s.ip i).ino d).goto p (.on .iput4 i),
        .truncated p i)
  | .iput4 =>
      let d := { (s.ip i).copy with type := 0 }
      some (((s.set i { s.ip i with copy := d }).write (s.ip i).ino d).goto p (.on .iput5 i),
        .freed p i)
  | .iput5 => some ((s.set i { s.ip i with valid := false }).goto p (.on .iput6 i), .quiet)
  | .iput6 => some ((s.set i { s.ip i with lock := none }).goto p (.on .iput7 i), .unlocked p i)
  | .iput7 => some ((s.set i { s.ip i with ref := (s.ip i).ref - 1 }).goto p .user, .quiet)

/-- The next step of a process. -/
def next (ninodes : ℕ) (s : State P) (p : P) : Pc → Option (State P × Event P)
  | .user | .panicked => none
  | .ialloc dev type inum =>
      let x : Ino := ⟨dev, .ofNat inum⟩
      if inum < ninodes then
        if (s.disk x).type = 0 then
          some ((s.write x (.blank type 0)).goto p (.iget x), .allocated p x type)
        else some (s.goto p (.ialloc dev type (inum + 1)), .quiet)
      else some (panic s p "ialloc: no inodes")
  | .iget x => some (iget s p x)
  | .on c i => statement s p i c

/-- What a process that is in none of the functions does. -/
def call (s : State P) : Action P → Option (State P × Event P)
  | .ialloc p dev type => some (s.goto p (.ialloc dev type 1), .quiet)
  | .iget p x => some (iget s p x)
  | .idup p i => some (grab s p i)
  | .ilock p i =>
      if (s.ip i).ref < 1 then some (panic s p "ilock")
      else some (s.goto p (.on .ilock0 i), .quiet)
  | .change p i d =>
      if (s.ip i).lock = some p then
        some ((s.set i { s.ip i with copy := d }).goto p .user, .changed p i d)
      else none
  | .iupdate p i =>
      if (s.ip i).lock = some p then
        some ((s.write (s.ip i).ino (s.ip i).copy).goto p .user, .quiet)
      else none
  | .iunlock p i =>
      if (s.ip i).lock ≠ some p ∨ (s.ip i).ref < 1 then some (panic s p "iunlock")
      else some (s.goto p (.on .iunlock0 i), .quiet)
  | .iput p i => some ((s.setRefs i (s.refs i - 1)).goto p (.on .iput0 i), .dropped p i)
  | .next _ => none

/-- The process that takes a step. -/
def Action.actor : Action P → P
  | .ialloc p _ _ | .iget p _ | .idup p _ | .ilock p _ | .change p _ _ | .iupdate p _
  | .iunlock p _ | .iput p _ | .next p => p

def step (ninodes : ℕ) (s : State P) : Action P → Option (State P × Event P)
  | .next p => next ninodes s p (s.pc p)
  | a => if s.pc a.actor = .user then call s a else none

/-- After `iinit`. -/
def boot (disk : Ino → Dinode) : State P where
  ip := fun _ => ⟨⟨0, 0⟩, 0, none, false, .blank 0 0⟩
  disk := disk
  pc := fun _ => .user
  refs := fun _ => 0

/-- The inode is on its way from the disk: it is freed there, and the copy is still valid. -/
def State.Stale (s : State P) (i : Slot) : Prop := ∃ p ∈ (s.ip i).lock, s.pc p = .on .iput5 i

instance (s : State P) (i : Slot) : Decidable (s.Stale i) :=
  inferInstanceAs (Decidable (∃ p ∈ (s.ip i).lock, s.pc p = .on .iput5 i))

/-- The inode of a slot: the copy, or what it will be. -/
def State.content (s : State P) (i : Slot) : Dinode :=
  if (s.ip i).valid ∧ ¬s.Stale i then (s.ip i).copy else s.disk (s.ip i).ino

/-- The inode with a number. -/
def State.inode (s : State P) (x : Ino) : Dinode :=
  match Table.find fun i => s.Holds i x with
  | some i => s.content i
  | none => s.disk x

/-- In `ilock` or `iunlock`. -/
def Code.Locking : Code → Prop
  | .ilock0 | .ilock1 | .ilock2 | .ilock3 | .iunlock0 => True
  | _ => False

/-- In `iput`, with the lock. -/
def Code.Putting : Code → Prop
  | .iput1 | .iput2 | .iput3 | .iput4 | .iput5 | .iput6 => True
  | _ => False

instance : ∀ c : Code, Decidable c.Locking
  | .ilock0 | .ilock1 | .ilock2 | .ilock3 | .iunlock0 => inferInstanceAs (Decidable True)
  | .iput0 | .iput1 | .iput2 | .iput3 | .iput4 | .iput5 | .iput6 | .iput7 =>
      inferInstanceAs (Decidable False)

instance : ∀ c : Code, Decidable c.Putting
  | .iput1 | .iput2 | .iput3 | .iput4 | .iput5 | .iput6 => inferInstanceAs (Decidable True)
  | .ilock0 | .ilock1 | .ilock2 | .ilock3 | .iunlock0 | .iput0 | .iput7 =>
      inferInstanceAs (Decidable False)

/-- The process needs a reference to the slot: it is about to lock it, or has locked it. -/
def State.Uses (s : State P) (q : P) (i : Slot) : Prop :=
  (∃ c, s.pc q = .on c i ∧ c.Locking) ∨
    ((s.ip i).lock = some q ∧ ¬∃ c, s.pc q = .on c i ∧ c.Putting)

/-- Whether a process is at some of the places can be computed. -/
instance decidableOn (C : Code → Prop) [DecidablePred C] (i : Slot) :
    ∀ pc : Pc, Decidable (∃ c, pc = .on c i ∧ C c)
  | .on c j => decidable_of_iff (j = i ∧ C c)
      ⟨fun ⟨hj, hc⟩ => ⟨c, congrArg _ hj, hc⟩, fun ⟨_, h, hc⟩ => by cases h; exact ⟨rfl, hc⟩⟩
  | .user | .ialloc _ _ _ | .iget _ | .panicked => isFalse fun ⟨_, h, _⟩ => by cases h

instance (s : State P) (q : P) (i : Slot) : Decidable (s.Uses q i) :=
  inferInstanceAs (Decidable ((∃ c, s.pc q = .on c i ∧ c.Locking) ∨
    ((s.ip i).lock = some q ∧ ¬∃ c, s.pc q = .on c i ∧ c.Putting)))

/-- **What the callers see to.**  A new reference is to an inode that is linked, or to which there
is one already; an inode has been written before it is unlocked; a reference is dropped only when
another one is left to those that use it. -/
def Disciplined (s : State P) : Action P → Prop
  | .ialloc _ _ type => type ≠ 0
  | .iget _ x =>
      ((s.inode x).type ≠ 0 ∧ (s.inode x).nlink ≠ 0) ∨ ∃ i, s.Holds i x ∧ 0 < s.refs i
  | .idup _ i | .ilock _ i => 0 < s.refs i
  | .change _ _ d => d.type ≠ 0
  | .iupdate _ _ | .next _ => True
  | .iunlock p i => (s.ip i).lock = some p ∧ s.disk (s.ip i).ino = (s.ip i).copy
  | .iput _ i => 0 < s.refs i ∧ (s.refs i = 1 → ∀ q, ¬s.Uses q i)

end Step

/-! ### What the cache is for -/

/-- Inodes, the references to them, and the processes that have locked them. -/
structure Store (P : Type*) where
  inode : Ino → Dinode
  ino : Slot → Ino
  refs : Slot → ℕ
  owner : Slot → Option P

section Store

variable [DecidableEq P]

def Store.put (t : Store P) (x : Ino) (d : Dinode) : Store P :=
  { t with inode := Function.update t.inode x d }

def Store.own (t : Store P) (i : Slot) (o : Option P) : Store P :=
  { t with owner := Function.update t.owner i o }

inductive Store.Step (t : Store P) (a : Action P) : Store P → Event P → Prop
  | allocated {p : P} {x : Ino} {type : Int16} (hfree : (t.inode x).type = 0)
      (hrefs : ∀ i, t.ino i = x → t.refs i = 0) :
      Step t a (t.put x (.blank type 0)) (.allocated p x type)
  /-- A slot keeps its inode while there are references to it, and no two slots have the same. -/
  | got {p : P} {i : Slot} {x : Ino} (htype : (t.inode x).type ≠ 0)
      (hino : t.refs i = 0 ∨ t.ino i = x) (hone : ∀ j, 0 < t.refs j → t.ino j = x → j = i) :
      Step t a { t with
        ino := Function.update t.ino i x
        refs := Function.update t.refs i (t.refs i + 1) } (.got p i x)
  | locked {p : P} {i : Slot} (h : t.owner i = none) : Step t a (t.own i (some p)) (.locked p i)
  | loaded {p : P} {i : Slot} (h : t.owner i = some p) (hrefs : 0 < t.refs i)
      (htype : (t.inode (t.ino i)).type ≠ 0) : Step t a t (.loaded p i (t.inode (t.ino i)))
  | changed {p : P} {i : Slot} {d : Dinode} (h : t.owner i = some p) (hrefs : 0 < t.refs i) :
      Step t a (t.put (t.ino i) d) (.changed p i d)
  | unlocked {p : P} {i : Slot} (h : t.owner i = some p) : Step t a (t.own i none) (.unlocked p i)
  | dropped {p : P} {i : Slot} (hrefs : 0 < t.refs i) :
      Step t a { t with refs := Function.update t.refs i (t.refs i - 1) } (.dropped p i)
  /-- Only an inode without links and references is freed. -/
  | truncated {p : P} {i : Slot} (h : t.owner i = some p) (hrefs : t.refs i = 0)
      (hlinks : (t.inode (t.ino i)).nlink = 0) :
      Step t a (t.put (t.ino i) (itrunc (t.inode (t.ino i)))) (.truncated p i)
  | freed {p : P} {i : Slot} (h : t.owner i = some p) (hrefs : t.refs i = 0)
      (hlinks : (t.inode (t.ino i)).nlink = 0) :
      Step t a (t.put (t.ino i) { t.inode (t.ino i) with type := 0 }) (.freed p i)
  /-- There are not enough of them. -/
  | panicked {p : P} {message : String}
      (h : message = "iget: no inodes" ∨ message = "ialloc: no inodes") :
      Step t a t (.panicked p message)
  | quiet : Step t a t .quiet

/-- The store that the cache stands for. -/
def State.store (s : State P) : Store P where
  inode := s.inode
  ino := fun i => (s.ip i).ino
  refs := s.refs
  owner := fun i => (s.ip i).lock

end Store

/-! ### The invariant -/

/-- In a critical section of the lock of the inode. -/
def Code.Inside (c : Code) : Prop := (c.Locking ∧ c ≠ .ilock0) ∨ c.Putting

/-- In `iput`: the reference is gone, and still counted. -/
def Code.Drops (c : Code) : Prop := c = .iput0 ∨ c.Putting ∨ c = .iput7

instance (c : Code) : Decidable c.Drops := inferInstanceAs (Decidable (_ ∨ _))

instance (c : Code) : Decidable c.Inside := inferInstanceAs (Decidable (_ ∨ _))

/-- A process drops a reference to the slot. -/
def Pc.Drops (i : Slot) : Pc → Prop
  | .on c j => j = i ∧ c.Drops
  | _ => False

instance (i : Slot) : ∀ c : Pc, Decidable (c.Drops i)
  | .on _ _ => inferInstanceAs (Decidable (_ ∧ _))
  | .user | .ialloc _ _ _ | .iget _ | .panicked => inferInstanceAs (Decidable False)

/-- The inode is allocated on the disk, and nobody but the process that did so knows it. -/
structure Reserved (s : State P) (x : Ino) : Prop where
  type : (s.disk x).type ≠ 0
  nlink : (s.disk x).nlink = 0
  refs : ∀ i, s.Holds i x → s.refs i = 0
  stale : ∀ i, s.Holds i x → (s.ip i).valid = true → s.Stale i
  pc : ∀ i, s.Holds i x → ∀ q c, s.pc q = .on c i → c = .iput5 ∨ c = .iput6 ∨ c = .iput7

/-- What is known at a place. -/
def Place (s : State P) (p : P) (i : Slot) : Code → Prop
  | .ilock0 => 0 < s.refs i
  | .ilock1 => (s.ip i).lock = some p ∧ 0 < s.refs i
  | .ilock2 => (s.ip i).lock = some p ∧ 0 < s.refs i ∧ (s.ip i).valid = false
  | .ilock3 => (s.ip i).lock = some p ∧ 0 < s.refs i ∧ (s.ip i).valid = false ∧
      (s.ip i).copy = s.disk (s.ip i).ino
  | .iunlock0 => (s.ip i).lock = some p ∧ 0 < s.refs i ∧ (s.ip i).valid = true ∧
      (s.ip i).copy = s.disk (s.ip i).ino
  | .iput0 => (s.disk (s.ip i).ino).type ≠ 0
  | .iput1 => (s.ip i).lock = some p ∧ (s.disk (s.ip i).ino).type ≠ 0 ∧
      ((s.ip i).valid = true → (s.ip i).copy = s.disk (s.ip i).ino)
  | .iput2 => (s.ip i).lock = some p ∧ (s.disk (s.ip i).ino).type ≠ 0 ∧
      (s.ip i).valid = true ∧ (s.ip i).copy = s.disk (s.ip i).ino ∧ (s.ip i).copy.nlink = 0
  | .iput3 | .iput4 => (s.ip i).lock = some p ∧ (s.disk (s.ip i).ino).type ≠ 0 ∧
      (s.ip i).valid = true ∧ (s.ip i).copy = s.disk (s.ip i).ino ∧ (s.ip i).copy.nlink = 0 ∧
      s.refs i = 0 ∧ (s.ip i).ref = 1
  | .iput5 => (s.ip i).lock = some p
  | .iput6 => (s.ip i).lock = some p ∧
      ((s.ip i).valid = true → (s.ip i).copy = s.disk (s.ip i).ino)
  | .iput7 => True

/-- What is known of a slot. -/
structure Slotted [Fintype P] (s : State P) (i : Slot) : Prop where
  count : (s.ip i).ref = s.refs i + ∑ p, if (s.pc p).Drops i then 1 else 0
  lock : ∀ q, (s.ip i).lock = some q →
    (∃ c, s.pc q = .on c i ∧ c.Inside) ∨ (0 < s.refs i ∧ (s.ip i).valid = true)
  live : 0 < s.refs i → (s.disk (s.ip i).ino).type ≠ 0
  fresh : 0 < (s.ip i).ref → (s.ip i).valid = true → ¬s.Stale i →
    (s.ip i).copy.type ≠ 0 ∧ (s.disk (s.ip i).ino).type ≠ 0 ∧
      ((s.ip i).lock = none → (s.ip i).copy = s.disk (s.ip i).ino)

/-- **What every step keeps.** -/
structure Inv [Fintype P] (s : State P) : Prop where
  one : ∀ i j, 0 < (s.ip i).ref → 0 < (s.ip j).ref → (s.ip i).ino = (s.ip j).ino → i = j
  slot : ∀ i, Slotted s i
  place : ∀ p i c, s.pc p = .on c i → Place s p i c
  reserved : ∀ p x, s.pc p = .iget x → Reserved s x
  sole : ∀ p q x, s.pc p = .iget x → s.pc q = .iget x → p = q
  typed : ∀ p dev type inum, s.pc p = .ialloc dev type inum → type ≠ 0

section Invariant

variable [DecidableEq P] [Fintype P] {s s' : State P} {p q : P} {i j : Slot} {x y : Ino}
  {e : Event P} {c : Pc} {v : Inode P} {n : ℕ} {d : Dinode}

omit [DecidableEq P] in
/-- A process in `iput` is counted. -/
theorem Slotted.drops (h : Slotted s i) (hp : (s.pc p).Drops i) : s.refs i < (s.ip i).ref := by
  have hle := Finset.single_le_sum (f := fun q => if (s.pc q).Drops i then 1 else 0)
    (fun _ _ => Nat.zero_le _) (Finset.mem_univ p)
  rw [if_pos hp] at hle
  have hcount := h.count
  omega

omit [DecidableEq P] in
theorem Slotted.refs_le (h : Slotted s i) : s.refs i ≤ (s.ip i).ref := by
  rw [h.count]
  exact Nat.le_add_right _ _

omit [DecidableEq P] in
/-- The only process in `iput`. -/
theorem Slotted.drops_one (h : Slotted s i) (hone : (s.ip i).ref = 1) (hp : (s.pc p).Drops i)
    (hq : (s.pc q).Drops i) : p = q := by
  by_contra hne
  have hle := Finset.add_le_sum (f := fun q => if (s.pc q).Drops i then 1 else 0)
    (fun _ _ => Nat.zero_le _) (Finset.mem_univ p) (Finset.mem_univ q) hne
  rw [if_pos hp, if_pos hq] at hle
  have hcount := h.count
  omega

omit [Fintype P] [DecidableEq P] in
theorem Code.drops_or_locking : ∀ c : Code, c.Drops ∨ c.Locking
  | .ilock0 | .ilock1 | .ilock2 | .ilock3 | .iunlock0 => .inr trivial
  | .iput0 => .inl (.inl rfl)
  | .iput1 | .iput2 | .iput3 | .iput4 | .iput5 | .iput6 => .inl (.inr (.inl trivial))
  | .iput7 => .inl (.inr (.inr rfl))

omit [DecidableEq P] [Fintype P] in
theorem Place.refs {k : Code} (h : Place s p i k) (hk : k.Locking) : 0 < s.refs i := by
  cases k with
  | ilock0 => exact h
  | ilock1 => exact h.2
  | ilock2 | ilock3 | iunlock0 => exact h.2.1
  | _ => exact hk.elim

omit [DecidableEq P] [Fintype P] in
theorem Place.lock {k : Code} (h : Place s p i k) (hk : k.Inside) : (s.ip i).lock = some p := by
  cases k with
  | ilock0 => exact hk.elim (fun hk => absurd rfl hk.2) False.elim
  | iput0 | iput7 => exact hk.elim (fun hk => hk.1.elim) False.elim
  | iput5 => exact h
  | _ => exact h.1

omit [DecidableEq P] in
/-- A process at a slot has it in use. -/
theorem Inv.ref_pos (hs : Inv s) {k : Code} (hp : s.pc p = .on k i) : 0 < (s.ip i).ref := by
  rcases k.drops_or_locking with hk | hk
  · have hdrops : (s.pc p).Drops i := by
      rw [hp]
      exact ⟨rfl, hk⟩
    exact Nat.zero_lt_of_lt ((hs.slot i).drops hdrops)
  · exact ((hs.place p i k hp).refs hk).trans_le (hs.slot i).refs_le

omit [Fintype P] [DecidableEq P] in
theorem Code.outside {k : Code} (h : ¬k.Inside) : k = .ilock0 ∨ k = .iput0 ∨ k = .iput7 := by
  cases k with
  | ilock0 => exact .inl rfl
  | iput0 => exact .inr (.inl rfl)
  | iput7 => exact .inr (.inr rfl)
  | ilock1 | ilock2 | ilock3 | iunlock0 => exact absurd (.inl ⟨trivial, by decide⟩) h
  | _ => exact absurd (.inr trivial) h

omit [DecidableEq P] in
/-- A process without the lock is not inside. -/
theorem Inv.outside (hs : Inv s) (hlock : (s.ip i).lock ≠ some q) {k : Code}
    (hpc : s.pc q = .on k i) : k = .ilock0 ∨ k = .iput0 ∨ k = .iput7 :=
  Code.outside fun hinside => hlock ((hs.place q i k hpc).lock hinside)

/-! ### Changes of one slot -/

/-- What a step of a process can change. -/
def State.put (s : State P) (p : P) (c : Pc) (i : Slot) (v : Inode P) (n : ℕ) (d : Dinode) :
    State P where
  ip := Function.update s.ip i v
  disk := Function.update s.disk v.ino d
  pc := Function.update s.pc p c
  refs := Function.update s.refs i n

section Put

omit [Fintype P]

@[simp] theorem State.put_ip : (s.put p c i v n d).ip i = v := Function.update_self _ _ _

theorem State.put_ip_ne (h : j ≠ i) : (s.put p c i v n d).ip j = s.ip j :=
  Function.update_of_ne h _ _

@[simp] theorem State.put_disk : (s.put p c i v n d).disk v.ino = d := Function.update_self _ _ _

theorem State.put_disk_ne (h : x ≠ v.ino) : (s.put p c i v n d).disk x = s.disk x :=
  Function.update_of_ne h _ _

@[simp] theorem State.put_pc : (s.put p c i v n d).pc p = c := Function.update_self _ _ _

theorem State.put_pc_ne (h : q ≠ p) : (s.put p c i v n d).pc q = s.pc q :=
  Function.update_of_ne h _ _

@[simp] theorem State.put_refs : (s.put p c i v n d).refs i = n := Function.update_self _ _ _

theorem State.put_refs_ne (h : j ≠ i) : (s.put p c i v n d).refs j = s.refs j :=
  Function.update_of_ne h _ _

variable (s p c i v n d)

theorem goto_eq_put :
    s.goto p c = s.put p c i (s.ip i) (s.refs i) (s.disk (s.ip i).ino) := by
  simp only [State.goto, State.put, Function.update_eq_self]

theorem set_eq_put :
    (s.set i v).goto p c = s.put p c i v (s.refs i) (s.disk v.ino) := by
  simp only [State.goto, State.set, State.put, Function.update_eq_self]

theorem set_write_eq_put :
    ((s.set i v).write v.ino d).goto p c = s.put p c i v (s.refs i) d := by
  simp only [State.goto, State.set, State.write, State.put, Function.update_eq_self]

theorem write_eq_put :
    (s.write (s.ip i).ino d).goto p c = s.put p c i (s.ip i) (s.refs i) d := by
  simp only [State.goto, State.write, State.put, Function.update_eq_self]

theorem setRefs_eq_put :
    (s.setRefs i n).goto p c = s.put p c i (s.ip i) n (s.disk (s.ip i).ino) := by
  simp only [State.goto, State.setRefs, State.put, Function.update_eq_self]

theorem set_setRefs_eq_put :
    ((s.set i v).setRefs i n).goto p c = s.put p c i v n (s.disk v.ino) := by
  simp only [State.goto, State.set, State.setRefs, State.put, Function.update_eq_self]

end Put

/-- The number of processes in `iput` after a step. -/
theorem sum_drops (s : State P) (p : P) (c : Pc) (i : Slot) :
    (∑ q, if ((Function.update s.pc p c) q).Drops i then 1 else 0) +
        (if (s.pc p).Drops i then 1 else 0) =
      (∑ q, if (s.pc q).Drops i then 1 else 0) + if c.Drops i then 1 else 0 := by
  have h : (∑ q, if ((Function.update s.pc p c) q).Drops i then (1 : ℤ) else 0) =
      (∑ q, if (s.pc q).Drops i then (1 : ℤ) else 0) - (if (s.pc p).Drops i then 1 else 0) +
        if c.Drops i then 1 else 0 :=
    Table.sum_update (fun c : Pc => if c.Drops i then (1 : ℤ) else 0) s.pc p c
  zify
  rw [h]
  ring

/-- The place is at no other slot. -/
def Pc.Near (i : Slot) : Pc → Prop
  | .on _ j => j = i
  | .iget _ | .ialloc _ _ _ => False
  | .user | .panicked => True

/-- **A step that changes one slot.** -/
theorem Inv.put (hs : Inv s) (hat : ∀ k j, s.pc p = .on k j → j = i) (hc : c.Near i)
    (hone : ∀ j ≠ i, 0 < (s.ip j).ref → (s.ip j).ino ≠ v.ino)
    (hslot : Slotted (s.put p c i v n d) i)
    (hplace : ∀ k, c = .on k i → Place (s.put p c i v n d) p i k)
    (hothers : ∀ q ≠ p, ∀ k, s.pc q = .on k i → Place (s.put p c i v n d) q i k)
    (hres : ∀ q ≠ p, s.pc q = .iget v.ino → Reserved (s.put p c i v n d) v.ino) :
    Inv (s.put p c i v n d) := by
  -- the places at other slots
  have hpc : ∀ {q k j}, j ≠ i → ((s.put p c i v n d).pc q = .on k j ↔ s.pc q = .on k j) := by
    intro q k j hj
    by_cases hq : q = p
    · subst hq
      rw [State.put_pc]
      constructor
      · rintro rfl
        exact absurd hc hj
      · exact fun h => absurd (hat k j h) hj
    · rw [State.put_pc_ne hq]
  have hstale : ∀ {j}, j ≠ i → ((s.put p c i v n d).Stale j ↔ s.Stale j) := by
    intro j hj
    simp only [State.Stale, State.put_ip_ne hj, hpc hj]
  have hdrops : ∀ {c' : Pc}, (∀ k j, c' = .on k j → j = i) → ∀ {j}, j ≠ i → ¬c'.Drops j := by
    intro c' hc' j hj hd
    cases c' with
    | on k j' => exact hj (hd.1.symm.trans (hc' k j' rfl))
    | _ => exact hd
  have hnear : ∀ k j, c = .on k j → j = i := by
    rintro k j rfl
    exact hc
  have hdisk : ∀ {j}, j ≠ i → 0 < (s.ip j).ref →
      (s.put p c i v n d).disk (s.ip j).ino = s.disk (s.ip j).ino := fun hj href =>
    State.put_disk_ne (hone _ hj href)
  have higet : ∀ {q y}, (s.put p c i v n d).pc q = .iget y → q ≠ p ∧ s.pc q = .iget y := by
    intro q y hq
    by_cases hqp : q = p
    · rw [hqp, State.put_pc] at hq
      rw [hq] at hc
      exact hc.elim
    · exact ⟨hqp, (State.put_pc_ne hqp).symm.trans hq⟩
  refine ⟨fun j k hj hk hino => ?_, fun j => ?_, fun q j k hq => ?_, fun q y hq => ?_,
    fun q r y hq hr => ?_, fun q dev type inum hq => ?_⟩
  · by_cases hji : j = i
    · by_cases hki : k = i
      · rw [hji, hki]
      · rw [hji, State.put_ip] at hino
        rw [State.put_ip_ne hki] at hk hino
        exact absurd hino.symm (hone k hki hk)
    · rw [State.put_ip_ne hji] at hj hino
      by_cases hki : k = i
      · rw [hki, State.put_ip] at hino
        exact absurd hino (hone j hji hj)
      · rw [State.put_ip_ne hki] at hk hino
        exact hs.one j k hj hk hino
  · by_cases hj : j = i
    · rw [hj]
      exact hslot
    · have h := hs.slot j
      refine ⟨?_, fun q hq => ?_, fun hrefs => ?_, fun href hvalid hst => ?_⟩
      · have hsum := sum_drops s p c j
        rw [if_neg (hdrops hat hj), if_neg (hdrops hnear hj)] at hsum
        rw [State.put_ip_ne hj, State.put_refs_ne hj, h.count]
        exact congrArg _ hsum.symm
      · rw [State.put_ip_ne hj] at hq ⊢
        rw [State.put_refs_ne hj]
        exact (h.lock q hq).imp (fun ⟨k, hk⟩ => ⟨k, (hpc hj).mpr hk.1, hk.2⟩) id
      · rw [State.put_refs_ne hj] at hrefs
        rw [State.put_ip_ne hj, hdisk hj (hrefs.trans_le h.refs_le)]
        exact h.live hrefs
      · rw [State.put_ip_ne hj] at href hvalid ⊢
        rw [hstale hj] at hst
        rw [hdisk hj href]
        exact h.fresh href hvalid hst
  · by_cases hj : j = i
    · subst hj
      by_cases hqp : q = p
      · subst hqp
        rw [State.put_pc] at hq
        exact hplace k hq
      · rw [State.put_pc_ne hqp] at hq
        exact hothers q hqp k hq
    · rw [hpc hj] at hq
      have h := hs.place q j k hq
      have href := hs.ref_pos hq
      cases k with
      | iput7 => trivial
      | _ => simpa only [Place, State.put_ip_ne hj, State.put_refs_ne hj, hdisk hj href] using h
  · obtain ⟨hqp, hq⟩ := higet hq
    by_cases hy : y = v.ino
    · rw [hy] at hq ⊢
      exact hres q hqp hq
    · have h := hs.reserved q y hq
      have hne : ∀ {j}, (s.put p c i v n d).Holds j y → j ≠ i := by
        rintro j ⟨-, hino⟩ rfl
        rw [State.put_ip] at hino
        exact hy hino.symm
      have hholds : ∀ {j}, (s.put p c i v n d).Holds j y → s.Holds j y := by
        intro j hj
        rwa [State.Holds, State.put_ip_ne (hne hj)] at hj
      refine ⟨?_, ?_, fun j hj => ?_, fun j hj hvalid => ?_, fun j hj r k hr => ?_⟩
      · rw [State.put_disk_ne hy]
        exact h.type
      · rw [State.put_disk_ne hy]
        exact h.nlink
      · rw [State.put_refs_ne (hne hj)]
        exact h.refs j (hholds hj)
      · rw [State.put_ip_ne (hne hj)] at hvalid
        exact (hstale (hne hj)).mpr (h.stale j (hholds hj) hvalid)
      · exact h.pc j (hholds hj) r k ((hpc (hne hj)).mp hr)
  · exact hs.sole q r y (higet hq).2 (higet hr).2
  · by_cases hqp : q = p
    · rw [hqp, State.put_pc] at hq
      rw [hq] at hc
      exact hc.elim
    · rw [State.put_pc_ne hqp] at hq
      exact hs.typed q dev type inum hq

end Invariant

section Steps

variable [DecidableEq P] [Fintype P] {s s' : State P} {p q : P} {i j : Slot} {x y : Ino}
  {e : Event P} {c : Pc} {v : Inode P} {n r : ℕ} {d : Dinode} {k : Code}

omit [DecidableEq P] in
/-- A process that uses a slot has a reference. -/
theorem Inv.refs_pos (hs : Inv s) (h : s.Uses q i) : 0 < s.refs i := by
  rcases h with ⟨k, hk, hlocking⟩ | ⟨hlock, hput⟩
  · exact (hs.place q i k hk).refs hlocking
  · rcases (hs.slot i).lock q hlock with ⟨k, hk, hinside⟩ | ⟨hrefs, -⟩
    · exact (hs.place q i k hk).refs (hinside.resolve_right fun h => hput ⟨k, hk, h⟩).1
    · exact hrefs

omit [DecidableEq P] in
/-- The inode of a slot with references is known. -/
theorem Inv.not_reserved (hs : Inv s) (h : 0 < s.refs i) : ¬Reserved s (s.ip i).ino := fun hres =>
  absurd (hres.refs i ⟨h.trans_le (hs.slot i).refs_le, rfl⟩) (Nat.ne_of_gt h)

omit [DecidableEq P] in
/-- The inode of a slot that is put is known until it is freed. -/
theorem Inv.not_reserved_of_pc (hs : Inv s) (h : s.pc q = .on k i) (hk : k ≠ .iput5)
    (hk' : k ≠ .iput6) (hk'' : k ≠ .iput7) : ¬Reserved s (s.ip i).ino := fun hres => by
  rcases hres.pc i ⟨hs.ref_pos h, rfl⟩ q k h with h | h | h
  · exact hk h
  · exact hk' h
  · exact hk'' h

omit [Fintype P] in
/-- An inode that is reserved stays so while its old slot is given up. -/
theorem Reserved.put (h : Reserved s (s.ip i).ino) (href : 0 < (s.ip i).ref)
    (hat : ∀ k j, s.pc p = .on k j → j = i) (hino : v.ino = (s.ip i).ino)
    (hd : d = s.disk (s.ip i).ino)
    (hstale : v.valid = true → (s.put p c i v (s.refs i) d).Stale i)
    (hc : ∀ k j, c = .on k j → j = i ∧ (k = .iput5 ∨ k = .iput6 ∨ k = .iput7)) :
    Reserved (s.put p c i v (s.refs i) d) v.ino := by
  have hholds : ∀ {j}, j ≠ i → (s.put p c i v (s.refs i) d).Holds j v.ino →
      s.Holds j (s.ip i).ino := by
    intro j hj hh
    rwa [State.Holds, State.put_ip_ne hj, hino] at hh
  refine ⟨?_, ?_, fun j hj => ?_, fun j hj hvalid => ?_, fun j hj q k hq => ?_⟩
  · rw [State.put_disk, hd]
    exact h.type
  · rw [State.put_disk, hd]
    exact h.nlink
  · by_cases hji : j = i
    · rw [hji, State.put_refs]
      exact h.refs i ⟨href, rfl⟩
    · rw [State.put_refs_ne hji]
      exact h.refs j (hholds hji hj)
  · by_cases hji : j = i
    · subst hji
      rw [State.put_ip] at hvalid
      exact hstale hvalid
    · rw [State.put_ip_ne hji] at hvalid
      obtain ⟨q, hq, hpc⟩ := h.stale j (hholds hji hj) hvalid
      refine ⟨q, ?_, ?_⟩
      · rwa [State.put_ip_ne hji]
      · rw [State.put_pc_ne]
        · exact hpc
        · rintro rfl
          exact hji (hat _ _ hpc)
  · by_cases hqp : q = p
    · rw [hqp, State.put_pc] at hq
      exact (hc k j hq).2
    · rw [State.put_pc_ne hqp] at hq
      by_cases hji : j = i
      · rw [hji] at hq
        exact h.pc i ⟨href, rfl⟩ q k hq
      · exact h.pc j (hholds hji hj) q k hq

/-- **A step that changes how often a slot is referred to.** -/
theorem Inv.put_count (hs : Inv s) (href : 0 < (s.ip i).ref)
    (hat : ∀ k j, s.pc p = .on k j → j = i ∧ ¬k.Inside) (hc : c.Near i)
    (hcount : r + s.refs i + (if (s.pc p).Drops i then 1 else 0) =
      (s.ip i).ref + n + if c.Drops i then 1 else 0)
    (hlive : 0 < n → (s.disk (s.ip i).ino).type ≠ 0) (huses : ∀ q, s.Uses q i → 0 < n)
    (hfree : ∀ q ≠ p, s.pc q ≠ .on .iput3 i ∧ s.pc q ≠ .on .iput4 i)
    (hplace : ∀ k, c = .on k i → (k = .ilock0 ∧ 0 < n) ∨
      (k = .iput0 ∧ (s.disk (s.ip i).ino).type ≠ 0) ∨ k = .iput7)
    (hres : ∀ q ≠ p, s.pc q = .iget (s.ip i).ino →
      Reserved (s.put p c i { s.ip i with ref := r } n (s.disk (s.ip i).ino)) (s.ip i).ino) :
    Inv (s.put p c i { s.ip i with ref := r } n (s.disk (s.ip i).ino)) := by
  have hdisk : (s.put p c i { s.ip i with ref := r } n (s.disk (s.ip i).ino)).disk
      (s.ip i).ino = s.disk (s.ip i).ino := State.put_disk
  have h := hs.slot i
  refine hs.put (fun k j hk => (hat k j hk).1) hc
    (fun j hj hrefj hino => hj (hs.one j i hrefj href hino)) ?_ (fun k hk => ?_)
    (fun q hq k hk => ?_) hres
  · refine ⟨?_, fun q hq => ?_, fun hn => ?_, fun hr hvalid hst => ?_⟩
    · have hsum := sum_drops s p c i
      have hold := h.count
      rw [State.put_ip, State.put_refs]
      change r = n + ∑ q, if ((Function.update s.pc p c) q).Drops i then 1 else 0
      omega
    · rw [State.put_ip] at hq ⊢
      rw [State.put_refs]
      rcases h.lock q hq with ⟨k, hk, hinside⟩ | ⟨-, hvalid⟩
      · refine .inl ⟨k, ?_, hinside⟩
        rw [State.put_pc_ne]
        · exact hk
        · rintro rfl
          exact (hat k i hk).2 hinside
      · by_cases hput : ∃ k, s.pc q = .on k i ∧ k.Putting
        · obtain ⟨k, hk, hputting⟩ := hput
          refine .inl ⟨k, ?_, .inr hputting⟩
          rw [State.put_pc_ne]
          · exact hk
          · rintro rfl
            exact (hat k i hk).2 (.inr hputting)
        · exact .inr ⟨huses q (.inr ⟨hq, hput⟩), hvalid⟩
    · rw [State.put_refs] at hn
      rw [State.put_ip, hdisk]
      exact hlive hn
    · rw [State.put_ip] at hvalid ⊢
      rw [hdisk]
      refine h.fresh href hvalid fun ⟨q, hq, hpc⟩ => hst ⟨q, ?_, ?_⟩
      · rw [State.put_ip]
        exact hq
      · rw [State.put_pc_ne]
        · exact hpc
        · rintro rfl
          exact (hat _ i hpc).2 (.inr trivial)
  · rcases hplace k hk with ⟨rfl, hn⟩ | ⟨rfl, htype⟩ | rfl
    · rw [Place, State.put_refs]
      exact hn
    · rw [Place, State.put_ip, hdisk]
      exact htype
    · trivial
  · have hold := hs.place q i k hk
    have hn : k.Locking → 0 < n := fun hk' => huses q (.inl ⟨k, hk, hk'⟩)
    obtain ⟨h₃, h₄⟩ := hfree q hq
    cases k with
    | iput3 => exact absurd hk h₃
    | iput4 => exact absurd hk h₄
    | iput7 => trivial
    | ilock0 => simpa only [Place, State.put_refs] using hn trivial
    | ilock1 => simpa only [Place, State.put_ip, State.put_refs] using ⟨hold.1, hn trivial⟩
    | ilock2 | ilock3 | iunlock0 =>
      simpa only [Place, State.put_ip, State.put_refs, hdisk] using ⟨hold.1, hn trivial, hold.2.2⟩
    | _ => simpa only [Place, State.put_ip, State.put_refs, hdisk] using hold

/-- **A step of the process that has the lock of a slot, or takes it.** -/
theorem Inv.put_lock (hs : Inv s) (href : 0 < (s.ip i).ref)
    (hlock : ∀ q ≠ p, (s.ip i).lock ≠ some q) (hat : ∀ k j, s.pc p = .on k j → j = i)
    (hc : c.Near i) (hino : v.ino = (s.ip i).ino) (hvref : v.ref = (s.ip i).ref)
    (hdrops : (s.pc p).Drops i ↔ c.Drops i)
    (htype : (s.disk (s.ip i).ino).type ≠ 0 → d.type ≠ 0)
    (hown : v.lock = none ∨ (v.lock = some p ∧
      ((∃ k, c = .on k i ∧ k.Inside) ∨ (0 < s.refs i ∧ v.valid = true))))
    (hfresh : v.valid = true → (v.lock = some p → c ≠ .on .iput5 i) →
      v.copy.type ≠ 0 ∧ d.type ≠ 0 ∧ (v.lock = none → v.copy = d))
    (hplace : ∀ k, c = .on k i → Place (s.put p c i v (s.refs i) d) p i k)
    (hres : Reserved s v.ino → Reserved (s.put p c i v (s.refs i) d) v.ino) :
    Inv (s.put p c i v (s.refs i) d) := by
  have h := hs.slot i
  refine hs.put hat hc (fun j hj hrefj hji => hj (hs.one j i hrefj href (hji.trans hino))) ?_
    hplace (fun q hq k hk => ?_) fun q hq hpc => hres (hs.reserved q _ hpc)
  · refine ⟨?_, fun q hq => ?_, fun hn => ?_, fun hr hvalid hst => ?_⟩
    · have hsum := sum_drops s p c i
      have hold := h.count
      have hif : (if (s.pc p).Drops i then 1 else 0) = if c.Drops i then 1 else 0 := by
        by_cases hd : c.Drops i
        · rw [if_pos hd, if_pos (hdrops.mpr hd)]
        · rw [if_neg hd, if_neg fun hp => hd (hdrops.mp hp)]
      rw [State.put_ip, State.put_refs, hvref]
      change _ = _ + ∑ q, if ((Function.update s.pc p c) q).Drops i then 1 else 0
      omega
    · rw [State.put_ip] at hq ⊢
      rw [State.put_refs]
      rcases hown with hown | ⟨hown, hin⟩
      · rw [hown] at hq
        cases hq
      · rw [hown, Option.some.injEq] at hq
        rw [← hq, State.put_pc]
        exact hin
    · rw [State.put_refs] at hn
      rw [State.put_ip, State.put_disk]
      exact htype (h.live hn)
    · rw [State.put_ip] at hvalid ⊢
      rw [State.put_disk]
      refine hfresh hvalid fun hp hcp => hst ⟨p, ?_, ?_⟩
      · rw [State.put_ip]
        exact hp
      · rw [State.put_pc]
        exact hcp
  · have hold := hs.place q i k hk
    have hk' := hs.outside (hlock q hq) hk
    rcases hk' with rfl | rfl | rfl
    · rw [Place, State.put_refs]
      exact hold
    · rw [Place, State.put_ip, State.put_disk]
      exact htype hold
    · trivial

end Steps

/-! ### The store -/

section StoreSteps

variable [DecidableEq P] [Fintype P] {s s' : State P} {p q : P} {i j : Slot} {x y : Ino}
  {e : Event P} {c : Pc} {v : Inode P} {n r : ℕ} {d w : Dinode} {k : Code}

omit [DecidableEq P] in
theorem Inv.inode_of_holds (hs : Inv s) (h : s.Holds i x) : s.inode x = s.content i := by
  rw [State.inode]
  cases hfind : Table.find fun i => s.Holds i x with
  | none =>
    have hnone := Table.find_eq_none.mp hfind i
    exact absurd h (of_decide_eq_false hnone)
  | some j =>
    have hj : s.Holds j x := of_decide_eq_true (Table.find_spec hfind)
    rw [hs.one i j h.1 hj.1 (h.2.trans hj.2.symm)]

omit [DecidableEq P] [Fintype P] in
theorem inode_of_not_holds (h : ∀ i, ¬s.Holds i x) : s.inode x = s.disk x := by
  rw [State.inode, Table.find_eq_none.mpr fun i => decide_eq_false (h i)]

/-- The inodes after a change of one slot. -/
theorem Inv.inode_put (hs : Inv s) (hs' : Inv (s.put p c i v n d))
    (hat : ∀ k j, s.pc p = .on k j → j = i) (hc : c.Near i)
    (hone : ∀ j ≠ i, 0 < (s.ip j).ref → (s.ip j).ino ≠ v.ino)
    (hold : (s.ip i).ino = v.ino ∨ (s.ip i).ref = 0)
    (hw : w = if 0 < v.ref then (s.put p c i v n d).content i else d) :
    (s.put p c i v n d).inode = Function.update s.inode v.ino w := by
  have hstale : ∀ {j}, j ≠ i → ((s.put p c i v n d).Stale j ↔ s.Stale j) := by
    intro j hj
    have hpc : ∀ q, (s.put p c i v n d).pc q = .on .iput5 j ↔ s.pc q = .on .iput5 j := by
      intro q
      by_cases hq : q = p
      · rw [hq, State.put_pc]
        constructor
        · rintro rfl
          exact absurd hc hj
        · exact fun h => absurd (hat _ j h) hj
      · rw [State.put_pc_ne hq]
    simp only [State.Stale, State.put_ip_ne hj, hpc]
  funext y
  by_cases hy : y = v.ino
  · rw [hy, Function.update_self, hw]
    split
    · next href =>
      refine hs'.inode_of_holds ⟨?_, ?_⟩
      · rwa [State.put_ip]
      · rw [State.put_ip]
    · next href =>
      rw [inode_of_not_holds, State.put_disk]
      rintro j ⟨hrefj, hinoj⟩
      by_cases hj : j = i
      · rw [hj, State.put_ip] at hrefj
        exact href hrefj
      · rw [State.put_ip_ne hj] at hrefj hinoj
        exact hone j hj hrefj hinoj
  · rw [Function.update_of_ne hy]
    have hne : ∀ {j}, (s.put p c i v n d).Holds j y → j ≠ i := by
      rintro j ⟨-, hino⟩ rfl
      rw [State.put_ip] at hino
      exact hy hino.symm
    have hne' : ∀ {j}, s.Holds j y → j ≠ i := by
      rintro j ⟨href, hino⟩ rfl
      rcases hold with hold | hold
      · exact hy (hino.symm.trans hold)
      · omega
    by_cases hj : ∃ j, s.Holds j y
    · obtain ⟨j, hj⟩ := hj
      have hji := hne' hj
      have hj' : (s.put p c i v n d).Holds j y := by rwa [State.Holds, State.put_ip_ne hji]
      rw [hs.inode_of_holds hj, hs'.inode_of_holds hj', State.content, State.content,
        State.put_ip_ne hji, State.put_disk_ne (by rw [hj.2]; exact hy)]
      simp only [hstale hji]
    · rw [inode_of_not_holds fun j hh => hj ⟨j, hh⟩, inode_of_not_holds, State.put_disk_ne hy]
      intro j hh
      refine hj ⟨j, ?_⟩
      rwa [State.Holds, State.put_ip_ne (hne hh)] at hh

/-- The store after a change of one slot. -/
theorem Inv.store_put (hs : Inv s) (hs' : Inv (s.put p c i v n d))
    (hat : ∀ k j, s.pc p = .on k j → j = i) (hc : c.Near i)
    (hone : ∀ j ≠ i, 0 < (s.ip j).ref → (s.ip j).ino ≠ v.ino)
    (hold : (s.ip i).ino = v.ino ∨ (s.ip i).ref = 0)
    (hw : w = if 0 < v.ref then (s.put p c i v n d).content i else d) :
    (s.put p c i v n d).store =
      ⟨Function.update s.inode v.ino w, Function.update s.store.ino i v.ino,
        Function.update s.refs i n, Function.update s.store.owner i v.lock⟩ := by
  rw [State.store, hs.inode_put hs' hat hc hone hold hw]
  refine Store.mk.injEq .. ▸ ⟨rfl, ?_, rfl, ?_⟩
  · funext j
    by_cases hj : j = i
    · rw [hj, State.put_ip, Function.update_self]
    · rw [State.put_ip_ne hj, Function.update_of_ne hj]
      rfl
  · funext j
    by_cases hj : j = i
    · rw [hj, State.put_ip, Function.update_self]
    · rw [State.put_ip_ne hj, Function.update_of_ne hj]
      rfl

end StoreSteps

section Statements

variable [DecidableEq P] [Fintype P] {s s' : State P} {p q : P} {i j : Slot} {x y : Ino}
  {e : Event P} {c : Pc} {v : Inode P} {n r : ℕ} {d w : Dinode} {k : Code} {a : Action P}

omit [Fintype P] [DecidableEq P] in
@[simp] theorem Store.put_self (t : Store P) (x : Ino) : t.put x (t.inode x) = t := by
  rw [Store.put, Function.update_eq_self]

omit [Fintype P] [DecidableEq P] in
@[simp] theorem Store.own_self (t : Store P) (i : Slot) : t.own i (t.owner i) = t := by
  rw [Store.own, Function.update_eq_self]

omit [DecidableEq P] in
theorem Inv.inode_slot (hs : Inv s) (href : 0 < (s.ip i).ref) :
    s.inode (s.ip i).ino = s.content i := hs.inode_of_holds ⟨href, rfl⟩

omit [Fintype P] [DecidableEq P] in
theorem content_of_not_stale (h : ¬s.Stale i) :
    s.content i = if (s.ip i).valid then (s.ip i).copy else s.disk (s.ip i).ino := by
  simp only [State.content, h, not_false_eq_true, and_true]

omit [Fintype P] [DecidableEq P] in
theorem content_of_not_valid (h : (s.ip i).valid = false) :
    s.content i = s.disk (s.ip i).ino := by
  simp [State.content, h]

omit [Fintype P] [DecidableEq P] in
/-- Only the process with the lock gives up an inode. -/
theorem not_stale (h : ∀ q, (s.ip i).lock = some q → s.pc q ≠ .on .iput5 i) : ¬s.Stale i :=
  fun ⟨q, hq, hpc⟩ => h q hq hpc

/-- What a step under the lock does to the store. -/
theorem Inv.store_lock (hs : Inv s) (hs' : Inv (s.put p c i v (s.refs i) d))
    (href : 0 < (s.ip i).ref) (hat : ∀ k j, s.pc p = .on k j → j = i) (hc : c.Near i)
    (hino : v.ino = (s.ip i).ino) (hvref : v.ref = (s.ip i).ref)
    (hown : v.lock = none ∨ v.lock = some p) :
    (s.put p c i v (s.refs i) d).store = (s.store.put (s.ip i).ino
      (if v.valid = true ∧ (v.lock = some p → c ≠ .on .iput5 i) then v.copy else d)).own i
        v.lock := by
  have hone : ∀ j ≠ i, 0 < (s.ip j).ref → (s.ip j).ino ≠ v.ino := fun j hj hrefj h =>
    hj (hs.one j i hrefj href (h.trans hino))
  have hstale : ¬(s.put p c i v (s.refs i) d).Stale i ↔ (v.lock = some p → c ≠ .on .iput5 i) := by
    rw [State.Stale, State.put_ip]
    rcases hown with hown | hown
    · simp [hown]
    · simp [hown]
  have hw : (if v.valid = true ∧ (v.lock = some p → c ≠ .on .iput5 i) then v.copy else d) =
      if 0 < v.ref then (s.put p c i v (s.refs i) d).content i else d := by
    have hpos : 0 < v.ref := by rwa [hvref]
    conv_rhs => rw [if_pos hpos]
    simp only [State.content, State.put_ip, State.put_disk, hstale]
  rw [hs.store_put hs' hat hc hone (.inl hino.symm) hw, hino]
  change _ = Store.mk _ _ _ _
  rw [Store.mk.injEq]
  exact ⟨rfl, Function.update_eq_self _ _, Function.update_eq_self _ _, rfl⟩

/-- A step under the lock that the store does not show. -/
theorem Inv.store_lock_same (hs : Inv s) (hs' : Inv (s.put p c i v (s.refs i) d))
    (href : 0 < (s.ip i).ref) (hat : ∀ k j, s.pc p = .on k j → j = i) (hc : c.Near i)
    (hino : v.ino = (s.ip i).ino) (hvref : v.ref = (s.ip i).ref)
    (hlock : (s.ip i).lock = some p) (hvlock : v.lock = some p)
    (hw : (if v.valid = true ∧ c ≠ .on .iput5 i then v.copy else d) = s.content i) :
    (s.put p c i v (s.refs i) d).store = s.store := by
  rw [hs.store_lock hs' href hat hc hino hvref (.inr hvlock), hvlock, ← hlock]
  simp only [true_imp_iff, hw, ← hs.inode_slot href]
  exact (congrArg (Store.own · i _) (Store.put_self s.store _)).trans (Store.own_self s.store i)

/-- A step that gives up a lock. -/
theorem Inv.store_unlock (hs : Inv s) (hs' : Inv (s.put p c i v (s.refs i) d))
    (href : 0 < (s.ip i).ref) (hat : ∀ k j, s.pc p = .on k j → j = i) (hc : c.Near i)
    (hino : v.ino = (s.ip i).ino) (hvref : v.ref = (s.ip i).ref) (hvlock : v.lock = none)
    (hw : (if v.valid = true then v.copy else d) = s.content i) :
    (s.put p c i v (s.refs i) d).store = s.store.own i none := by
  rw [hs.store_lock hs' href hat hc hino hvref (.inl hvlock), hvlock]
  simp only [reduceCtorEq, false_imp_iff, and_true, hw, ← hs.inode_slot href]
  exact congrArg (Store.own · i none) (Store.put_self s.store _)

/-- What a step that changes how often a slot is referred to does to the store. -/
theorem Inv.store_count (hs : Inv s)
    (hs' : Inv (s.put p c i { s.ip i with ref := r } n (s.disk (s.ip i).ino)))
    (href : 0 < (s.ip i).ref) (hat : ∀ k j, s.pc p = .on k j → j = i ∧ ¬k.Inside) (hc : c.Near i)
    (hck : ∀ k, c = .on k i → ¬k.Inside)
    (hgone : r = 0 → s.content i = s.disk (s.ip i).ino) :
    (s.put p c i { s.ip i with ref := r } n (s.disk (s.ip i).ino)).store =
      { s.store with refs := Function.update s.refs i n } := by
  have hone : ∀ j ≠ i, 0 < (s.ip j).ref → (s.ip j).ino ≠ (s.ip i).ino := fun j hj hrefj h =>
    hj (hs.one j i hrefj href h)
  have hdisk : (s.put p c i { s.ip i with ref := r } n (s.disk (s.ip i).ino)).disk
      (s.ip i).ino = s.disk (s.ip i).ino := State.put_disk
  have hpc : ∀ q, (s.put p c i { s.ip i with ref := r } n (s.disk (s.ip i).ino)).pc q =
      .on .iput5 i ↔ s.pc q = .on .iput5 i := by
    intro q
    have hinside : Code.iput5.Inside := .inr trivial
    by_cases hq : q = p
    · rw [hq, State.put_pc]
      exact ⟨fun h => absurd hinside (hck _ h), fun h => absurd hinside (hat _ i h).2⟩
    · rw [State.put_pc_ne hq]
  have hw : s.content i =
      if 0 < r then (s.put p c i { s.ip i with ref := r } n (s.disk (s.ip i).ino)).content i
      else s.disk (s.ip i).ino := by
    split
    · have hstale : (s.put p c i { s.ip i with ref := r } n (s.disk (s.ip i).ino)).Stale i ↔
          s.Stale i := by
        simp only [State.Stale, State.put_ip, hpc]
      rw [State.content, State.content, State.put_ip, hdisk]
      simp only [hstale]
    · next hr => exact hgone (Nat.eq_zero_of_not_pos hr)
  rw [hs.store_put hs' (fun k j hk => (hat k j hk).1) hc hone (.inl rfl) hw, ← hs.inode_slot href]
  rw [State.store, Store.mk.injEq]
  exact ⟨Function.update_eq_self _ _, Function.update_eq_self _ _, rfl,
    Function.update_eq_self _ _⟩

end Statements

section Locked

variable [DecidableEq P] [Fintype P] {s s' : State P} {p q : P} {i j : Slot} {x y : Ino}
  {e : Event P} {c : Pc} {v : Inode P} {n r : ℕ} {d w : Dinode} {k : Code} {a : Action P}

omit [Fintype P] [DecidableEq P] in
theorem Pc.drops_on : (Pc.on k i).Drops i ↔ k.Drops := and_iff_right rfl

omit [Fintype P] [DecidableEq P] in
theorem State.store_inode : s.store.inode = s.inode := rfl

omit [Fintype P] in
theorem place_goto (h : Place s q i k) : Place (s.goto p c) q i k := by
  cases k <;> exact h

omit [Fintype P] [DecidableEq P] in
theorem ne_of_lock (h : (s.ip i).lock = some p) : ∀ q ≠ p, (s.ip i).lock ≠ some q :=
  fun _ hq hlock => hq (Option.some.inj (hlock.symm.trans h))

omit [Fintype P] [DecidableEq P] in
theorem not_stale_of_pc (h : (s.ip i).lock = some p) (hpc : s.pc p ≠ .on .iput5 i) : ¬s.Stale i :=
  not_stale fun q hq => by
    rw [h, Option.some.injEq] at hq
    rwa [← hq]

/-- A step under the lock of a slot that changes nothing else. -/
theorem Inv.goto_lock (hs : Inv s) (href : 0 < (s.ip i).ref) (hlock : (s.ip i).lock = some p)
    (hat : ∀ k j, s.pc p = .on k j → j = i ∧ k ≠ .iput5) (hc : c.Near i) (hc5 : c ≠ .on .iput5 i)
    (hdrops : (s.pc p).Drops i ↔ c.Drops i)
    (hown : (∃ k, c = .on k i ∧ k.Inside) ∨ (0 < s.refs i ∧ (s.ip i).valid = true))
    (hplace : ∀ k, c = .on k i → Place s p i k) (hres : ¬Reserved s (s.ip i).ino) :
    Inv (s.goto p c) ∧ (s.goto p c).store = s.store := by
  have hst : ¬s.Stale i := not_stale_of_pc hlock fun h => (hat _ i h).2 rfl
  have hat' : ∀ k j, s.pc p = .on k j → j = i := fun k j h => (hat k j h).1
  have hput := goto_eq_put s p i c
  have hinv : Inv (s.put p c i (s.ip i) (s.refs i) (s.disk (s.ip i).ino)) := by
    refine hs.put_lock href (ne_of_lock hlock) hat' hc rfl rfl hdrops id (.inr ⟨hlock, hown⟩)
      (fun hvalid _ => (hs.slot i).fresh href hvalid hst) (fun k hk => ?_) fun h => absurd h hres
    rw [← hput]
    exact place_goto (hplace k hk)
  rw [hput]
  refine ⟨hinv, hs.store_lock_same hinv href hat' hc rfl rfl hlock hlock ?_⟩
  simp only [content_of_not_stale hst, hc5, ne_eq, not_false_eq_true, and_true]

/-- `acquiresleep(&ip->lock)` -/
theorem inv_acquiresleep (hs : Inv s) {k' : Code} (hk : s.pc p = .on k i)
    (hkk : (k = .ilock0 ∧ k' = .ilock1) ∨ (k = .iput0 ∧ k' = .iput1))
    (h : acquiresleep s p i k' = some (s', e)) : Inv s' ∧ Store.Step s.store a s'.store e := by
  rw [acquiresleep] at h
  split at h
  · next hlock =>
    cases h
    have href := hs.ref_pos hk
    have hst : ¬s.Stale i := not_stale fun q hq => by
      rw [hlock] at hq
      cases hq
    have hinside : k'.Inside := by
      rcases hkk with ⟨-, rfl⟩ | ⟨-, rfl⟩
      · exact .inl ⟨trivial, by decide⟩
      · exact .inr trivial
    have hat : ∀ k j, s.pc p = .on k j → j = i := fun k j hj => by
      rw [hk] at hj
      cases hj
      rfl
    have hk5 : Pc.on k' i ≠ .on .iput5 i := by
      rcases hkk with ⟨-, rfl⟩ | ⟨-, rfl⟩ <;> exact fun h => by cases h
    have hfresh := (hs.slot i).fresh href
    rw [set_eq_put]
    have hinv : Inv (s.put p (.on k' i) i { s.ip i with lock := some p } (s.refs i)
        (s.disk (s.ip i).ino)) := by
      refine hs.put_lock href (fun q _ hq => by rw [hlock] at hq; cases hq) hat rfl rfl rfl ?_ id
        (.inr ⟨rfl, .inl ⟨k', rfl, hinside⟩⟩) (fun hvalid _ => ?_) (fun k'' hk'' => ?_)
        fun hres => ?_
      · rw [hk]
        rcases hkk with ⟨rfl, rfl⟩ | ⟨rfl, rfl⟩
        · exact Pc.drops_on.trans (Iff.trans (by decide) Pc.drops_on.symm)
        · exact Pc.drops_on.trans (Iff.trans (by decide) Pc.drops_on.symm)
      · obtain ⟨hcopy, hdisk, -⟩ := hfresh hvalid hst
        exact ⟨hcopy, hdisk, fun h => by cases h⟩
      · cases hk''
        have hplace := hs.place p i k hk
        rcases hkk with ⟨rfl, rfl⟩ | ⟨rfl, rfl⟩
        · simpa only [Place, State.put_ip, State.put_refs, true_and] using hplace
        · have hd : (s.put p (.on .iput1 i) i { s.ip i with lock := some p } (s.refs i)
              (s.disk (s.ip i).ino)).disk (s.ip i).ino = s.disk (s.ip i).ino := State.put_disk
          simp only [Place, State.put_ip, hd, true_and]
          exact ⟨hplace, fun hvalid => (hfresh hvalid hst).2.2 hlock⟩
      · rcases hkk with ⟨rfl, -⟩ | ⟨rfl, -⟩
        · exact absurd hres (hs.not_reserved_of_pc hk (by decide) (by decide) (by decide))
        · exact absurd hres (hs.not_reserved_of_pc hk (by decide) (by decide) (by decide))
    refine ⟨hinv, ?_⟩
    have hw : (if (s.ip i).valid = true ∧ (some p = some p → Pc.on k' i ≠ .on .iput5 i) then
        (s.ip i).copy else s.disk (s.ip i).ino) = s.store.inode (s.ip i).ino := by
      rw [State.store_inode, hs.inode_slot href, content_of_not_stale hst]
      simp only [hk5, ne_eq, not_false_eq_true, implies_true, and_true]
    rw [hs.store_lock hinv href hat rfl rfl rfl (.inr rfl), hw, Store.put_self]
    exact .locked hlock
  · contradiction

end Locked

section Code

variable [DecidableEq P] [Fintype P] {s s' : State P} {p q : P} {i j : Slot} {e : Event P}
  {k : Code} {a : Action P}

omit [Fintype P] [DecidableEq P] in
theorem at_of_pc (hk : s.pc p = .on k i) : ∀ k' j, s.pc p = .on k' j → j = i := fun k' j h => by
  rw [hk] at h
  cases h
  rfl

omit [Fintype P] [DecidableEq P] in
theorem at_of_pc_ne (hk : s.pc p = .on k i) (hne : k ≠ .iput5) :
    ∀ k' j, s.pc p = .on k' j → j = i ∧ k' ≠ .iput5 := fun k' j h => by
  rw [hk] at h
  cases h
  exact ⟨rfl, hne⟩

omit [Fintype P] [DecidableEq P] in
theorem drops_same {k' : Code} (hk : s.pc p = .on k i) (h : k.Drops ↔ k'.Drops) :
    (s.pc p).Drops i ↔ (Pc.on k' i).Drops i := by
  rw [hk, Pc.drops_on, Pc.drops_on]
  exact h

omit [Fintype P] [DecidableEq P] in
theorem drops_user (hk : s.pc p = .on k i) (h : ¬k.Drops) :
    (s.pc p).Drops i ↔ Pc.user.Drops i := by
  rw [hk, Pc.drops_on]
  exact iff_of_false h id

theorem inv_ilock1 (hs : Inv s) (hk : s.pc p = .on .ilock1 i)
    (h : statement s p i .ilock1 = some (s', e)) : Inv s' ∧ Store.Step s.store a s'.store e := by
  obtain ⟨hlock, hrefs⟩ : (s.ip i).lock = some p ∧ 0 < s.refs i := hs.place p i _ hk
  have href := hs.ref_pos hk
  have hst : ¬s.Stale i := not_stale_of_pc hlock fun h => by
    rw [hk] at h
    cases h
  rw [statement] at h
  split at h
  · next hvalid =>
    cases h
    obtain ⟨hinv, hstore⟩ := hs.goto_lock (c := .user) href hlock (at_of_pc_ne hk (by decide))
      trivial (fun h => by cases h) (drops_user hk (by decide)) (.inr ⟨hrefs, hvalid⟩)
      (fun k h => by cases h) (hs.not_reserved hrefs)
    have hcopy : s.store.inode (s.store.ino i) = (s.ip i).copy := by
      refine (hs.inode_slot href).trans ?_
      rw [content_of_not_stale hst, if_pos hvalid]
    have hload : Store.Step s.store a s.store (.loaded p i (s.store.inode (s.store.ino i))) := by
      refine .loaded hlock hrefs ?_
      rw [hcopy]
      exact ((hs.slot i).fresh href hvalid hst).1
    rw [hcopy] at hload
    rw [hstore]
    exact ⟨hinv, hload⟩
  · next hvalid =>
    cases h
    obtain ⟨hinv, hstore⟩ := hs.goto_lock (c := .on .ilock2 i) href hlock
      (at_of_pc_ne hk (by decide)) rfl (fun h => by cases h) (drops_same hk (by decide))
      (.inl ⟨_, rfl, .inl ⟨trivial, by decide⟩⟩)
      (fun k h => by cases h; exact ⟨hlock, hrefs, Bool.eq_false_iff.mpr hvalid⟩)
      (hs.not_reserved hrefs)
    rw [hstore]
    exact ⟨hinv, .quiet⟩

theorem inv_ilock2 (hs : Inv s) (hk : s.pc p = .on .ilock2 i)
    (h : statement s p i .ilock2 = some (s', e)) : Inv s' ∧ Store.Step s.store a s'.store e := by
  obtain ⟨hlock, hrefs, hvalid⟩ : (s.ip i).lock = some p ∧ 0 < s.refs i ∧
    (s.ip i).valid = false := hs.place p i _ hk
  have href := hs.ref_pos hk
  rw [statement, set_eq_put] at h
  cases h
  have hinv : Inv (s.put p (.on .ilock3 i) i { s.ip i with copy := s.disk (s.ip i).ino } (s.refs i)
      (s.disk (s.ip i).ino)) := by
    refine hs.put_lock href (ne_of_lock hlock) (at_of_pc hk) rfl rfl rfl
      (drops_same hk (by decide)) id (.inr ⟨hlock, .inl ⟨_, rfl, .inl ⟨trivial, by decide⟩⟩⟩)
      (fun hv => ?_) (fun k h => ?_) fun h => absurd h (hs.not_reserved hrefs)
    · rw [hvalid] at hv
      cases hv
    · cases h
      rw [Place, State.put_ip, State.put_refs, State.put_disk]
      exact ⟨hlock, hrefs, hvalid, rfl⟩
  refine ⟨hinv, ?_⟩
  rw [hs.store_lock_same hinv href (at_of_pc hk) rfl rfl rfl hlock hlock
    (by simp [hvalid, content_of_not_valid])]
  exact .quiet

theorem inv_ilock3 (hs : Inv s) (hk : s.pc p = .on .ilock3 i)
    (h : statement s p i .ilock3 = some (s', e)) : Inv s' ∧ Store.Step s.store a s'.store e := by
  obtain ⟨hlock, hrefs, hvalid, hcopy⟩ : (s.ip i).lock = some p ∧ 0 < s.refs i ∧
    (s.ip i).valid = false ∧ (s.ip i).copy = s.disk (s.ip i).ino := hs.place p i _ hk
  have href := hs.ref_pos hk
  have htype := (hs.slot i).live hrefs
  rw [statement] at h
  dsimp only at h
  split at h
  · next hzero =>
    rw [hcopy] at hzero
    exact absurd hzero htype
  cases h
  rw [set_eq_put]
  have hinv : Inv (s.put p .user i { s.ip i with valid := true } (s.refs i)
      (s.disk (s.ip i).ino)) := by
    refine hs.put_lock href (ne_of_lock hlock) (at_of_pc hk) trivial rfl rfl
      (drops_user hk (by decide)) id (.inr ⟨hlock, .inr ⟨hrefs, rfl⟩⟩)
      (fun _ _ => ⟨?_, htype, fun _ => hcopy⟩) (fun k h => by cases h)
      fun h => absurd h (hs.not_reserved hrefs)
    rw [hcopy]
    exact htype
  refine ⟨hinv, ?_⟩
  have hinode : s.store.inode (s.store.ino i) = (s.ip i).copy := by
    refine (hs.inode_slot href).trans ?_
    rw [content_of_not_valid hvalid, hcopy]
  have hload : Store.Step s.store a s.store (.loaded p i (s.store.inode (s.store.ino i))) := by
    refine .loaded hlock hrefs ?_
    rw [hinode, hcopy]
    exact htype
  rw [hinode] at hload
  rw [hs.store_lock_same hinv href (at_of_pc hk) trivial rfl rfl hlock hlock
    (by simp [hcopy, content_of_not_valid hvalid])]
  exact hload

theorem inv_iunlock0 (hs : Inv s) (hk : s.pc p = .on .iunlock0 i)
    (h : statement s p i .iunlock0 = some (s', e)) : Inv s' ∧ Store.Step s.store a s'.store e := by
  obtain ⟨hlock, hrefs, hvalid, hcopy⟩ : (s.ip i).lock = some p ∧ 0 < s.refs i ∧
    (s.ip i).valid = true ∧ (s.ip i).copy = s.disk (s.ip i).ino := hs.place p i _ hk
  have href := hs.ref_pos hk
  have hst : ¬s.Stale i := not_stale_of_pc hlock fun h => by
    rw [hk] at h
    cases h
  rw [statement, set_eq_put] at h
  cases h
  have hinv : Inv (s.put p .user i { s.ip i with lock := none } (s.refs i)
      (s.disk (s.ip i).ino)) := by
    obtain ⟨htype, hdisk, -⟩ := (hs.slot i).fresh href hvalid hst
    exact hs.put_lock href (ne_of_lock hlock) (at_of_pc hk) trivial rfl rfl
      (drops_user hk (by decide)) id (.inl rfl) (fun _ _ => ⟨htype, hdisk, fun _ => hcopy⟩)
      (fun k h => by cases h) fun h => absurd h (hs.not_reserved hrefs)
  refine ⟨hinv, ?_⟩
  rw [hs.store_unlock hinv href (at_of_pc hk) trivial rfl rfl rfl
    (by simp [hvalid, content_of_not_stale hst])]
  exact .unlocked hlock

theorem inv_iput1 (hs : Inv s) (hk : s.pc p = .on .iput1 i)
    (h : statement s p i .iput1 = some (s', e)) : Inv s' ∧ Store.Step s.store a s'.store e := by
  obtain ⟨hlock, htype, hclean⟩ : (s.ip i).lock = some p ∧ (s.disk (s.ip i).ino).type ≠ 0 ∧
    ((s.ip i).valid = true → (s.ip i).copy = s.disk (s.ip i).ino) := hs.place p i _ hk
  have hres := hs.not_reserved_of_pc hk (by decide) (by decide) (by decide)
  rw [statement] at h
  split at h
  · next hfree =>
    cases h
    obtain ⟨hinv, hstore⟩ := hs.goto_lock (c := .on .iput2 i) (hs.ref_pos hk) hlock
      (at_of_pc_ne hk (by decide)) rfl (fun h => by cases h) (drops_same hk (by decide))
      (.inl ⟨_, rfl, .inr trivial⟩)
      (fun k h => by cases h; exact ⟨hlock, htype, hfree.1, hclean hfree.1, hfree.2⟩) hres
    rw [hstore]
    exact ⟨hinv, .quiet⟩
  · cases h
    obtain ⟨hinv, hstore⟩ := hs.goto_lock (c := .on .iput6 i) (hs.ref_pos hk) hlock
      (at_of_pc_ne hk (by decide)) rfl (fun h => by cases h) (drops_same hk (by decide))
      (.inl ⟨_, rfl, .inr trivial⟩) (fun k h => by cases h; exact ⟨hlock, hclean⟩) hres
    rw [hstore]
    exact ⟨hinv, .quiet⟩

theorem inv_iput2 (hs : Inv s) (hk : s.pc p = .on .iput2 i)
    (h : statement s p i .iput2 = some (s', e)) : Inv s' ∧ Store.Step s.store a s'.store e := by
  obtain ⟨hlock, htype, hvalid, hcopy, hlinks⟩ : (s.ip i).lock = some p ∧
    (s.disk (s.ip i).ino).type ≠ 0 ∧ (s.ip i).valid = true ∧
    (s.ip i).copy = s.disk (s.ip i).ino ∧ (s.ip i).copy.nlink = 0 := hs.place p i _ hk
  have hres := hs.not_reserved_of_pc hk (by decide) (by decide) (by decide)
  rw [statement] at h
  split at h
  · next hone =>
    cases h
    have hrefs : s.refs i = 0 := by
      have hlt := (hs.slot i).drops (p := p) (by rw [hk]; exact Pc.drops_on.mpr (by decide))
      omega
    obtain ⟨hinv, hstore⟩ := hs.goto_lock (c := .on .iput3 i) (hs.ref_pos hk) hlock
      (at_of_pc_ne hk (by decide)) rfl (fun h => by cases h) (drops_same hk (by decide))
      (.inl ⟨_, rfl, .inr trivial⟩)
      (fun k h => by cases h; exact ⟨hlock, htype, hvalid, hcopy, hlinks, hrefs, hone⟩) hres
    rw [hstore]
    exact ⟨hinv, .quiet⟩
  · cases h
    obtain ⟨hinv, hstore⟩ := hs.goto_lock (c := .on .iput6 i) (hs.ref_pos hk) hlock
      (at_of_pc_ne hk (by decide)) rfl (fun h => by cases h) (drops_same hk (by decide))
      (.inl ⟨_, rfl, .inr trivial⟩) (fun k h => by cases h; exact ⟨hlock, fun _ => hcopy⟩) hres
    rw [hstore]
    exact ⟨hinv, .quiet⟩

theorem inv_iput3 (hs : Inv s) (hk : s.pc p = .on .iput3 i)
    (h : statement s p i .iput3 = some (s', e)) : Inv s' ∧ Store.Step s.store a s'.store e := by
  obtain ⟨hlock, htype, hvalid, hcopy, hlinks, hrefs, hone⟩ : (s.ip i).lock = some p ∧
    (s.disk (s.ip i).ino).type ≠ 0 ∧ (s.ip i).valid = true ∧
    (s.ip i).copy = s.disk (s.ip i).ino ∧ (s.ip i).copy.nlink = 0 ∧ s.refs i = 0 ∧
    (s.ip i).ref = 1 := hs.place p i _ hk
  have href := hs.ref_pos hk
  have hres := hs.not_reserved_of_pc hk (by decide) (by decide) (by decide)
  have hst : ¬s.Stale i := not_stale_of_pc hlock fun h => by
    rw [hk] at h
    cases h
  have hcontent : s.store.inode (s.store.ino i) = (s.ip i).copy := by
    refine (hs.inode_slot href).trans ?_
    rw [content_of_not_stale hst, if_pos hvalid]
  rw [← hcopy] at htype
  rw [statement] at h
  dsimp only at h
  rw [set_write_eq_put (v := { s.ip i with copy := itrunc (s.ip i).copy })] at h
  cases h
  have hinv : Inv (s.put p (.on .iput4 i) i { s.ip i with copy := itrunc (s.ip i).copy }
      (s.refs i) (itrunc (s.ip i).copy)) := by
    refine hs.put_lock href (ne_of_lock hlock) (at_of_pc hk) rfl rfl rfl
      (drops_same hk (by decide)) (fun _ => htype) (.inr ⟨hlock, .inl ⟨_, rfl, .inr trivial⟩⟩)
      (fun _ _ => ⟨htype, htype, fun _ => rfl⟩) (fun k h => ?_) fun h => absurd h hres
    cases h
    rw [Place, State.put_ip, State.put_refs, State.put_disk]
    exact ⟨hlock, htype, hvalid, rfl, hlinks, hrefs, hone⟩
  refine ⟨hinv, ?_⟩
  rw [hs.store_lock hinv href (at_of_pc hk) rfl rfl rfl (.inr hlock),
    if_pos ⟨hvalid, fun _ h => by cases h⟩]
  have hlinks' : (s.store.inode (s.store.ino i)).nlink = 0 := by rw [hcontent, hlinks]
  have hstep := Store.Step.truncated (a := a) (t := s.store) hlock hrefs hlinks'
  rw [hcontent] at hstep
  exact (Store.own_self (s.store.put _ _) i).symm ▸ hstep

theorem inv_iput4 (hs : Inv s) (hk : s.pc p = .on .iput4 i)
    (h : statement s p i .iput4 = some (s', e)) : Inv s' ∧ Store.Step s.store a s'.store e := by
  obtain ⟨hlock, htype, hvalid, hcopy, hlinks, hrefs, hone⟩ : (s.ip i).lock = some p ∧
    (s.disk (s.ip i).ino).type ≠ 0 ∧ (s.ip i).valid = true ∧
    (s.ip i).copy = s.disk (s.ip i).ino ∧ (s.ip i).copy.nlink = 0 ∧ s.refs i = 0 ∧
    (s.ip i).ref = 1 := hs.place p i _ hk
  have href := hs.ref_pos hk
  have hres := hs.not_reserved_of_pc hk (by decide) (by decide) (by decide)
  have hst : ¬s.Stale i := not_stale_of_pc hlock fun h => by
    rw [hk] at h
    cases h
  have hcontent : s.store.inode (s.store.ino i) = (s.ip i).copy := by
    refine (hs.inode_slot href).trans ?_
    rw [content_of_not_stale hst, if_pos hvalid]
  have hdrops : (s.pc p).Drops i := by
    rw [hk]
    exact Pc.drops_on.mpr (by decide)
  -- the last reference: nobody else is at the slot
  have halone : ∀ q ≠ p, ∀ k, s.pc q ≠ .on k i := fun q hq k hqk => by
    rcases k.drops_or_locking with hd | hl
    · refine hq ((hs.slot i).drops_one hone ?_ hdrops)
      rw [hqk]
      exact Pc.drops_on.mpr hd
    · have hpos := (hs.place q i k hqk).refs hl
      omega
  rw [statement] at h
  dsimp only at h
  rw [set_write_eq_put (v := { s.ip i with copy := { (s.ip i).copy with type := 0 } })] at h
  cases h
  have hinv : Inv (s.put p (.on .iput5 i) i
      { s.ip i with copy := { (s.ip i).copy with type := 0 } } (s.refs i)
      { (s.ip i).copy with type := 0 }) := by
    refine hs.put (at_of_pc hk) rfl (fun j hj hrefj h => hj (hs.one j i hrefj href h)) ?_
      (fun k h => ?_) (fun q hq k hqk => absurd hqk (halone q hq k))
      fun q _ hq => absurd (hs.reserved q _ hq) hres
    · refine ⟨?_, fun q hq => .inl ⟨.iput5, ?_, .inr trivial⟩, fun hn => ?_,
        fun _ _ hfresh => ?_⟩
      · have hsum := sum_drops s p (.on .iput5 i) i
        have hold := (hs.slot i).count
        rw [if_pos hdrops, if_pos (Pc.drops_on.mpr (by decide))] at hsum
        rw [State.put_ip, State.put_refs]
        change _ = _ + ∑ q, if ((Function.update s.pc p (.on .iput5 i)) q).Drops i then 1 else 0
        dsimp only
        omega
      · rw [State.put_ip] at hq
        obtain rfl : p = q := Option.some.inj (hlock.symm.trans hq)
        exact State.put_pc
      · rw [State.put_refs, hrefs] at hn
        cases hn
      · refine absurd ⟨p, ?_, State.put_pc⟩ hfresh
        rw [State.put_ip]
        exact hlock
    · cases h
      rw [Place, State.put_ip]
      exact hlock
  refine ⟨hinv, ?_⟩
  rw [hs.store_lock hinv href (at_of_pc hk) rfl rfl rfl (.inr hlock),
    if_neg fun h => h.2 hlock rfl]
  have hlinks' : (s.store.inode (s.store.ino i)).nlink = 0 := by rw [hcontent, hlinks]
  have hstep := Store.Step.freed (a := a) (t := s.store) hlock hrefs hlinks'
  rw [hcontent] at hstep
  exact (Store.own_self (s.store.put _ _) i).symm ▸ hstep

theorem inv_iput5 (hs : Inv s) (hk : s.pc p = .on .iput5 i)
    (h : statement s p i .iput5 = some (s', e)) : Inv s' ∧ Store.Step s.store a s'.store e := by
  have hlock : (s.ip i).lock = some p := hs.place p i _ hk
  have href := hs.ref_pos hk
  rw [statement, set_eq_put] at h
  cases h
  have hinv : Inv (s.put p (.on .iput6 i) i { s.ip i with valid := false } (s.refs i)
      (s.disk (s.ip i).ino)) := by
    refine hs.put_lock href (ne_of_lock hlock) (at_of_pc hk) rfl rfl rfl
      (drops_same hk (by decide)) id (.inr ⟨hlock, .inl ⟨_, rfl, .inr trivial⟩⟩)
      (fun hv => by cases hv) (fun k h => ?_)
      fun h => h.put href (at_of_pc hk) rfl rfl (fun hv => by cases hv) fun k j h => ?_
    · cases h
      rw [Place, State.put_ip]
      exact ⟨hlock, fun hv => by cases hv⟩
    · cases h
      exact ⟨rfl, .inr (.inl rfl)⟩
  refine ⟨hinv, ?_⟩
  have hst : s.Stale i := ⟨p, hlock, hk⟩
  rw [hs.store_lock_same hinv href (at_of_pc hk) rfl rfl rfl hlock hlock
    (by simp [State.content, hst])]
  exact .quiet

theorem inv_iput6 (hs : Inv s) (hk : s.pc p = .on .iput6 i)
    (h : statement s p i .iput6 = some (s', e)) : Inv s' ∧ Store.Step s.store a s'.store e := by
  obtain ⟨hlock, hclean⟩ : (s.ip i).lock = some p ∧
    ((s.ip i).valid = true → (s.ip i).copy = s.disk (s.ip i).ino) := hs.place p i _ hk
  have href := hs.ref_pos hk
  have hst : ¬s.Stale i := not_stale_of_pc hlock fun h => by
    rw [hk] at h
    cases h
  rw [statement, set_eq_put] at h
  cases h
  have hinv : Inv (s.put p (.on .iput7 i) i { s.ip i with lock := none } (s.refs i)
      (s.disk (s.ip i).ino)) := by
    refine hs.put_lock href (ne_of_lock hlock) (at_of_pc hk) rfl rfl rfl
      (drops_same hk (by decide)) id (.inl rfl) (fun hvalid _ => ?_) (fun k h => ?_)
      fun h => h.put href (at_of_pc hk) rfl rfl
        (fun hv => absurd (h.stale i ⟨href, rfl⟩ hv) hst) fun k j h => ?_
    · obtain ⟨htype, hdisk, -⟩ := (hs.slot i).fresh href hvalid hst
      exact ⟨htype, hdisk, fun _ => hclean hvalid⟩
    · cases h
      trivial
    · cases h
      exact ⟨rfl, .inr (.inr rfl)⟩
  refine ⟨hinv, ?_⟩
  rw [hs.store_unlock hinv href (at_of_pc hk) rfl rfl rfl rfl (by rw [content_of_not_stale hst])]
  exact .unlocked hlock

omit [DecidableEq P] in
/-- The last one that leaves a slot leaves the disk as the slot was. -/
theorem Inv.content_last (hs : Inv s) (hk : s.pc p = .on .iput7 i) (hone : (s.ip i).ref = 1) :
    s.content i = s.disk (s.ip i).ino := by
  have h := hs.slot i
  have hdrops : (s.pc p).Drops i := by
    rw [hk]
    exact Pc.drops_on.mpr (by decide)
  have hrefs : s.refs i = 0 := by
    have hlt := h.drops hdrops
    omega
  have hfree : (s.ip i).lock = none := by
    rw [Option.eq_none_iff_forall_ne_some]
    intro q hq
    rcases h.lock q hq with ⟨k, hqk, hlocking | hputting⟩ | ⟨hpos, -⟩
    · have hpos := (hs.place q i k hqk).refs hlocking.1
      omega
    · have hqp : q = p := by
        refine h.drops_one hone ?_ hdrops
        rw [hqk]
        exact Pc.drops_on.mpr (.inr (.inl hputting))
      rw [hqp, hk] at hqk
      cases hqk
      exact hputting
    · omega
  have hst : ¬s.Stale i := not_stale fun q hq => by
    rw [hfree] at hq
    cases hq
  rw [content_of_not_stale hst]
  split
  · next hvalid => exact (h.fresh (by omega) hvalid hst).2.2 hfree
  · rfl

theorem inv_iput7 (hs : Inv s) (hk : s.pc p = .on .iput7 i)
    (h : statement s p i .iput7 = some (s', e)) : Inv s' ∧ Store.Step s.store a s'.store e := by
  have href := hs.ref_pos hk
  have hdrops : (s.pc p).Drops i := by
    rw [hk]
    exact Pc.drops_on.mpr (by decide)
  have hat : ∀ k j, s.pc p = .on k j → j = i ∧ ¬k.Inside := fun k j h => by
    rw [hk] at h
    cases h
    exact ⟨rfl, fun h => h.elim (fun h => h.1) id⟩
  rw [statement, set_eq_put] at h
  cases h
  have hinv : Inv (s.put p .user i { s.ip i with ref := (s.ip i).ref - 1 } (s.refs i)
      (s.disk (s.ip i).ino)) := by
    refine hs.put_count href hat trivial ?_ (hs.slot i).live (fun q => hs.refs_pos)
      (fun q hq => ⟨fun hqk => ?_, fun hqk => ?_⟩) (fun k h => by cases h) fun q _ hq => ?_
    · rw [if_pos hdrops, if_neg (fun h : Pc.user.Drops i => h)]
      omega
    · obtain ⟨-, -, -, -, -, -, hone⟩ := hs.place q i _ hqk
      refine hq ((hs.slot i).drops_one hone ?_ hdrops)
      rw [hqk]
      exact Pc.drops_on.mpr (by decide)
    · obtain ⟨-, -, -, -, -, -, hone⟩ := hs.place q i _ hqk
      refine hq ((hs.slot i).drops_one hone ?_ hdrops)
      rw [hqk]
      exact Pc.drops_on.mpr (by decide)
    · have hres := hs.reserved q _ hq
      refine hres.put href (at_of_pc hk) rfl rfl (fun hv => ?_) fun k j h => by cases h
      obtain ⟨q, hq, hqk⟩ := hres.stale i ⟨href, rfl⟩ hv
      refine ⟨q, ?_, ?_⟩
      · rw [State.put_ip]
        exact hq
      · rw [State.put_pc_ne]
        · exact hqk
        · rintro rfl
          rw [hk] at hqk
          cases hqk
  refine ⟨hinv, ?_⟩
  rw [hs.store_count hinv href hat trivial (fun k h => by cases h)
    fun hgone => hs.content_last hk (by omega), Function.update_eq_self]
  exact .quiet

/-- Every statement of `ilock`, `iunlock` and `iput` keeps the invariant. -/
theorem inv_statement (hs : Inv s) (hk : s.pc p = .on k i)
    (h : statement s p i k = some (s', e)) : Inv s' ∧ Store.Step s.store a s'.store e := by
  cases k with
  | ilock0 => exact inv_acquiresleep hs hk (.inl ⟨rfl, rfl⟩) h
  | ilock1 => exact inv_ilock1 hs hk h
  | ilock2 => exact inv_ilock2 hs hk h
  | ilock3 => exact inv_ilock3 hs hk h
  | iunlock0 => exact inv_iunlock0 hs hk h
  | iput0 => exact inv_acquiresleep hs hk (.inr ⟨rfl, rfl⟩) h
  | iput1 => exact inv_iput1 hs hk h
  | iput2 => exact inv_iput2 hs hk h
  | iput3 => exact inv_iput3 hs hk h
  | iput4 => exact inv_iput4 hs hk h
  | iput5 => exact inv_iput5 hs hk h
  | iput6 => exact inv_iput6 hs hk h
  | iput7 => exact inv_iput7 hs hk h

end Code

section Calls

variable [DecidableEq P] [Fintype P] {s s' : State P} {p q : P} {i j : Slot} {x y : Ino}
  {e : Event P} {c : Pc} {n : ℕ} {d : Dinode} {k : Code} {a : Action P}

/-! ### At no slot -/

section Away

variable (hat : ∀ k j, s.pc p ≠ .on k j) (hc : ∀ k j, c ≠ .on k j)
include hat hc

omit [Fintype P] in
theorem goto_on : (s.goto p c).pc q = .on k j ↔ s.pc q = .on k j := by
  change Function.update s.pc p c q = _ ↔ _
  by_cases hq : q = p
  · rw [hq, Function.update_self]
    exact iff_of_false (hc k j) (hat k j)
  · rw [Function.update_of_ne hq]

omit [Fintype P] in
theorem goto_stale : (s.goto p c).Stale j ↔ s.Stale j := by
  simp only [State.Stale, goto_on hat hc]
  exact Iff.rfl

omit [Fintype P] in
theorem goto_store : (s.goto p c).store = s.store := by
  have hinode : (s.goto p c).inode = s.inode := by
    funext y
    rw [State.inode, State.inode]
    change (match Table.find fun i => s.Holds i y with
      | some i => (s.goto p c).content i
      | none => s.disk y) = _
    cases Table.find fun i => s.Holds i y with
    | none => rfl
    | some i =>
      change (if (s.ip i).valid = true ∧ ¬(s.goto p c).Stale i then _ else _) = _
      simp only [goto_stale hat hc]
      rfl
  rw [State.store, hinode]
  rfl

/-- A step that changes neither a slot nor the disk. -/
theorem Inv.goto_away (hs : Inv s)
    (hnew : ∀ x, c = .iget x → Reserved s x ∧ ∀ q, s.pc q ≠ .iget x)
    (htyped : ∀ dev type inum, c = .ialloc dev type inum → type ≠ 0) : Inv (s.goto p c) := by
  have hdrops : ∀ {c' : Pc}, (∀ k j, c' ≠ .on k j) → ∀ j, ¬c'.Drops j := by
    intro c' hc' j hd
    cases c' with
    | on k j' => exact hc' k j' rfl
    | _ => exact hd
  have higet : ∀ {q y}, (s.goto p c).pc q = .iget y →
      (q = p ∧ c = .iget y) ∨ s.pc q = .iget y := by
    intro q y hq
    change Function.update s.pc p c q = _ at hq
    by_cases hqp : q = p
    · rw [hqp, Function.update_self] at hq
      exact .inl ⟨hqp, hq⟩
    · rw [Function.update_of_ne hqp] at hq
      exact .inr hq
  refine ⟨hs.one, fun j => ?_, fun q j k hq => place_goto (hs.place q j k ((goto_on hat hc).mp hq)),
    fun q y hq => ?_, fun q r y hq hr => ?_, fun q dev type inum hq => ?_⟩
  · have h := hs.slot j
    refine ⟨?_, fun q hq => ?_, h.live, fun href hvalid hst => ?_⟩
    · have hsum := sum_drops s p c j
      rw [if_neg (hdrops hat j), if_neg (hdrops hc j)] at hsum
      exact h.count.trans (congrArg _ hsum.symm)
    · exact (h.lock q hq).imp (fun ⟨k, hk, hin⟩ => ⟨k, (goto_on hat hc).mpr hk, hin⟩) id
    · exact h.fresh href hvalid fun h => hst ((goto_stale hat hc).mpr h)
  · have h : Reserved s y := (higet hq).elim (fun h => (hnew y h.2).1) (hs.reserved q y)
    exact ⟨h.type, h.nlink, h.refs, fun j hj hv => (goto_stale hat hc).mpr (h.stale j hj hv),
      fun j hj r k hr => h.pc j hj r k ((goto_on hat hc).mp hr)⟩
  · rcases higet hq with ⟨hqp, hcy⟩ | hq
    · rcases higet hr with ⟨hrp, -⟩ | hr
      · rw [hqp, hrp]
      · exact absurd hr ((hnew y hcy).2 r)
    · rcases higet hr with ⟨-, hcy⟩ | hr
      · exact absurd hq ((hnew y hcy).2 q)
      · exact hs.sole q r y hq hr
  · change Function.update s.pc p c q = _ at hq
    by_cases hqp : q = p
    · rw [hqp, Function.update_self] at hq
      exact htyped dev type inum hq
    · rw [Function.update_of_ne hqp] at hq
      exact hs.typed q dev type inum hq

end Away

omit [DecidableEq P] in
/-- A free inode is written on its disk. -/
theorem Inv.write_free (hs : Inv s) (hfree : (s.disk x).type = 0) (htype : d.type ≠ 0)
    (hlinks : d.nlink = 0) :
    Inv (s.write x d) ∧ Reserved (s.write x d) x ∧ (s.write x d).store = s.store.put x d ∧
      ∀ i, s.Holds i x → s.refs i = 0 := by
  have hrefs : ∀ {j}, 0 < s.refs j → (s.ip j).ino ≠ x := fun h hj =>
    (hs.slot _).live h (hj ▸ hfree)
  have hstale : ∀ {j}, s.Holds j x → (s.ip j).valid = true → s.Stale j := by
    intro j hj hvalid
    by_contra hst
    refine ((hs.slot j).fresh hj.1 hvalid hst).2.1 ?_
    rw [hj.2]
    exact hfree
  have hdisk : ∀ {y}, y ≠ x → (s.write x d).disk y = s.disk y := fun h =>
    Function.update_of_ne h _ _
  have hdisk' : (s.write x d).disk x = d := Function.update_self _ _ _
  have hpc : ∀ {j}, s.Holds j x → ∀ q k, s.pc q = .on k j →
      k = .iput5 ∨ k = .iput6 ∨ k = .iput7 := by
    intro j hj q k hq
    have hplace := hs.place q j k hq
    have hzero : (s.disk (s.ip j).ino).type = 0 := by rw [hj.2, hfree]
    rcases k.drops_or_locking with hk | hk
    · cases k with
      | iput0 => exact absurd hzero hplace
      | iput1 | iput2 | iput3 | iput4 => exact absurd hzero hplace.2.1
      | iput5 => exact .inl rfl
      | iput6 => exact .inr (.inl rfl)
      | iput7 => exact .inr (.inr rfl)
      | _ => exact absurd hk (by decide)
    · exact absurd hj.2 (hrefs (hplace.refs hk))
  have hreserved : Reserved (s.write x d) x := by
    refine ⟨by rwa [hdisk'], by rwa [hdisk'], fun j hj => ?_, fun j hj hv => hstale hj hv,
      fun j hj => hpc hj⟩
    by_contra hne
    exact hrefs (Nat.pos_of_ne_zero hne) hj.2
  have hinv : Inv (s.write x d) := by
    refine ⟨hs.one, fun j => ?_, fun q j k hq => ?_, fun q y hq => ?_, hs.sole, hs.typed⟩
    · have h := hs.slot j
      refine ⟨h.count, h.lock, fun hn => ?_, fun href hvalid hst => ?_⟩
      · change ((s.write x d).disk (s.ip j).ino).type ≠ 0
        rw [hdisk (hrefs hn)]
        exact h.live hn
      · have hfresh := h.fresh href hvalid hst
        have hne : (s.ip j).ino ≠ x := fun hj => hst (hstale ⟨href, hj⟩ hvalid)
        change (s.ip j).copy.type ≠ 0 ∧ ((s.write x d).disk (s.ip j).ino).type ≠ 0 ∧
          ((s.ip j).lock = none → (s.ip j).copy = (s.write x d).disk (s.ip j).ino)
        rw [hdisk hne]
        exact hfresh
    · have h := hs.place q j k hq
      by_cases hj : (s.ip j).ino = x
      · rcases hpc ⟨hs.ref_pos hq, hj⟩ q k hq with rfl | rfl | rfl
        · exact h
        · refine ⟨h.1, fun hv => ?_⟩
          obtain ⟨r, hr, hrk⟩ := hstale ⟨hs.ref_pos hq, hj⟩ hv
          obtain rfl : q = r := Option.some.inj (h.1.symm.trans hr)
          change s.pc q = _ at hq
          rw [hq] at hrk
          cases hrk
        · trivial
      · have hd : (s.write x d).disk (s.ip j).ino = s.disk (s.ip j).ino := hdisk hj
        have hip : (s.write x d).ip j = s.ip j := rfl
        have hr : (s.write x d).refs j = s.refs j := rfl
        cases k with
        | iput7 => trivial
        | ilock0 | ilock1 | ilock2 | iput5 => exact h
        | _ => simpa only [Place, hip, hr, hd] using h
    · have h := hs.reserved q y hq
      have hy : y ≠ x := by
        rintro rfl
        exact h.type hfree
      refine ⟨?_, ?_, h.refs, h.stale, h.pc⟩
      · rw [hdisk hy]
        exact h.type
      · rw [hdisk hy]
        exact h.nlink
  refine ⟨hinv, hreserved, ?_, fun i hi => ?_⟩
  · have hinode : (s.write x d).inode = Function.update s.inode x d := by
      funext y
      by_cases hj : ∃ j, s.Holds j y
      · obtain ⟨j, hj⟩ := hj
        rw [hinv.inode_of_holds (i := j) hj]
        change (if (s.ip j).valid = true ∧ ¬s.Stale j then (s.ip j).copy
          else (s.write x d).disk (s.ip j).ino) = _
        by_cases hy : y = x
        · rw [hy] at hj ⊢
          rw [if_neg fun h => h.2 (hstale hj h.1), hj.2, hdisk', Function.update_self]
        · rw [hj.2, hdisk hy, Function.update_of_ne hy, hs.inode_of_holds hj, State.content, hj.2]
      · have hnot : ∀ i, ¬s.Holds i y := fun i hi => hj ⟨i, hi⟩
        rw [inode_of_not_holds (s := s.write x d) hnot]
        by_cases hy : y = x
        · rw [hy, hdisk', Function.update_self]
        · rw [hdisk hy, Function.update_of_ne hy, inode_of_not_holds hnot]
    rw [State.store, hinode]
    rfl
  · by_contra hne
    exact hrefs (Nat.pos_of_ne_zero hne) hi.2

/-- A panic of a process that is at no slot. -/
theorem inv_panic (hs : Inv s) (hat : ∀ k j, s.pc p ≠ .on k j) {message : String}
    (hm : message = "iget: no inodes" ∨ message = "ialloc: no inodes") :
    Inv (panic s p message).1 ∧
      Store.Step s.store a (panic s p message).1.store (panic s p message).2 := by
  have hc : ∀ k j, Pc.panicked ≠ .on k j := fun k j h => by cases h
  rw [panic, goto_store hat hc]
  exact ⟨hs.goto_away hat hc (fun x h => by cases h) (fun _ _ _ h => by cases h), .panicked hm⟩

/-! ### New references -/

omit [DecidableEq P] in
theorem Inv.inode_reserved (hs : Inv s) (h : Reserved s x) : s.inode x = s.disk x := by
  by_cases hi : ∃ i, s.Holds i x
  · obtain ⟨i, hi⟩ := hi
    rw [hs.inode_of_holds hi, State.content, if_neg fun hv => hv.2 (h.stale i hi hv.1), hi.2]
  · exact inode_of_not_holds fun i h => hi ⟨i, h⟩

/-- A new reference to a slot. -/
theorem inv_grab (hs : Inv s) (hat : ∀ k j, s.pc p ≠ .on k j) (href : 0 < (s.ip i).ref)
    (hlive : (s.disk (s.ip i).ino).type ≠ 0) (htype : (s.inode (s.ip i).ino).type ≠ 0)
    (hkept : ∀ q, s.pc q ≠ .on .iput3 i ∧ s.pc q ≠ .on .iput4 i)
    (hnew : ∀ q ≠ p, s.pc q ≠ .iget (s.ip i).ino) :
    Inv (grab s p i).1 ∧ Store.Step s.store a (grab s p i).1.store (grab s p i).2 := by
  have hat' : ∀ k j, s.pc p = .on k j → j = i ∧ ¬k.Inside := fun k j h => absurd h (hat k j)
  have hdrops : ¬(s.pc p).Drops i := fun h => by
    cases hpc : s.pc p with
    | on k j => exact hat k j hpc
    | _ => rw [hpc] at h; exact h
  rw [grab, set_setRefs_eq_put]
  have hinv : Inv (s.put p .user i { s.ip i with ref := (s.ip i).ref + 1 } (s.refs i + 1)
      (s.disk (s.ip i).ino)) := by
    refine hs.put_count href hat' trivial ?_ (fun _ => hlive) (fun _ _ => Nat.succ_pos _)
      (fun q _ => hkept q) (fun k h => by cases h) fun q hq h => absurd h (hnew q hq)
    rw [if_neg hdrops, if_neg (fun h : Pc.user.Drops i => h)]
    omega
  refine ⟨hinv, ?_⟩
  rw [hs.store_count hinv href hat' trivial (fun k h => by cases h)
    fun h => absurd h (Nat.succ_ne_zero _)]
  have hstep := Store.Step.got (t := s.store) (a := a) (p := p) (i := i) (x := (s.ip i).ino) htype
    (.inr rfl) fun j hj hino => hs.one j i (hj.trans_le (hs.slot j).refs_le) href hino
  rwa [show (s.ip i).ino = s.store.ino i from rfl, Function.update_eq_self] at hstep

/-- `iget`, of an inode that is allocated and not being freed. -/
theorem inv_iget (hs : Inv s) (hat : ∀ k j, s.pc p ≠ .on k j) (htype : (s.inode x).type ≠ 0)
    (hnew : ∀ q ≠ p, s.pc q ≠ .iget x)
    (hkept : ∀ i, s.Holds i x → (s.disk x).type ≠ 0 ∧
      ∀ q, s.pc q ≠ .on .iput3 i ∧ s.pc q ≠ .on .iput4 i) :
    Inv (iget s p x).1 ∧ Store.Step s.store a (iget s p x).1.store (iget s p x).2 := by
  rw [iget]
  cases hfind : Table.find fun i => s.Holds i x with
  | some i =>
    have hi : s.Holds i x := of_decide_eq_true (Table.find_spec hfind)
    obtain ⟨href, rfl⟩ := hi
    obtain ⟨hlive, hkept⟩ := hkept i ⟨href, rfl⟩
    exact inv_grab hs hat href hlive htype hkept hnew
  | none =>
    have hnone : ∀ i, ¬s.Holds i x := fun i => of_decide_eq_false (Table.find_eq_none.mp hfind i)
    dsimp only
    cases hempty : Table.find fun i => (s.ip i).ref = 0 with
    | none => exact inv_panic hs hat (.inl rfl)
    | some i =>
      have hzero : (s.ip i).ref = 0 := of_decide_eq_true (Table.find_spec hempty)
      have hrefs : s.refs i = 0 := Nat.le_zero.mp (hzero ▸ (hs.slot i).refs_le)
      have hnobody : ∀ q k, s.pc q ≠ .on k i := fun q k hq => by
        have hpos := hs.ref_pos hq
        omega
      have hdisk : s.inode x = s.disk x := inode_of_not_holds hnone
      have hone : ∀ j ≠ i, 0 < (s.ip j).ref → (s.ip j).ino ≠ x := fun j _ hj hx => hnone j ⟨hj, hx⟩
      have hfree : (s.ip i).lock = none := by
        rw [Option.eq_none_iff_forall_ne_some]
        intro q hq
        rcases (hs.slot i).lock q hq with ⟨k, hk, -⟩ | ⟨hpos, -⟩
        · exact hnobody q k hk
        · omega
      have hdrops : ¬(s.pc p).Drops i := fun h => by
        cases hpc : s.pc p with
        | on k j => exact hat k j hpc
        | _ => rw [hpc] at h; exact h
      dsimp only
      rw [set_setRefs_eq_put]
      have hinv : Inv (s.put p .user i { s.ip i with ino := x, ref := 1, valid := false } 1
          (s.disk x)) := by
        refine hs.put (fun k j h => absurd h (hat k j)) trivial hone ?_ (fun k h => by cases h)
          (fun q _ k hq => absurd hq (hnobody q k)) fun q hq h => absurd h (hnew q hq)
        refine ⟨?_, fun q hq => ?_, fun _ => ?_, fun _ hvalid => ?_⟩
        · have hsum := sum_drops s p .user i
          have hold := (hs.slot i).count
          rw [if_neg hdrops, if_neg (fun h : Pc.user.Drops i => h)] at hsum
          rw [State.put_ip, State.put_refs]
          change 1 = 1 + ∑ q, if ((Function.update s.pc p .user) q).Drops i then 1 else 0
          omega
        · rw [State.put_ip] at hq
          rw [hfree] at hq
          cases hq
        · rw [State.put_ip]
          change ((Function.update s.disk x (s.disk x)) x).type ≠ 0
          rw [Function.update_self, ← hdisk]
          exact htype
        · rw [State.put_ip] at hvalid
          cases hvalid
      refine ⟨hinv, ?_⟩
      have hw : s.inode x = if 0 < 1 then (s.put p .user i
          { s.ip i with ino := x, ref := 1, valid := false } 1 (s.disk x)).content i
          else s.disk x := by
        rw [if_pos Nat.one_pos, content_of_not_valid (by rw [State.put_ip]), State.put_ip, hdisk]
        change s.disk x = Function.update s.disk x (s.disk x) x
        rw [Function.update_self]
      rw [hs.store_put hinv (fun k j h => absurd h (hat k j)) trivial hone (.inr hzero) hw]
      have hstep := Store.Step.got (t := s.store) (a := a) (p := p) (i := i) (x := x) htype
        (.inl hrefs) fun j hj hino => absurd ⟨hj.trans_le (hs.slot j).refs_le, hino⟩ (hnone j)
      have hrefs' : s.store.refs i = 0 := hrefs
      rw [hrefs'] at hstep
      convert hstep using 1
      rw [Store.mk.injEq]
      exact ⟨Function.update_eq_self _ _, rfl, rfl, Function.update_eq_self _ _⟩

/-! ### The functions -/

omit [Fintype P] [DecidableEq P] in
theorem away_of_user (h : s.pc p = .user) : ∀ k j, s.pc p ≠ .on k j := fun k j hk => by
  rw [h] at hk
  cases hk

omit [DecidableEq P] in
/-- An inode that has a type in its slot has one on the disk. -/
theorem Inv.live (hs : Inv s) (href : 0 < (s.ip i).ref) (htype : (s.content i).type ≠ 0) :
    (s.disk (s.ip i).ino).type ≠ 0 := by
  by_cases h : (s.ip i).valid = true ∧ ¬s.Stale i
  · exact ((hs.slot i).fresh href h.1 h.2).2.1
  · rwa [State.content, if_neg h] at htype

omit [DecidableEq P] in
/-- An inode that is linked or referred to is neither new nor being freed. -/
theorem Inv.known (hs : Inv s) (h : ((s.inode x).type ≠ 0 ∧ (s.inode x).nlink ≠ 0) ∨
    ∃ i, s.Holds i x ∧ 0 < s.refs i) :
    (s.inode x).type ≠ 0 ∧ (∀ q, s.pc q ≠ .iget x) ∧ ∀ i, s.Holds i x →
      (s.disk x).type ≠ 0 ∧ ∀ q, s.pc q ≠ .on .iput3 i ∧ s.pc q ≠ .on .iput4 i := by
  have htype : (s.inode x).type ≠ 0 := by
    rcases h with h | ⟨i, hi, hrefs⟩
    · exact h.1
    · rw [hs.inode_of_holds hi, State.content]
      split
      · next hv => exact ((hs.slot i).fresh hi.1 hv.1 hv.2).1
      · exact (hs.slot i).live hrefs
  have hfreed : ∀ i q, s.Holds i x → (s.pc q = .on .iput3 i ∨ s.pc q = .on .iput4 i) → False := by
    intro i q hi hq
    obtain ⟨hlock, hvalid, hlinks, hrefs⟩ : (s.ip i).lock = some q ∧ (s.ip i).valid = true ∧
        (s.ip i).copy.nlink = 0 ∧ s.refs i = 0 := by
      rcases hq with hq | hq
      · obtain ⟨h₁, -, h₂, -, h₃, h₄, -⟩ := hs.place q i _ hq
        exact ⟨h₁, h₂, h₃, h₄⟩
      · obtain ⟨h₁, -, h₂, -, h₃, h₄, -⟩ := hs.place q i _ hq
        exact ⟨h₁, h₂, h₃, h₄⟩
    rcases h with ⟨-, h⟩ | ⟨j, hj, hpos⟩
    · have hst : ¬s.Stale i := not_stale_of_pc hlock fun h5 => by
        rw [h5] at hq
        rcases hq with hq | hq <;> cases hq
      rw [hs.inode_of_holds hi, content_of_not_stale hst, if_pos hvalid] at h
      exact h hlinks
    · obtain rfl := hs.one i j hi.1 hj.1 (hi.2.trans hj.2.symm)
      omega
  refine ⟨htype, fun q hq => ?_, fun i hi => ⟨?_, fun q => ⟨fun hq => hfreed i q hi (.inl hq),
    fun hq => hfreed i q hi (.inr hq)⟩⟩⟩
  · have hres := hs.reserved q x hq
    rcases h with ⟨-, h⟩ | ⟨i, hi, hpos⟩
    · rw [hs.inode_reserved hres] at h
      exact h hres.nlink
    · exact absurd (hres.refs i hi) (Nat.ne_of_gt hpos)
  · obtain ⟨href, rfl⟩ := hi
    refine hs.live href ?_
    rwa [← hs.inode_slot href]

omit [DecidableEq P] in
/-- What a process that has locked an inode knows of it. -/
theorem Inv.locked (hs : Inv s) (hlock : (s.ip i).lock = some p) (hp : s.pc p = .user) :
    0 < s.refs i ∧ (s.ip i).valid = true ∧ ¬s.Stale i := by
  have hst : ¬s.Stale i := not_stale_of_pc hlock fun h => by
    rw [hp] at h
    cases h
  rcases (hs.slot i).lock p hlock with ⟨k, hk, -⟩ | ⟨hrefs, hvalid⟩
  · exact absurd hk (away_of_user hp k i)
  · exact ⟨hrefs, hvalid, hst⟩

omit [Fintype P] [DecidableEq P] in
theorem not_drops_of_user (h : s.pc p = .user) : ¬(s.pc p).Drops i := by
  rw [h]
  exact id

theorem inv_ilock (hs : Inv s) (hp : s.pc p = .user) (hrefs : 0 < s.refs i)
    (h : call s (.ilock p i) = some (s', e)) : Inv s' ∧ Store.Step s.store a s'.store e := by
  have href : 0 < (s.ip i).ref := hrefs.trans_le (hs.slot i).refs_le
  have hat : ∀ k j, s.pc p = .on k j → j = i ∧ ¬k.Inside := fun k j h =>
    absurd h (away_of_user hp k j)
  have hck : ∀ k, Pc.on .ilock0 i = .on k i → ¬k.Inside := fun k h => by
    cases h
    decide
  rw [call, if_neg (by omega), goto_eq_put s p i] at h
  cases h
  have hinv : Inv (s.put p (.on .ilock0 i) i { s.ip i with ref := (s.ip i).ref } (s.refs i)
      (s.disk (s.ip i).ino)) := by
    refine hs.put_count href hat rfl ?_ (hs.slot i).live (fun _ _ => hrefs) (fun q _ => ?_)
      (fun k h => by cases h; exact .inl ⟨rfl, hrefs⟩)
      fun q _ hq => absurd (hs.reserved q _ hq) (hs.not_reserved hrefs)
    · rw [if_neg (not_drops_of_user hp), if_neg (mt Pc.drops_on.mp (by decide))]
    · refine ⟨fun hq => ?_, fun hq => ?_⟩
      · obtain ⟨-, -, -, -, -, hzero, -⟩ := hs.place q i _ hq
        omega
      · obtain ⟨-, -, -, -, -, hzero, -⟩ := hs.place q i _ hq
        omega
  refine ⟨hinv, ?_⟩
  have hstore := hs.store_count hinv href hat rfl hck fun h => by omega
  rw [Function.update_eq_self] at hstore
  exact hstore ▸ .quiet

theorem inv_change (hs : Inv s) (hp : s.pc p = .user) (htype : d.type ≠ 0)
    (h : call s (.change p i d) = some (s', e)) : Inv s' ∧ Store.Step s.store a s'.store e := by
  rw [call] at h
  split at h
  · next hlock =>
    obtain ⟨hrefs, hvalid, hst⟩ := hs.locked hlock hp
    have href : 0 < (s.ip i).ref := hrefs.trans_le (hs.slot i).refs_le
    have hat : ∀ k j, s.pc p = .on k j → j = i := fun k j h => absurd h (away_of_user hp k j)
    obtain ⟨-, hdisk, -⟩ := (hs.slot i).fresh href hvalid hst
    rw [set_eq_put] at h
    cases h
    have hinv : Inv (s.put p .user i { s.ip i with copy := d } (s.refs i)
        (s.disk (s.ip i).ino)) := by
      refine hs.put_lock href (ne_of_lock hlock) hat trivial rfl rfl
        (iff_of_false (not_drops_of_user hp) id) id (.inr ⟨hlock, .inr ⟨hrefs, hvalid⟩⟩)
        (fun _ _ => ⟨htype, hdisk, fun hnone => ?_⟩) (fun k h => by cases h)
        fun h => absurd h (hs.not_reserved hrefs)
      have hlock' : (s.ip i).lock = none := hnone
      rw [hlock] at hlock'
      cases hlock'
    refine ⟨hinv, ?_⟩
    rw [hs.store_lock hinv href hat trivial rfl rfl (.inr hlock),
      if_pos ⟨hvalid, fun _ h => by cases h⟩]
    have hstep := Store.Step.changed (t := s.store) (a := a) (d := d) hlock hrefs
    exact (Store.own_self (s.store.put _ _) i).symm ▸ hstep
  · contradiction

theorem inv_iupdate (hs : Inv s) (hp : s.pc p = .user)
    (h : call s (.iupdate p i) = some (s', e)) : Inv s' ∧ Store.Step s.store a s'.store e := by
  rw [call] at h
  split at h
  · next hlock =>
    obtain ⟨hrefs, hvalid, hst⟩ := hs.locked hlock hp
    have href : 0 < (s.ip i).ref := hrefs.trans_le (hs.slot i).refs_le
    have hat : ∀ k j, s.pc p = .on k j → j = i := fun k j h => absurd h (away_of_user hp k j)
    obtain ⟨htype, -, -⟩ := (hs.slot i).fresh href hvalid hst
    rw [write_eq_put] at h
    cases h
    have hinv : Inv (s.put p .user i (s.ip i) (s.refs i) (s.ip i).copy) :=
      hs.put_lock href (ne_of_lock hlock) hat trivial rfl rfl
        (iff_of_false (not_drops_of_user hp) id) (fun _ => htype)
        (.inr ⟨hlock, .inr ⟨hrefs, hvalid⟩⟩) (fun _ _ => ⟨htype, htype, fun _ => rfl⟩)
        (fun k h => by cases h) fun h => absurd h (hs.not_reserved hrefs)
    refine ⟨hinv, ?_⟩
    rw [hs.store_lock_same hinv href hat trivial rfl rfl hlock hlock
      (by simp [hvalid, content_of_not_stale hst])]
    exact .quiet
  · contradiction

theorem inv_iunlock (hs : Inv s) (hp : s.pc p = .user) (hlock : (s.ip i).lock = some p)
    (hclean : s.disk (s.ip i).ino = (s.ip i).copy)
    (h : call s (.iunlock p i) = some (s', e)) : Inv s' ∧ Store.Step s.store a s'.store e := by
  obtain ⟨hrefs, hvalid, -⟩ := hs.locked hlock hp
  have href : 0 < (s.ip i).ref := hrefs.trans_le (hs.slot i).refs_le
  rw [call, if_neg (fun h => h.elim (fun h => h hlock) (fun h => by omega))] at h
  cases h
  have hdrops : (s.pc p).Drops i ↔ (Pc.on .iunlock0 i).Drops i := by
    rw [Pc.drops_on]
    exact iff_of_false (not_drops_of_user hp) (by decide)
  obtain ⟨hinv, hstore⟩ := hs.goto_lock (c := .on .iunlock0 i) href hlock
    (fun k j h => absurd h (away_of_user hp k j)) rfl (fun h => by cases h) hdrops
    (.inl ⟨_, rfl, .inl ⟨trivial, by decide⟩⟩)
    (fun k h => by cases h; exact ⟨hlock, hrefs, hvalid, hclean.symm⟩) (hs.not_reserved hrefs)
  rw [hstore]
  exact ⟨hinv, .quiet⟩

theorem inv_iput (hs : Inv s) (hp : s.pc p = .user) (hrefs : 0 < s.refs i)
    (huses : s.refs i = 1 → ∀ q, ¬s.Uses q i)
    (h : call s (.iput p i) = some (s', e)) : Inv s' ∧ Store.Step s.store a s'.store e := by
  have href : 0 < (s.ip i).ref := hrefs.trans_le (hs.slot i).refs_le
  have hat : ∀ k j, s.pc p = .on k j → j = i ∧ ¬k.Inside := fun k j h =>
    absurd h (away_of_user hp k j)
  have hck : ∀ k, Pc.on .iput0 i = .on k i → ¬k.Inside := fun k h => by
    cases h
    decide
  rw [call, setRefs_eq_put] at h
  cases h
  have hinv : Inv (s.put p (.on .iput0 i) i { s.ip i with ref := (s.ip i).ref } (s.refs i - 1)
      (s.disk (s.ip i).ino)) := by
    refine hs.put_count href hat rfl ?_ (fun _ => (hs.slot i).live hrefs) (fun q hq => ?_)
      (fun q _ => ?_) (fun k h => by cases h; exact .inr (.inl ⟨rfl, (hs.slot i).live hrefs⟩))
      fun q _ hq => absurd (hs.reserved q _ hq) (hs.not_reserved hrefs)
    · rw [if_neg (not_drops_of_user hp), if_pos (Pc.drops_on.mpr (by decide))]
      omega
    · have hone : s.refs i ≠ 1 := fun h => huses h q hq
      omega
    · refine ⟨fun hq => ?_, fun hq => ?_⟩
      · obtain ⟨-, -, -, -, -, hzero, -⟩ := hs.place q i _ hq
        omega
      · obtain ⟨-, -, -, -, -, hzero, -⟩ := hs.place q i _ hq
        omega
  refine ⟨hinv, ?_⟩
  have hstore := hs.store_count hinv href hat rfl hck fun h => by omega
  exact hstore ▸ .dropped hrefs

/-- Every call keeps the invariant. -/
theorem inv_call (hs : Inv s) (hd : Disciplined s a) (hp : s.pc a.actor = .user)
    (h : call s a = some (s', e)) : Inv s' ∧ Store.Step s.store a s'.store e := by
  cases a with
  | ialloc p dev type =>
    have hc : ∀ k j, Pc.ialloc dev type 1 ≠ .on k j := fun k j h => by cases h
    have hstore := goto_store (away_of_user hp) hc
    have hinv := hs.goto_away (away_of_user hp) hc (fun x h => by cases h)
      fun _ _ _ h => by cases h; exact hd
    cases h
    exact ⟨hinv, hstore ▸ .quiet⟩
  | iget p x =>
    obtain ⟨htype, hnew, hkept⟩ := hs.known hd
    rw [call, Option.some.injEq] at h
    have hstep := inv_iget (a := .iget p x) hs (away_of_user hp) htype (fun q _ => hnew q) hkept
    change Inv (iget s p x).1 ∧ Store.Step _ _ (iget s p x).1.store (iget s p x).2 at hstep
    rw [h] at hstep
    exact hstep
  | idup p i =>
    have href : 0 < (s.ip i).ref := Nat.lt_of_lt_of_le hd (hs.slot i).refs_le
    obtain ⟨htype, hnew, hkept⟩ := hs.known (x := (s.ip i).ino) (.inr ⟨i, ⟨href, rfl⟩, hd⟩)
    obtain ⟨hlive, hkept⟩ := hkept i ⟨href, rfl⟩
    cases h
    exact inv_grab hs (away_of_user hp) href hlive htype hkept fun q _ => hnew q
  | ilock p i => exact inv_ilock hs hp hd h
  | change p i d => exact inv_change hs hp hd h
  | iupdate p i => exact inv_iupdate hs hp h
  | iunlock p i => exact inv_iunlock hs hp hd.1 hd.2 h
  | iput p i => exact inv_iput hs hp hd.1 hd.2 h
  | next p => cases h

/-- A step of `ialloc`. -/
theorem inv_ialloc (hs : Inv s) {ninodes : ℕ} {dev : UInt32} {type : Int16} {inum : ℕ}
    (hp : s.pc p = .ialloc dev type inum)
    (h : next ninodes s p (.ialloc dev type inum) = some (s', e)) :
    Inv s' ∧ Store.Step s.store a s'.store e := by
  have hat : ∀ k j, s.pc p ≠ .on k j := fun k j hk => by
    rw [hp] at hk
    cases hk
  have htype := hs.typed p dev type inum hp
  rw [next] at h
  split at h
  · split at h
    · next hfree =>
      cases h
      obtain ⟨hinv, hres, hstore, hrefs⟩ := hs.write_free (d := .blank type 0) hfree htype rfl
      have hc : ∀ k j, Pc.iget ⟨dev, .ofNat inum⟩ ≠ .on k j := fun k j h => by cases h
      have hat' : ∀ k j, (s.write ⟨dev, .ofNat inum⟩ (.blank type 0)).pc p ≠ .on k j := hat
      rw [goto_store hat' hc, hstore]
      refine ⟨hinv.goto_away hat hc (fun x hx => ?_) (fun _ _ _ h => by cases h),
        .allocated ?_ fun i hi => ?_⟩
      · cases hx
        exact ⟨hres, fun q hq => (hs.reserved q _ hq).type hfree⟩
      · by_contra hne
        by_cases hi : ∃ i, s.Holds i ⟨dev, .ofNat inum⟩
        · obtain ⟨i, hi⟩ := hi
          have hlive := hs.live hi.1 (by rw [← hs.inode_slot hi.1, hi.2]; exact hne)
          rw [hi.2] at hlive
          exact hlive hfree
        · exact hne (by rw [State.store_inode, inode_of_not_holds fun i h => hi ⟨i, h⟩, hfree])
      · by_contra hne
        have href : 0 < (s.ip i).ref := (Nat.pos_of_ne_zero hne).trans_le (hs.slot i).refs_le
        exact hne (hrefs i ⟨href, hi⟩)
    · cases h
      have hc : ∀ k j, Pc.ialloc dev type (inum + 1) ≠ .on k j := fun k j h => by cases h
      rw [goto_store hat hc]
      exact ⟨hs.goto_away hat hc (fun x h => by cases h) fun _ _ _ h => by cases h; exact htype,
        .quiet⟩
  · cases h
    exact inv_panic hs hat (.inr rfl)

/-- **Every step keeps the invariant**, and is a step of the store. -/
theorem inv_step {ninodes : ℕ} (hs : Inv s) (hd : Disciplined s a)
    (h : step ninodes s a = some (s', e)) : Inv s' ∧ Store.Step s.store a s'.store e := by
  cases a with
  | next p =>
    change next ninodes s p (s.pc p) = _ at h
    cases hp : s.pc p with
    | user | panicked => rw [hp] at h; cases h
    | ialloc dev type inum =>
      rw [hp] at h
      exact inv_ialloc hs hp h
    | iget x =>
      rw [hp, next, Option.some.injEq] at h
      have hres := hs.reserved p x hp
      have hstep := inv_iget (a := .next p) hs (fun k j hk => by rw [hp] at hk; cases hk)
        (by rw [hs.inode_reserved hres]; exact hres.type)
        (fun q hq hqx => hq (hs.sole q p x hqx hp)) fun i hi => ⟨hres.type, fun q => ?_⟩
      · rw [h] at hstep
        exact hstep
      · constructor <;>
        · intro hq
          rcases hres.pc i hi q _ hq with h | h | h <;> cases h
    | on k i =>
      rw [hp] at h
      exact inv_statement hs hp h
  | _ =>
    dsimp only [step] at h
    split at h
    · next hp => exact inv_call hs hd hp h
    · contradiction

omit [DecidableEq P] in
theorem inv_boot (disk : Ino → Dinode) : Inv (boot disk : State P) where
  one := fun i j h => absurd h (Nat.lt_irrefl 0)
  slot := fun i => by
    refine ⟨?_, fun q hq => ?_, fun h => absurd h (Nat.lt_irrefl 0),
      fun h => absurd h (Nat.lt_irrefl 0)⟩
    swap
    · cases hq
    change 0 = 0 + ∑ p : P, if Pc.user.Drops i then 1 else 0
    simp [Pc.Drops]
  place := fun p i c h => by cases h
  reserved := fun p x h => by cases h
  sole := fun p q x h => by cases h
  typed := fun p dev type inum h => by cases h

/-- **The inode cache is a store of inodes.**  Let the callers see to what `Disciplined` says.
However the processes take turns, a slot keeps its inode as long as there are references to it, and
no other slot has the same inode; `ilock` returns with the inode as it was set last, and with a type;
only an inode without links and references is freed, and `ialloc` allocates only free inodes; and
nothing panics, except when the inodes or the slots run out. -/
theorem icache_is_store {ninodes : ℕ} {disk : Ino → Dinode} {as : List (Action P)} {s : State P}
    {es : List (Event P)} (h : run (step ninodes) (boot disk) as = some (s, es))
    (hd : AlongRun (step ninodes) Disciplined (boot disk) as) :
    Trace Store.Step (boot disk : State P).store as s.store es :=
  (run_trace State.store Inv (fun _ _ _ hs hd h => inv_step hs hd h) as (boot disk) (s, es)
    (inv_boot disk) hd h).2

/-- Whether the callers see to what they must can be computed. -/
instance (s : State P) : ∀ a, Decidable (Disciplined s a)
  | .ialloc _ _ type => inferInstanceAs (Decidable (type ≠ 0))
  | .iget _ x => inferInstanceAs (Decidable
      (((s.inode x).type ≠ 0 ∧ (s.inode x).nlink ≠ 0) ∨ ∃ i, s.Holds i x ∧ 0 < s.refs i))
  | .idup _ i | .ilock _ i => inferInstanceAs (Decidable (0 < s.refs i))
  | .change _ _ d => inferInstanceAs (Decidable (d.type ≠ 0))
  | .iupdate _ _ | .next _ => inferInstanceAs (Decidable True)
  | .iunlock p i => inferInstanceAs (Decidable
      ((s.ip i).lock = some p ∧ s.disk (s.ip i).ino = (s.ip i).copy))
  | .iput _ i => inferInstanceAs (Decidable
      (0 < s.refs i ∧ (s.refs i = 1 → ∀ q, ¬s.Uses q i)))

/-- A disk with one file. -/
def oneFile (x : Ino) : Dinode := if x = ⟨1, 1⟩ then .blank Fs.tFile 1 else .blank 0 0

/-- Two processes refer to a file, and one of them unlinks it. -/
def unlinked : List (Action Bool) :=
  [.iget false ⟨1, 1⟩, .iget true ⟨1, 1⟩, .ilock false 0, .next false, .next false, .next false,
    .next false, .change false 0 (.blank Fs.tFile 0), .iupdate false 0, .iunlock false 0,
    .next false]

theorem icache_is_store_unlinked : ∃ s es, run (step 10) (boot oneFile) unlinked = some (s, es) ∧
    Trace Store.Step (boot oneFile : State Bool).store unlinked s.store es := by
  obtain ⟨s, es, hrun⟩ : ∃ s es, run (step 10) (boot oneFile) unlinked = some (s, es) :=
    ⟨_, _, rfl⟩
  exact ⟨s, es, hrun, icache_is_store hrun (by decide)⟩

end Calls

end IcacheShared
end Xv6
