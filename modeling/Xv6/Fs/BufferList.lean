import Xv6.Lib.Links
import Xv6.Lib.Machine
import Xv6.Lib.Table

/-!
# The list of buffers

The buffer cache of `bio.c` with the pointers of its list: `binit`, the two loops of `bget`, and
the moves of `brelse`, for any interleaving of processes.  The flags may change at any time, as
`log_write` and the driver do it.

## Main definitions

* `Buf`, `State`, `step` — the buffers with their pointers, and the critical sections.
* `Event`, `Later` — what happened, and the order of the last releases.

## Main results

* `inv_step` — **every step keeps the list, the identities and the order**.
* `buffer_cache` — the list is circular, a block has one buffer, a buffer in use stays what it
  is, and the one that is recycled is the least recently released.
-/

namespace Xv6
namespace BufferList

open Links Machine Table

/-- `NBUF` -/
def nbuf : ℕ := 30

/-- A pointer to a `struct buf`: `bcache.head` or one of `bcache.buf`. -/
inductive Ptr
  | head
  | buf (i : Fin nbuf)
  deriving DecidableEq

/-- `struct buf`, but for the data and the queue of the driver. -/
structure Buf (P : Type*) where
  valid : Bool
  dirty : Bool
  dev : UInt32
  blockno : UInt32
  lock : Option P
  refcnt : ℕ
  prev : Ptr
  next : Ptr

/-- Where a process is. -/
inductive Pc
  | idle
  /-- In `bget`, before `acquiresleep`. -/
  | bget (b : Ptr)
  /-- In `brelse`, after `releasesleep`. -/
  | brelse (b : Ptr)
  deriving DecidableEq

structure State (P : Type*) where
  buf : Ptr → Buf P
  pc : P → Pc

inductive Action (P : Type*)
  | bget (p : P) (dev blockno : UInt32)
  | acquiresleep (p : P)
  | brelse (p : P) (i : Fin nbuf)
  /-- The rest of `brelse`. -/
  | unref (p : P)
  /-- `log_write` or the driver -/
  | flags (i : Fin nbuf) (valid dirty : Bool)

inductive Event (P : Type*)
  | found (p : P) (b : Ptr)
  | recycled (p : P) (b : Ptr)
  /-- `brelse`, and whether it was the last reference. -/
  | released (b : Ptr) (last : Bool)
  | quiet

section Code

variable {P : Type*} [DecidableEq P]

def setNext (c : Ptr → Buf P) (a b : Ptr) : Ptr → Buf P :=
  Function.update c a { c a with next := b }

def setPrev (c : Ptr → Buf P) (a b : Ptr) : Ptr → Buf P :=
  Function.update c a { c a with prev := b }

/-- `b` is put in behind the head. -/
def insert (c : Ptr → Buf P) (b : Ptr) : Ptr → Buf P :=
  let c := setNext c b (c .head).next
  let c := setPrev c b .head
  let c := setPrev c (c .head).next b
  setNext c .head b

/-- `b` is taken out. -/
def remove (c : Ptr → Buf P) (b : Ptr) : Ptr → Buf P :=
  let c := setPrev c (c b).next (c b).prev
  setNext c (c b).prev (c b).next

/-- `binit` -/
def binit (c : Ptr → Buf P) : Ptr → Buf P :=
  let c := setPrev c .head .head
  let c := setNext c .head .head
  (List.finRange nbuf).foldl (fun c i => insert c (.buf i)) c

def State.set (s : State P) (b : Ptr) (x : Buf P) : State P :=
  { s with buf := Function.update s.buf b x }

def State.goto (s : State P) (p : P) (pc : Pc) : State P :=
  { s with pc := Function.update s.pc p pc }

/-- The first loop of `bget`. -/
def lookup (s : State P) (dev blockno : UInt32) : Option (Option Ptr) :=
  scan (fun b => (s.buf b).next) .head
    (fun b => (s.buf b).dev = dev ∧ (s.buf b).blockno = blockno) (nbuf + 1) (s.buf .head).next

/-- The second loop of `bget`. -/
def unused (s : State P) : Option (Option Ptr) :=
  scan (fun b => (s.buf b).prev) .head
    (fun b => (s.buf b).refcnt = 0 ∧ (s.buf b).dirty = false) (nbuf + 1) (s.buf .head).prev

/-- `bget`, up to `acquiresleep`. -/
def bget (s : State P) (p : P) (dev blockno : UInt32) : Option (State P × Event P) :=
  match lookup s dev blockno with
  | none => none
  | some (some b) =>
      some ((s.set b { s.buf b with refcnt := (s.buf b).refcnt + 1 }).goto p (.bget b), .found p b)
  | some none =>
      match unused s with
      | none => none
      | some (some b) =>
          some ((s.set b { s.buf b with
            dev := dev, blockno := blockno, valid := false, dirty := false, refcnt := 1 }).goto p
              (.bget b), .recycled p b)
      -- panic("bget: no buffers")
      | some none => none

/-- The rest of `brelse`. -/
def unref (s : State P) (p : P) (b : Ptr) : State P × Event P :=
  let s := (s.set b { s.buf b with refcnt := (s.buf b).refcnt - 1 }).goto p .idle
  if (s.buf b).refcnt = 0 then
    ({ s with buf := insert (remove s.buf b) b }, .released b true)
  else (s, .released b false)

def step (s : State P) : Action P → Option (State P × Event P)
  | .bget p dev blockno => if s.pc p = .idle then bget s p dev blockno else none
  | .acquiresleep p =>
      match s.pc p with
      | .bget b =>
          if (s.buf b).lock = none then
            some ((s.set b { s.buf b with lock := some p }).goto p .idle, .quiet)
          else none
      | _ => none
  | .brelse p i =>
      if s.pc p = .idle ∧ (s.buf (.buf i)).lock = some p then
        some ((s.set (.buf i) { s.buf (.buf i) with lock := none }).goto p (.brelse (.buf i)),
          .quiet)
      else none
  | .unref p =>
      match s.pc p with
      | .brelse b => some (unref s p b)
      | _ => none
  | .flags i valid dirty =>
      some (s.set (.buf i) { s.buf (.buf i) with valid := valid, dirty := dirty }, .quiet)

/-- After `binit`; the memory was zero. -/
def boot : State P where
  buf := binit fun _ => ⟨false, false, 0, 0, none, 0, .head, .head⟩
  pc := fun _ => .idle

end Code

/-! ### The order of the releases -/

section Order

variable {P : Type*}

/-- Since the last time that `b` was given up for good, `a` was, too. -/
def Later (os : List (Event P)) (a b : Ptr) : Prop :=
  ∀ os₁ os₂, os = os₁ ++ .released b true :: os₂ → .released a true ∈ os₂

/-- Since the last release of `b` there was one of `a`. -/
def ReleasedLater (os : List (Event P)) (a b : Ptr) : Prop :=
  ∀ os₁ last os₂, os = os₁ ++ .released b last :: os₂ → ∃ last', .released a last' ∈ os₂

/-- A buffer that may be recycled. -/
def Buf.Free (x : Buf P) : Prop := x.refcnt = 0 ∧ x.dirty = false

end Order

/-! ### The pointers -/

section Pointers

variable {P : Type*} (c : Ptr → Buf P) (a b x : Ptr)

def nexts : Ptr → Ptr := fun x => (c x).next

def prevs : Ptr → Ptr := fun x => (c x).prev

/-- A buffer but for its pointers. -/
def Buf.core (x : Buf P) : Buf P := { x with next := .head, prev := .head }

theorem Buf.core_eq {x y : Buf P} (h : x.core = y.core) :
    x.dirty = y.dirty ∧ x.dev = y.dev ∧ x.blockno = y.blockno ∧ x.lock = y.lock ∧
      x.refcnt = y.refcnt := by
  rw [Buf.core, Buf.core, Buf.mk.injEq] at h
  obtain ⟨-, hdirty, hdev, hblockno, hlock, hrefcnt, -⟩ := h
  exact ⟨hdirty, hdev, hblockno, hlock, hrefcnt⟩

@[simp] theorem nexts_setNext : nexts (setNext c a b) = Function.update (nexts c) a b := by
  funext x
  by_cases hx : x = a
  · subst hx
    simp [nexts, setNext]
  · simp [nexts, setNext, hx]

@[simp] theorem prevs_setNext : prevs (setNext c a b) = prevs c := by
  funext x
  by_cases hx : x = a
  · subst hx
    simp [prevs, setNext]
  · simp [prevs, setNext, hx]

@[simp] theorem nexts_setPrev : nexts (setPrev c a b) = nexts c := by
  funext x
  by_cases hx : x = a
  · subst hx
    simp [nexts, setPrev]
  · simp [nexts, setPrev, hx]

@[simp] theorem prevs_setPrev : prevs (setPrev c a b) = Function.update (prevs c) a b := by
  funext x
  by_cases hx : x = a
  · subst hx
    simp [prevs, setPrev]
  · simp [prevs, setPrev, hx]

@[simp] theorem core_setNext : (setNext c a b x).core = (c x).core := by
  by_cases hx : x = a
  · subst hx
    simp [Buf.core, setNext]
  · simp [setNext, hx]

@[simp] theorem core_setPrev : (setPrev c a b x).core = (c x).core := by
  by_cases hx : x = a
  · subst hx
    simp [Buf.core, setPrev]
  · simp [setPrev, hx]

/-- The list has the elements `l`, from the head on. -/
def Ring (l : List Ptr) : Prop := Circular (nexts c) (prevs c) .head l

variable {c a b x} {l : List Ptr}

theorem core_insert : (insert c b x).core = (c x).core := by simp [insert]

/-- A buffer is moved to the front. -/
theorem core_move : (insert (remove c b) b x).core = (c x).core := by
  rw [core_insert, remove, core_setNext, core_setPrev]

theorem Ring.insert (hr : Ring c l) (hb : b ≠ .head) (hnot : b ∉ l) :
    Ring (insert c b) (b :: l) := by
  have hlink := Circular.link hr hb hnot
  have hread : (setPrev (setNext c b (c .head).next) b .head .head).next = nexts c .head := by
    have hnexts := congrFun (nexts_setPrev (setNext c b (c .head).next) b .head) .head
    rw [nexts_setNext, Function.update_of_ne (Ne.symm hb)] at hnexts
    exact hnexts
  rw [Ring, BufferList.insert]
  simp only [nexts_setNext, prevs_setNext, nexts_setPrev, prevs_setPrev, hread]
  exact hlink

theorem Ring.remove (hr : Ring c l) (hb : b ∈ l) : Ring (remove c b) (l.erase b) := by
  have hunlink := Circular.unlink hr hb
  have hne : b ≠ nexts c b := Ne.symm (Circular.next_ne hr hb)
  rw [Ring, BufferList.remove]
  simp only [nexts_setNext, prevs_setNext, nexts_setPrev, prevs_setPrev]
  have hprev : (setPrev c (c b).next (c b).prev b).prev = prevs c b := by
    have hread := congrFun (prevs_setPrev c (nexts c b) (prevs c b)) b
    rw [Function.update_of_ne hne] at hread
    exact hread
  have hnext : (setPrev c (c b).next (c b).prev b).next = nexts c b :=
    congrFun (nexts_setPrev c (c b).next (c b).prev) b
  rw [hprev, hnext]
  exact hunlink

/-- The buffers. -/
def bufs : List Ptr := (List.finRange nbuf).map .buf

theorem mem_bufs : b ∈ bufs ↔ b ≠ .head := by
  cases b with
  | head => simp [bufs]
  | buf i => simp [bufs]

theorem nodup_bufs : bufs.Nodup :=
  (List.nodup_finRange nbuf).map fun _ _ h => Ptr.buf.inj h

/-- The loop of `binit`. -/
theorem ring_foldl (is : List (Fin nbuf)) : ∀ {c : Ptr → Buf P} {l : List Ptr}, Ring c l →
    (is.map Ptr.buf ++ l).Nodup →
    Ring (is.foldl (fun c i => BufferList.insert c (.buf i)) c)
      ((is.map Ptr.buf).reverse ++ l) := by
  induction is with
  | nil => intro c l hr _; exact hr
  | cons i is ih =>
    intro c l hr hnodup
    rw [List.map_cons, List.cons_append, List.nodup_cons, List.mem_append, not_or] at hnodup
    have hins := hr.insert (b := .buf i) (by simp) hnodup.1.2
    have hrest := ih hins (by
      rw [List.nodup_middle, List.nodup_cons, List.mem_append, not_or]
      exact hnodup)
    simpa using hrest

theorem ring_binit (c : Ptr → Buf P) : Ring (binit c) bufs.reverse := by
  have hempty : Ring (setNext (setPrev c .head .head) .head .head) [] := by
    refine ⟨by simp, ?_⟩
    simp [Linked]
  have hall := ring_foldl (List.finRange nbuf) hempty (by
    rw [List.append_nil]
    exact nodup_bufs)
  rw [List.append_nil] at hall
  exact hall

theorem core_binit (c : Ptr → Buf P) (x : Ptr) : (binit c x).core = (c x).core := by
  have hfold : ∀ (is : List (Fin nbuf)) (c : Ptr → Buf P),
      (is.foldl (fun c i => BufferList.insert c (.buf i)) c x).core = (c x).core := by
    intro is
    induction is with
    | nil => intro c; rfl
    | cons i is ih =>
      intro c
      rw [List.foldl_cons, ih, core_insert]
  rw [binit, hfold, core_setNext, core_setPrev]

end Pointers

/-! ### The order -/

section Order

variable {P : Type*} {os : List (Event P)} {e : Event P} {a b : Ptr} {l : List Ptr}

/-- An event that is not the last release of `b` leaves `b` where it is. -/
theorem Later.concat (h : Later os a b) (he : e ≠ .released b true) : Later (os ++ [e]) a b := by
  intro os₁ os₂ hos
  rcases concat_split hos with ⟨-, -, rfl⟩ | ⟨os₃, rfl, hold⟩
  · exact absurd rfl he
  · exact List.mem_append_left _ (h os₁ os₃ hold)

/-- What is given up is later than all others. -/
theorem later_released (h : a ≠ b) : Later (os ++ [.released a true]) a b := by
  intro os₁ os₂ hos
  rcases concat_split hos with ⟨-, -, heq⟩ | ⟨os₃, rfl, -⟩
  · cases heq
    exact absurd rfl h
  · exact List.mem_append_right _ List.mem_cons_self

theorem pairwise_concat (hl : l.Pairwise (Later os)) (he : ∀ b ∈ l, e ≠ .released b true) :
    l.Pairwise (Later (os ++ [e])) :=
  hl.imp_of_mem fun _ hb hab => hab.concat (he _ hb)

theorem pairwise_released (hl : l.Pairwise (Later os)) (hnodup : l.Nodup) :
    (b :: l.erase b).Pairwise (Later (os ++ [.released b true])) := by
  have hb : b ∉ l.erase b := hnodup.not_mem_erase
  refine List.pairwise_cons.mpr ⟨fun a ha => later_released ?_, ?_⟩
  · rintro rfl
    exact hb ha
  · refine pairwise_concat (hl.sublist List.erase_sublist) fun a ha heq => ?_
    cases heq
    exact hb ha

/-- The last element of a list in order is the one that was released first. -/
theorem later_of_find {c : Ptr → Bool} (hl : l.Pairwise (Later os))
    (hfind : l.reverse.find? c = some b) (ha : a ∈ l) (hc : c a) (hab : a ≠ b) :
    Later os a b := by
  obtain ⟨-, l₁, l₂, hrev, hnone⟩ := List.find?_eq_some_iff_append.mp hfind
  rw [List.reverse_eq_iff] at hrev
  rw [hrev] at hl ha
  simp only [List.reverse_append, List.reverse_cons, List.append_assoc, List.singleton_append,
    List.mem_append, List.mem_reverse, List.mem_cons] at hl ha
  rcases ha with ha | rfl | ha
  · exact (List.pairwise_append.mp hl).2.2 a (List.mem_reverse.mpr ha) b List.mem_cons_self
  · exact absurd rfl hab
  · -- the search has passed these
    have hnot := hnone a ha
    rw [hc] at hnot
    cases hnot

end Order

/-! ### The invariant -/

section Invariant

variable {P : Type*}

/-- The references a process holds while it is in `bget` or `brelse`. -/
def Pc.refs (pc : Pc) (b : Ptr) : ℤ := if pc = .bget b ∨ pc = .brelse b then 1 else 0

theorem Pc.refs_nonneg (pc : Pc) (b : Ptr) : 0 ≤ pc.refs b := by
  rw [Pc.refs]
  split <;> omega

/-- Two buffers of one block are one. -/
def Unique (c : Ptr → Buf P) : Prop :=
  ∀ i j, 1 ≤ (c (.buf i)).dev → (c (.buf i)).dev = (c (.buf j)).dev →
    (c (.buf i)).blockno = (c (.buf j)).blockno → i = j

/-- The list is in the order of the releases. -/
def Ordered (c : Ptr → Buf P) (os : List (Event P)) : Prop :=
  ∃ l, Ring c l ∧ l.Perm bufs ∧ l.Pairwise (Later os)

/-- After the last process has left, the buffer has been given up. -/
def Dropped (c : Ptr → Buf P) (os : List (Event P)) : Prop :=
  ∀ b, b ≠ .head → (c b).refcnt = 0 →
    ∀ os₁ os₂, os = os₁ ++ .released b false :: os₂ → .released b true ∈ os₂

/-- The references are those of the processes. -/
def Counted [Fintype P] (s : State P) : Prop :=
  ∀ b, b ≠ .head → ((s.buf b).refcnt : ℤ) =
    ∑ p, (s.pc p).refs b + if (s.buf b).lock = none then 0 else 1

structure Inv [Fintype P] (s : State P) (os : List (Event P)) : Prop where
  order : Ordered s.buf os
  unique : Unique s.buf
  dropped : Dropped s.buf os
  counted : Counted s
  real : ∀ p, s.pc p ≠ .bget .head ∧ s.pc p ≠ .brelse .head

variable {s : State P} {os : List (Event P)} {b : Ptr}

theorem Ordered.congr {c c' : Ptr → Buf P} (h : Ordered c os)
    (hc : nexts c' = nexts c ∧ prevs c' = prevs c) : Ordered c' os := by
  obtain ⟨l, hring, hperm, hl⟩ := h
  refine ⟨l, ?_, hperm, hl⟩
  rw [Ring, hc.1, hc.2]
  exact hring

theorem Ordered.concat {c : Ptr → Buf P} {e : Event P} (h : Ordered c os)
    (he : ∀ b, e ≠ .released b true) : Ordered c (os ++ [e]) := by
  obtain ⟨l, hring, hperm, hl⟩ := h
  exact ⟨l, hring, hperm, pairwise_concat hl fun b _ => he b⟩

theorem Ordered.released {c : Ptr → Buf P} (h : Ordered c os) (hb : b ≠ .head) :
    Ordered (insert (remove c b) b) (os ++ [.released b true]) := by
  obtain ⟨l, hring, hperm, hl⟩ := h
  have hmem : b ∈ l := hperm.mem_iff.mpr (mem_bufs.mpr hb)
  have hnodup : l.Nodup := hperm.nodup_iff.mpr nodup_bufs
  exact ⟨b :: l.erase b, (hring.remove hmem).insert hb hnodup.not_mem_erase,
    (List.perm_cons_erase hmem).symm.trans hperm, pairwise_released hl hnodup⟩

/-- The first loop finds the buffer of the block. -/
theorem Ordered.lookup (h : Ordered s.buf os) (dev blockno : UInt32) : ∃ r,
    lookup s dev blockno = some r ∧
    (∀ b, r = some b → b ≠ .head ∧ (s.buf b).dev = dev ∧ (s.buf b).blockno = blockno) ∧
    (r = none → ∀ i, ¬((s.buf (.buf i)).dev = dev ∧ (s.buf (.buf i)).blockno = blockno)) := by
  obtain ⟨l, hring, hperm, -⟩ := h
  have hlen : l.length < nbuf + 1 := by
    rw [hperm.length_eq, bufs, List.length_map, List.length_finRange]
    omega
  refine ⟨_, hring.scan_next _ hlen, ?_, ?_⟩
  · intro b hb
    have hspec := List.find?_some hb
    rw [decide_eq_true_eq] at hspec
    exact ⟨mem_bufs.mp (hperm.mem_iff.mp (List.mem_of_find?_eq_some hb)), hspec⟩
  · intro hnone i hi
    have hi' := List.find?_eq_none.mp hnone (.buf i) (hperm.mem_iff.mpr (mem_bufs.mpr (by simp)))
    exact hi' (decide_eq_true hi)

/-- The second loop finds the buffer that was released first. -/
theorem Ordered.unused (h : Ordered s.buf os) : ∃ r, unused s = some r ∧
    ∀ b, r = some b → b ≠ .head ∧ (s.buf b).Free ∧
      ∀ a, a ≠ .head → (s.buf a).Free → a ≠ b → Later os a b := by
  obtain ⟨l, hring, hperm, hl⟩ := h
  have hlen : l.length < nbuf + 1 := by
    rw [hperm.length_eq, bufs, List.length_map, List.length_finRange]
    omega
  refine ⟨_, hring.scan_prev _ hlen, ?_⟩
  intro b hb
  have hspec := List.find?_some hb
  rw [decide_eq_true_eq] at hspec
  have hmem := List.mem_reverse.mp (List.mem_of_find?_eq_some hb)
  refine ⟨mem_bufs.mp (hperm.mem_iff.mp hmem), hspec, ?_⟩
  intro a ha hfree hab
  exact later_of_find hl hb (hperm.mem_iff.mpr (mem_bufs.mpr ha)) (decide_eq_true hfree) hab

theorem Dropped.concat {c c' : Ptr → Buf P} {e : Event P} (h : Dropped c os)
    (hzero : ∀ b, b ≠ .head → (c' b).refcnt = 0 → e ≠ .released b false ∧ (c b).refcnt = 0) :
    Dropped c' (os ++ [e]) := by
  intro b hb hfree os₁ os₂ hos
  obtain ⟨hne, hwas⟩ := hzero b hb hfree
  rcases concat_split hos with ⟨-, -, rfl⟩ | ⟨os₃, rfl, hold⟩
  · exact absurd rfl hne
  · exact List.mem_append_left _ (h b hb hwas os₁ os₃ hold)

variable {p : P} {x : Buf P} {pc : Pc}

/-- A new value for a buffer of the same block. -/
theorem ids_set (hid : x.dev = (s.buf b).dev ∧ x.blockno = (s.buf b).blockno) (a : Ptr) :
    ((s.set b x).buf a).dev = (s.buf a).dev ∧ ((s.set b x).buf a).blockno = (s.buf a).blockno := by
  by_cases ha : a = b
  · subst ha
    simpa [State.set] using hid
  · simp [State.set, ha]

theorem Unique.set (h : Unique s.buf)
    (hid : x.dev = (s.buf b).dev ∧ x.blockno = (s.buf b).blockno) : Unique (s.set b x).buf := by
  have hsame := ids_set hid
  intro i j hdev heq hblock
  rw [(hsame _).1] at hdev heq
  rw [(hsame _).1] at heq
  rw [(hsame _).2, (hsame _).2] at hblock
  exact h i j hdev heq hblock

/-- A new value with the same pointers. -/
theorem pointers_set (h : x.next = (s.buf b).next ∧ x.prev = (s.buf b).prev) :
    nexts (s.set b x).buf = nexts s.buf ∧ prevs (s.set b x).buf = prevs s.buf := by
  constructor
  · funext a
    by_cases ha : a = b
    · subst ha
      simpa [nexts, State.set] using h.1
    · simp [nexts, State.set, ha]
  · funext a
    by_cases ha : a = b
    · subst ha
      simpa [prevs, State.set] using h.2
    · simp [prevs, State.set, ha]

theorem Dropped.set {e : Event P} (h : Dropped s.buf os)
    (hdrop : x.refcnt = 0 → (s.buf b).refcnt = 0)
    (hleft : ∀ a, e = .released a false → a = b ∧ x.refcnt ≠ 0) :
    Dropped (s.set b x).buf (os ++ [e]) := by
  refine h.concat fun a _ hfree => ?_
  by_cases hab : a = b
  · subst hab
    simp only [State.set, Function.update_self] at hfree
    exact ⟨fun heq => (hleft a heq).2 hfree, hdrop hfree⟩
  · simp only [State.set, Function.update_of_ne hab] at hfree
    exact ⟨fun heq => hab (hleft a heq).1, hfree⟩

/-- The pointers say nothing about the blocks. -/
theorem Unique.congr {c c' : Ptr → Buf P} (h : Unique c) (hcore : ∀ a, (c' a).core = (c a).core) :
    Unique c' := by
  intro i j hdev heq hblock
  obtain ⟨-, hdevi, hblocknoi, -⟩ := Buf.core_eq (hcore (.buf i))
  obtain ⟨-, hdevj, hblocknoj, -⟩ := Buf.core_eq (hcore (.buf j))
  rw [hdevi] at hdev heq
  rw [hdevj] at heq
  rw [hblocknoi, hblocknoj] at hblock
  exact h i j hdev heq hblock

theorem real_goto [DecidableEq P] (h : ∀ q, s.pc q ≠ .bget .head ∧ s.pc q ≠ .brelse .head)
    (hpc : pc ≠ .bget .head ∧ pc ≠ .brelse .head) (q : P) :
    (s.goto p pc).pc q ≠ .bget .head ∧ (s.goto p pc).pc q ≠ .brelse .head := by
  by_cases hq : q = p
  · subst hq
    simpa only [State.goto, Function.update_self] using hpc
  · simpa only [State.goto, Function.update_of_ne hq] using h q

variable [Fintype P]

/-- A process holds what it refers to. -/
theorem Counted.le (h : Counted s) (hb : b ≠ .head) (p : P) :
    (s.pc p).refs b ≤ (s.buf b).refcnt := by
  have hle : (s.pc p).refs b ≤ ∑ q, (s.pc q).refs b :=
    Finset.single_le_sum (f := fun q => (s.pc q).refs b) (fun q _ => (s.pc q).refs_nonneg b)
      (Finset.mem_univ p)
  have hcount := h b hb
  split at hcount <;> omega

theorem Counted.congr {s' : State P} (h : Counted s)
    (hcore : ∀ a, (s'.buf a).core = (s.buf a).core) (hpc : s'.pc = s.pc) : Counted s' := by
  intro a ha
  obtain ⟨-, -, -, hlock, hrefcnt⟩ := Buf.core_eq (hcore a)
  rw [hlock, hrefcnt, hpc]
  exact h a ha

/-- The last release moves the buffer to the front. -/
theorem inv_released (hb : b ≠ .head) (horder : Ordered s.buf os) (hunique : Unique s.buf)
    (hdropped : ∀ a, a ≠ .head → a ≠ b → (s.buf a).refcnt = 0 →
      ∀ os₁ os₂, os = os₁ ++ .released a false :: os₂ → .released a true ∈ os₂)
    (hcount : Counted s) (hreal : ∀ q, s.pc q ≠ .bget .head ∧ s.pc q ≠ .brelse .head) :
    Inv { s with buf := insert (remove s.buf b) b } (os ++ [.released b true]) := by
  have hcore : ∀ a, (insert (remove s.buf b) b a).core = (s.buf a).core := fun a => core_move
  refine ⟨horder.released hb, hunique.congr hcore, ?_, hcount.congr hcore rfl, hreal⟩
  intro a ha hfree os₁ os₂ hos
  rw [(Buf.core_eq (hcore a)).2.2.2.2] at hfree
  rcases concat_split hos with ⟨-, -, heq⟩ | ⟨os₃, rfl, hold⟩
  · cases heq
  · by_cases hab : a = b
    · rw [hab]
      exact List.mem_append_right _ List.mem_cons_self
    · exact List.mem_append_left _ (hdropped a ha hab hfree os₁ os₃ hold)

theorem inv_boot : Inv (P := P) boot [] where
  order := by
    refine ⟨bufs.reverse, ring_binit _, List.reverse_perm bufs, ?_⟩
    refine List.pairwise_of_forall fun a b os₁ os₂ hos => ?_
    cases os₁ <;> cases hos
  unique := by
    intro i j hdev
    rw [boot, (Buf.core_eq (core_binit _ (.buf i))).2.1] at hdev
    have hzero : ¬(1 : UInt32) ≤ 0 := by decide
    exact absurd hdev hzero
  dropped := by
    intro b _ _ os₁ os₂ hos
    cases os₁ <;> cases hos
  counted := by
    intro b _
    obtain ⟨-, -, -, hlock, hrefcnt⟩ := Buf.core_eq (core_binit (P := P)
      (fun _ => ⟨false, false, 0, 0, none, 0, .head, .head⟩) b)
    rw [boot, hlock, hrefcnt]
    simp [Pc.refs]
  real := fun q => ⟨Pc.noConfusion, Pc.noConfusion⟩

variable [DecidableEq P]

/-- A process changes the count of a buffer and goes on. -/
theorem Counted.move (h : Counted s) (hother : ∀ a, a ≠ b → pc.refs a = (s.pc p).refs a)
    (hself : (x.refcnt : ℤ) - (if x.lock = none then 0 else 1) - pc.refs b =
      (s.buf b).refcnt - (if (s.buf b).lock = none then 0 else 1) - (s.pc p).refs b) :
    Counted ((s.set b x).goto p pc) := by
  intro a ha
  have hsum : ∑ q, (((s.set b x).goto p pc).pc q).refs a =
      ∑ q, (s.pc q).refs a - (s.pc p).refs a + pc.refs a :=
    sum_update (fun pc => pc.refs a) s.pc p pc
  have hold := h a ha
  rw [hsum]
  by_cases hab : a = b
  · subst hab
    simp only [State.goto, State.set, Function.update_self]
    omega
  · simp only [State.goto, State.set, Function.update_of_ne hab]
    rw [hother a hab]
    omega

/-- A step of a process that leaves the pointers and the identities alone. -/
theorem Inv.move {e : Event P} (h : Inv s os)
    (hptr : x.next = (s.buf b).next ∧ x.prev = (s.buf b).prev) (hunique : Unique (s.set b x).buf)
    (hcount : Counted ((s.set b x).goto p pc)) (hpc : pc ≠ .bget .head ∧ pc ≠ .brelse .head)
    (hdrop : x.refcnt = 0 → (s.buf b).refcnt = 0) (hlast : ∀ a, e ≠ .released a true)
    (hleft : ∀ a, e = .released a false → a = b ∧ x.refcnt ≠ 0) :
    Inv ((s.set b x).goto p pc) (os ++ [e]) where
  order := (h.order.congr (pointers_set hptr)).concat hlast
  unique := hunique
  dropped := h.dropped.set hdrop hleft
  counted := hcount
  real := real_goto h.real hpc

/-- `bget` -/
theorem inv_bget {dev blockno : UInt32} {s' : State P} {e : Event P} (h : Inv s os)
    (hidle : s.pc p = .idle) (hs : bget s p dev blockno = some (s', e)) : Inv s' (os ++ [e]) := by
  obtain ⟨r, hlookup, hfound, hnone⟩ := h.order.lookup dev blockno
  rw [bget, hlookup] at hs
  have hother : ∀ b a : Ptr, a ≠ b → (Pc.bget b).refs a = (s.pc p).refs a := by
    intro b a hab
    simp [Pc.refs, hidle, Ne.symm hab]
  cases r with
  | some b =>
    cases hs
    obtain ⟨hb, -, -⟩ := hfound b rfl
    refine h.move ⟨rfl, rfl⟩ (h.unique.set ⟨rfl, rfl⟩) (h.counted.move (hother b) ?_)
      (by simp [hb]) (by simp) (by simp) (by simp)
    simp [Pc.refs, hidle]
    ring
  | none =>
    obtain ⟨r, hunused, hfree⟩ := h.order.unused
    simp only [hunused] at hs
    cases r with
    | none => cases hs
    | some b =>
      cases hs
      obtain ⟨hb, ⟨hzero, -⟩, -⟩ := hfree b rfl
      refine h.move ⟨rfl, rfl⟩ ?_ (h.counted.move (hother b) ?_)
        (by simp [hb]) (by simp) (by simp) (by simp)
      · -- no other buffer has the block
        intro i j hdev heq hblock
        have hnew := hnone rfl
        have hold := h.unique i j
        simp only [State.set, Function.update_apply] at hdev heq hblock
        by_cases hi : Ptr.buf i = b
        · by_cases hj : Ptr.buf j = b
          · exact Ptr.buf.inj (hi.trans hj.symm)
          · rw [if_pos hi, if_neg hj] at heq hblock
            exact absurd ⟨heq.symm, hblock.symm⟩ (hnew j)
        · by_cases hj : Ptr.buf j = b
          · rw [if_neg hi, if_pos hj] at heq hblock
            exact absurd ⟨heq, hblock⟩ (hnew i)
          · rw [if_neg hi, if_neg hj] at heq hblock
            rw [if_neg hi] at hdev
            exact hold hdev heq hblock
      · -- nobody had the buffer
        have hcount := h.counted b hb
        have hnonneg : 0 ≤ ∑ q, (s.pc q).refs b :=
          Finset.sum_nonneg fun q _ => (s.pc q).refs_nonneg b
        have hlock : (s.buf b).lock = none := by
          by_contra hheld
          rw [hzero, if_neg hheld] at hcount
          omega
        simp [Pc.refs, hidle, hzero, hlock]

/-- The rest of `brelse`. -/
theorem inv_unref (h : Inv s os) (hpc : s.pc p = .brelse b) :
    Inv (unref s p b).1 (os ++ [(unref s p b).2]) := by
  have hb : b ≠ .head := by
    rintro rfl
    exact (h.real p).2 hpc
  have hpos : 0 < (s.buf b).refcnt := by
    have hle := h.counted.le hb p
    rw [hpc, Pc.refs, if_pos (.inr rfl)] at hle
    omega
  have hcount :
      Counted ((s.set b { s.buf b with refcnt := (s.buf b).refcnt - 1 }).goto p .idle) := by
    refine h.counted.move (fun a hab => ?_) ?_
    · simp [Pc.refs, hpc, Ne.symm hab]
    · simp only [Pc.refs, hpc, or_true, if_true, reduceCtorEq, or_self, if_false]
      omega
  have hid : Unique (s.set b { s.buf b with refcnt := (s.buf b).refcnt - 1 }).buf :=
    h.unique.set ⟨rfl, rfl⟩
  have hreal := real_goto (p := p) h.real
    (by simp : Pc.idle ≠ .bget .head ∧ Pc.idle ≠ .brelse .head)
  rw [unref]
  split
  · next hlast =>
    simp only [State.goto, State.set, Function.update_self] at hlast
    refine inv_released hb (h.order.congr (pointers_set ⟨rfl, rfl⟩)) hid ?_ hcount hreal
    intro a ha hab hfree
    simp only [State.goto, State.set, Function.update_of_ne hab] at hfree
    exact h.dropped a ha hfree
  · next hmore =>
    simp only [State.goto, State.set, Function.update_self] at hmore
    refine h.move ⟨rfl, rfl⟩ hid hcount (by simp) ?_ (by simp) ?_
    · intro hzero
      exact absurd hzero hmore
    · intro a heq
      cases heq
      exact ⟨rfl, hmore⟩

/-- **Every step keeps the list, the identities and the order.** -/
theorem inv_step {a : Action P} {s' : State P} {e : Event P} (h : Inv s os)
    (hs : step s a = some (s', e)) : Inv s' (os ++ [e]) := by
  cases a with
  | bget p dev blockno =>
    rw [step] at hs
    split at hs
    · next hidle => exact inv_bget h hidle hs
    · cases hs
  | acquiresleep p =>
    rw [step] at hs
    split at hs
    · next b hpc =>
      split at hs
      · next hfree =>
        cases hs
        refine h.move ⟨rfl, rfl⟩ (h.unique.set ⟨rfl, rfl⟩) (h.counted.move (fun a hab => ?_) ?_)
          (by simp) id (by simp) (by simp)
        · simp [Pc.refs, hpc, Ne.symm hab]
        · -- the lock takes the reference over
          simp [Pc.refs, hpc, hfree]
      · cases hs
    · cases hs
  | brelse p i =>
    rw [step] at hs
    split at hs
    · next hheld =>
      cases hs
      obtain ⟨hidle, hlock⟩ := hheld
      refine h.move ⟨rfl, rfl⟩ (h.unique.set ⟨rfl, rfl⟩) (h.counted.move (fun a hab => ?_) ?_)
        (by simp) id (by simp) (by simp)
      · simp [Pc.refs, hidle, Ne.symm hab]
      · simp [Pc.refs, hidle, hlock]
    · cases hs
  | unref p =>
    rw [step] at hs
    split at hs
    · next b hpc =>
      have hinv := inv_unref h hpc
      rw [Option.some.inj hs] at hinv
      exact hinv
    · cases hs
  | flags i valid dirty =>
    cases hs
    have hquiet : ∀ (b : Ptr) last, Event.quiet (P := P) ≠ .released b last := by simp
    refine ⟨(h.order.congr (pointers_set (by exact ⟨rfl, rfl⟩))).concat (hquiet · true),
      h.unique.set ⟨rfl, rfl⟩, h.dropped.set id fun a heq => absurd heq (hquiet a false), ?_,
      h.real⟩
    intro a ha
    by_cases hab : a = .buf i
    · subst hab
      simpa only [State.set, Function.update_self] using h.counted _ ha
    · simpa only [State.set, Function.update_of_ne hab] using h.counted a ha

/-- **A buffer in use keeps its block.** -/
theorem Inv.keeps {a : Action P} {s' : State P} {e : Event P} (h : Inv s os)
    (hs : step s a = some (s', e)) (huse : 0 < (s.buf b).refcnt ∨ (s.buf b).dirty = true) :
    (s'.buf b).dev = (s.buf b).dev ∧ (s'.buf b).blockno = (s.buf b).blockno := by
  cases a with
  | bget p dev blockno =>
    obtain ⟨r, hlookup, -⟩ := h.order.lookup dev blockno
    obtain ⟨r', hunused, hfree⟩ := h.order.unused
    rw [step] at hs
    split at hs
    · rw [bget, hlookup] at hs
      cases r with
      | some b' =>
        cases hs
        exact ids_set (by exact ⟨rfl, rfl⟩) b
      | none =>
        simp only [hunused] at hs
        cases r' with
        | none => cases hs
        | some b' =>
          cases hs
          obtain ⟨-, ⟨hzero, hclean⟩, -⟩ := hfree b' rfl
          have hne : b ≠ b' := by
            rintro rfl
            rw [hzero, hclean] at huse
            simp at huse
          simp [State.goto, State.set, hne]
    · cases hs
  | acquiresleep p =>
    rw [step] at hs
    split at hs
    · split at hs
      · cases hs
        exact ids_set (by exact ⟨rfl, rfl⟩) b
      · cases hs
    · cases hs
  | brelse p i =>
    rw [step] at hs
    split at hs
    · cases hs
      exact ids_set (by exact ⟨rfl, rfl⟩) b
    · cases hs
  | unref p =>
    rw [step] at hs
    split at hs
    · next b' hpc =>
      have hs' := congrArg Prod.fst (Option.some.inj hs)
      subst hs'
      rw [unref]
      split
      · -- the pointers move
        obtain ⟨-, hdev, hblockno, -⟩ := Buf.core_eq (core_move (c := ((s.set b' { s.buf b' with
          refcnt := (s.buf b').refcnt - 1 }).goto p .idle).buf) (b := b') (x := b))
        rw [hdev, hblockno]
        exact ids_set (by exact ⟨rfl, rfl⟩) b
      · exact ids_set (by exact ⟨rfl, rfl⟩) b
    · cases hs
  | flags i valid dirty =>
    cases hs
    exact ids_set (by exact ⟨rfl, rfl⟩) b

theorem inv_run {is : List (Action P)} (h : run step boot is = some (s, os)) : Inv s os :=
  run_history_invariant Inv (fun _ _ _ _ hinv hs => inv_step hinv hs) is boot [] (s, os) inv_boot h

/-- **What is recycled was released before all others.** -/
theorem Inv.recycled {a : Action P} {s' : State P} (h : Inv s os)
    (hs : step s a = some (s', .recycled p b)) : b ≠ .head ∧ (s.buf b).Free ∧
      ∀ a, a ≠ .head → (s.buf a).Free → a ≠ b → ReleasedLater os a b := by
  obtain ⟨b', hunused, rfl⟩ : ∃ b', unused s = some (some b') ∧ b' = b := by
    cases a with
    | bget q dev blockno =>
      simp only [step, bget] at hs
      grind
    | acquiresleep q => simp only [step] at hs; grind
    | brelse q i => simp only [step] at hs; grind
    | unref q => simp only [step, unref] at hs; grind
    | flags i valid dirty => cases hs
  obtain ⟨r, hr, hfound⟩ := h.order.unused
  rw [hunused] at hr
  obtain ⟨hb, hfree, hlater⟩ := hfound b' (Option.some.inj hr).symm
  refine ⟨hb, hfree, fun a ha hafree hab os₁ last os₂ hos => ?_⟩
  have hab' := hlater a ha hafree hab
  cases last with
  | true => exact ⟨true, hab' os₁ os₂ hos⟩
  | false =>
    -- after that release there was the last one
    obtain ⟨os₃, os₄, rfl⟩ := List.append_of_mem (h.dropped b' hb hfree.1 os₁ os₂ hos)
    have hsplit : os = (os₁ ++ .released b' false :: os₃) ++ .released b' true :: os₄ := by
      rw [hos, List.append_assoc, List.cons_append]
    exact ⟨true, List.mem_append_right _ (List.mem_cons_of_mem _ (hab' _ _ hsplit))⟩

/-- **The buffer cache.**  In every state of every run the list is a circular permutation of the
buffers, and no block has two.  The loops of `bget` end.  A buffer that is referred to or dirty
keeps its block, and the one that is recycled is the least recently released. -/
theorem buffer_cache {is : List (Action P)} (h : run step boot is = some (s, os)) :
    (∃ l, Ring s.buf l ∧ l.Perm bufs) ∧
    (∀ b, prevs s.buf (nexts s.buf b) = b ∧ nexts s.buf (prevs s.buf b) = b) ∧
    Unique s.buf ∧
    (∀ dev blockno, lookup s dev blockno ≠ none ∧ unused s ≠ none) ∧
    ∀ a s' e, step s a = some (s', e) →
      (∀ b, 0 < (s.buf b).refcnt ∨ (s.buf b).dirty = true →
        (s'.buf b).dev = (s.buf b).dev ∧ (s'.buf b).blockno = (s.buf b).blockno) ∧
      ∀ p b, e = .recycled p b → b ≠ .head ∧ (s.buf b).Free ∧
        ∀ a, a ≠ .head → (s.buf a).Free → a ≠ b → ReleasedLater os a b := by
  have hinv := inv_run h
  obtain ⟨l, hring, hperm, -⟩ := hinv.order
  have hmem : ∀ b, b ∈ Ptr.head :: l := by
    intro b
    rw [List.mem_cons, hperm.mem_iff, mem_bufs]
    exact Classical.em _
  refine ⟨⟨l, hring, hperm⟩, fun b => ⟨?_, ?_⟩, hinv.unique, fun dev blockno => ⟨?_, ?_⟩, ?_⟩
  · exact Circular.inverse hring (hmem b)
  · exact Circular.inverse' hring (hmem b)
  · obtain ⟨r, hr, -⟩ := hinv.order.lookup dev blockno
    simp [hr]
  · obtain ⟨r, hr, -⟩ := hinv.order.unused
    simp [hr]
  · intro a s' e hs
    refine ⟨fun b huse => hinv.keeps hs huse, ?_⟩
    rintro p b rfl
    exact hinv.recycled hs

/-- A buffer is taken for a block and given back. -/
theorem buffer_cache_one_block : ∃ s os, run step (boot (P := Fin 1))
    [.bget 0 1 5, .acquiresleep 0, .brelse 0 ⟨0, by decide⟩, .unref 0] = some (s, os) ∧
    ∃ l, Ring s.buf l ∧ l.Perm bufs := by
  have hrun : (run step (boot (P := Fin 1))
      [.bget 0 1 5, .acquiresleep 0, .brelse 0 ⟨0, by decide⟩, .unref 0]).isSome := by
    decide +kernel
  obtain ⟨⟨s, os⟩, hs⟩ := Option.isSome_iff_exists.mp hrun
  exact ⟨s, os, hs, (buffer_cache hs).1⟩

end Invariant

end BufferList
end Xv6
