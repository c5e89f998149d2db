import Xv6.Fs.Log

/-!
# The buffer cache

The cache of `bio.c` over the disk of `memide.c`: a list of buffers, the most recently used
one first, each with the two flags that say whether it holds what is on the disk and
whether the disk is behind it.  A buffer without references may be taken for another block,
unless it is dirty.

The functions are cut where they let go of `bcache.lock` or may sleep.

* `Buf`, `Cache` — `struct buf` and `bcache`, with the disk.
* `iderw`, `bget`, `bread`, `bwrite`, `releasesleep`, `unref` — the functions.
* `bget_cases`, `bread_cases`, `bwrite_cases` — all that they can do.
-/

namespace Xv6
namespace BufferCache

open Log

/-- `struct buf`.  `blk` is the `blockno` of a buffer that has been used, whose `dev` is
`ROOTDEV` then. -/
structure Buf (P : Type*) where
  blk : Option UInt32
  valid : Bool
  dirty : Bool
  refcnt : ℕ
  lock : Option P
  data : Block

/-- `bcache` and the disk; `lru` is the list from `head.next` on. -/
structure Cache (P : Type*) where
  buf : ℕ → Buf P
  lru : List ℕ
  disk : UInt32 → Block
  disksize : ℕ

/-- Why a call does not return now. -/
inductive Stop
  | panic (msg : String)
  /-- It sleeps on the lock of the buffer. -/
  | sleep

variable {P : Type*}

/-- The buffer `i` with other contents. -/
def Cache.set (c : Cache P) (i : ℕ) (x : Buf P) : Cache P :=
  { c with buf := Function.update c.buf i x }

@[simp] theorem Cache.set_lru (c : Cache P) (i : ℕ) (x : Buf P) : (c.set i x).lru = c.lru := rfl

@[simp] theorem Cache.set_disk (c : Cache P) (i : ℕ) (x : Buf P) : (c.set i x).disk = c.disk := rfl

@[simp] theorem Cache.set_buf_self (c : Cache P) (i : ℕ) (x : Buf P) : (c.set i x).buf i = x :=
  Function.update_self _ _ _

theorem Cache.set_buf_of_ne (c : Cache P) {i j : ℕ} (x : Buf P) (h : j ≠ i) :
    (c.set i x).buf j = c.buf j := Function.update_of_ne h _ _

/-- What a new content of a buffer keeps, every buffer keeps. -/
theorem Cache.apply_set {α : Type*} {c : Cache P} {i : ℕ} {x : Buf P} (f : Buf P → α)
    (h : f x = f (c.buf i)) (j : ℕ) : f ((c.set i x).buf j) = f (c.buf j) := by
  rcases eq_or_ne j i with rfl | hne
  · rw [Cache.set_buf_self, h]
  · rw [Cache.set_buf_of_ne _ _ hne]

/-! ### The code -/

/-- The first loop of `bget`: the buffer of the block. -/
def lookup (c : Cache P) (b : UInt32) : Option ℕ := c.lru.find? fun i => (c.buf i).blk = some b

/-- The second loop of `bget`, from the other end: a buffer to recycle. -/
def unused (c : Cache P) : Option ℕ :=
  c.lru.reverse.find? fun i => (c.buf i).refcnt = 0 ∧ (c.buf i).dirty = false

/-- `bget`, up to `acquiresleep`: the buffer, and the block that it held if it was recycled. -/
def bget (b : UInt32) (c : Cache P) : Except Stop (Cache P × ℕ × Option UInt32) :=
  match lookup c b with
  | some i => .ok (c.set i { c.buf i with refcnt := (c.buf i).refcnt + 1 }, i, none)
  | none =>
      match unused c with
      | some i =>
          .ok (c.set i { c.buf i with blk := some b, valid := false, dirty := false, refcnt := 1 },
            i, (c.buf i).blk)
      | none => .error (.panic "bget: no buffers")

variable [DecidableEq P]

/-- `iderw`, with the block write that it makes. -/
def iderw (p : P) (i : ℕ) (c : Cache P) : Except Stop (Cache P × Option (UInt32 × Block)) :=
  if (c.buf i).lock ≠ some p then .error (.panic "iderw: buf not locked")
  else if (c.buf i).valid = true ∧ (c.buf i).dirty = false then
    .error (.panic "iderw: nothing to do")
  else
    match (c.buf i).blk with
    | none => .error (.panic "iderw: request not for disk 1")
    | some b =>
        if c.disksize ≤ b.toNat then .error (.panic "iderw: block out of range")
        else if (c.buf i).dirty then
          .ok ({ c.set i { c.buf i with dirty := false, valid := true } with
            disk := Function.update c.disk b (c.buf i).data }, some (b, (c.buf i).data))
        else .ok (c.set i { c.buf i with data := c.disk b, valid := true }, none)

/-- `acquiresleep` of the buffer's lock, once around its loop. -/
def acquiresleep (p : P) (i : ℕ) (c : Cache P) : Except Stop (Cache P) :=
  match (c.buf i).lock with
  | none => .ok (c.set i { c.buf i with lock := some p })
  | some _ => .error .sleep

/-- The rest of `bget`, and of `bread`. -/
def bread (p : P) (i : ℕ) (c : Cache P) : Except Stop (Cache P × Option (UInt32 × Block)) :=
  match acquiresleep p i c with
  | .error e => .error e
  | .ok c => if (c.buf i).valid then .ok (c, none) else iderw p i c

/-- `bwrite`. -/
def bwrite (p : P) (i : ℕ) (c : Cache P) : Except Stop (Cache P × Option (UInt32 × Block)) :=
  if (c.buf i).lock ≠ some p then .error (.panic "bwrite")
  else iderw p i (c.set i { c.buf i with dirty := true })

/-- `brelse`, up to `releasesleep`. -/
def releasesleep (p : P) (i : ℕ) (c : Cache P) : Except Stop (Cache P) :=
  if (c.buf i).lock ≠ some p then .error (.panic "brelse")
  else .ok (c.set i { c.buf i with lock := none })

/-- The rest of `brelse`. -/
def unref (i : ℕ) (c : Cache P) : Cache P :=
  let c := c.set i { c.buf i with refcnt := (c.buf i).refcnt - 1 }
  if (c.buf i).refcnt = 0 then { c with lru := i :: c.lru.erase i } else c

/-! ### What they can do -/

omit [DecidableEq P] in
/-- `bget` finds the block, or recycles a buffer. -/
theorem bget_cases {b : UInt32} {c c' : Cache P} {i : ℕ} {d : Option UInt32}
    (h : bget b c = .ok (c', i, d)) :
    ((c.buf i).blk = some b ∧ d = none ∧
      c' = c.set i { c.buf i with refcnt := (c.buf i).refcnt + 1 }) ∨
    ((∀ j ∈ c.lru, (c.buf j).blk ≠ some b) ∧ i ∈ c.lru ∧ (c.buf i).refcnt = 0 ∧
      (c.buf i).dirty = false ∧ d = (c.buf i).blk ∧
      c' = c.set i
        { c.buf i with blk := some b, valid := false, dirty := false, refcnt := 1 }) := by
  rw [bget] at h
  cases hfind : lookup c b with
  | some j =>
    rw [hfind] at h
    cases h
    exact .inl ⟨by simpa using List.find?_some hfind, rfl, rfl⟩
  | none =>
    rw [hfind] at h
    cases hfree : unused c with
    | none =>
      rw [hfree] at h
      cases h
    | some j =>
      rw [hfree] at h
      cases h
      have hfree' := List.find?_some hfree
      simp only [decide_eq_true_eq] at hfree'
      refine .inr ⟨fun j hj heq => ?_, ?_, hfree'.1, hfree'.2, rfl, rfl⟩
      · exact absurd heq (by simpa using List.find?_eq_none.mp hfind j hj)
      · exact List.mem_reverse.mp (List.mem_of_find?_eq_some hfree)

/-- `iderw` writes a dirty buffer to its block, and reads the block into another. -/
theorem iderw_cases {p : P} {i : ℕ} {c c' : Cache P} {w : Option (UInt32 × Block)}
    (h : iderw p i c = .ok (c', w)) :
    ∃ b, (c.buf i).blk = some b ∧
      (((c.buf i).dirty = true ∧ w = some (b, (c.buf i).data) ∧
        c' = { c.set i { c.buf i with dirty := false, valid := true } with
          disk := Function.update c.disk b (c.buf i).data }) ∨
      ((c.buf i).dirty = false ∧ w = none ∧
        c' = c.set i { c.buf i with data := c.disk b, valid := true })) := by
  rw [iderw] at h
  split at h
  · cases h
  · split at h
    · cases h
    · split at h
      · cases h
      · next b hb =>
        refine ⟨b, hb, ?_⟩
        split at h
        · cases h
        · cases hdirty : (c.buf i).dirty with
          | true =>
            rw [hdirty, if_pos rfl] at h
            cases h
            exact .inl ⟨rfl, rfl, rfl⟩
          | false =>
            rw [hdirty, if_neg Bool.false_ne_true] at h
            cases h
            exact .inr ⟨rfl, rfl, rfl⟩

/-- `bread` of a buffer that is valid if it is dirty locks it, and perhaps reads into it. -/
theorem bread_cases {p : P} {i : ℕ} {c c' : Cache P} {w : Option (UInt32 × Block)}
    (hvalid : (c.buf i).dirty = true → (c.buf i).valid = true) (h : bread p i c = .ok (c', w)) :
    (c.buf i).lock = none ∧ w = none ∧
      (((c.buf i).valid = true ∧ c' = c.set i { c.buf i with lock := some p }) ∨
        ∃ data, (c.buf i).valid = false ∧
          c' = c.set i { c.buf i with lock := some p, data := data, valid := true }) := by
  rw [bread, acquiresleep] at h
  cases hlock : (c.buf i).lock with
  | some q =>
    rw [hlock] at h
    cases h
  | none =>
    rw [hlock] at h
    refine ⟨rfl, ?_⟩
    dsimp only at h
    rw [Cache.set_buf_self] at h
    cases hv : (c.buf i).valid with
    | true =>
      rw [hv, if_pos rfl] at h
      cases h
      exact ⟨rfl, .inl ⟨rfl, by rw [← hv]⟩⟩
    | false =>
      rw [hv, if_neg Bool.false_ne_true] at h
      obtain ⟨b, -, ⟨hdirty, -, -⟩ | ⟨-, rfl, rfl⟩⟩ := iderw_cases h
      · rw [Cache.set_buf_self] at hdirty
        rw [hvalid hdirty] at hv
        contradiction
      · refine ⟨rfl, .inr ⟨c.disk b, rfl, ?_⟩⟩
        simp [Cache.set]

/-- `bwrite` writes the buffer to its block. -/
theorem bwrite_cases {p : P} {i : ℕ} {c c' : Cache P} {w : Option (UInt32 × Block)}
    (h : bwrite p i c = .ok (c', w)) :
    ∃ b, (c.buf i).blk = some b ∧ (c.buf i).lock = some p ∧ w = some (b, (c.buf i).data) ∧
      c' = { c.set i { c.buf i with dirty := false, valid := true } with
        disk := Function.update c.disk b (c.buf i).data } := by
  rw [bwrite] at h
  split at h
  · cases h
  · next hlock =>
    obtain ⟨b, hb, ⟨-, rfl, rfl⟩ | ⟨hdirty, -, -⟩⟩ := iderw_cases h
    · rw [Cache.set_buf_self] at hb
      refine ⟨b, hb, not_not.mp hlock, by rw [Cache.set_buf_self], ?_⟩
      simp [Cache.set]
    · rw [Cache.set_buf_self] at hdirty
      contradiction

end BufferCache
end Xv6
