import Xv6.Lib.Bytes
import Xv6.Lib.Counter
import Xv6.Lib.Machine

/-!
# Pipes

A pipe of `pipe.c` is a ring of 512 bytes between any number of readers and writers.  Each
call holds the lock of the pipe, except while it sleeps, so a step is what a process does
from one such point to the next.  A process that sleeps may go on at any time, which allows
more than `wakeup` does.

## Main definitions

* `Pipe`, `put`, `take` — the ring, and one byte in and out of it.
* `writeLoop`, `read`, `close` — `pipewrite`, `piperead` and `pipeclose`.
* `step` — a step of a process; `Event` — what it has done.
* `queue` — the bytes in the ring.
* `stored`, `fetched`, `storedBy` — the bytes that went in and out, and those of one call.

## Main results

* `writeLoop_spec`, `readLoop_spec` — the loops of the calls, in terms of the queue.
* `inv_step` — the invariant between the ring and the history.
* `pipe_fifo` — **a pipe is a FIFO channel**.
-/

namespace Xv6

/-- `struct pipe`, without its lock. -/
structure Pipe where
  data : Vector UInt8 512
  nread : UInt32
  nwrite : UInt32
  readopen : Bool
  writeopen : Bool

namespace Pipe

open Bytes Counter Machine

/-! ### The code -/

/-- `PIPESIZE` -/
def pipeSize : UInt32 := 512

/-- `p->data[p->nwrite++ % PIPESIZE] = b` -/
def put (p : Pipe) (b : UInt8) : Pipe :=
  { p with data := patch p.data (p.nwrite.toNat % 512) [b], nwrite := p.nwrite + 1 }

/-- The byte of `p->data[p->nread++ % PIPESIZE]`. -/
def head (p : Pipe) : UInt8 := byteAt p.data (p.nread.toNat % 512)

def take (p : Pipe) : Pipe := { p with nread := p.nread + 1 }

/-- The loop of `pipewrite` for the bytes that are left: the pipe, the bytes that were
stored, and the result, or nothing if the process sleeps. -/
def writeLoop (killed : Bool) (n : ℤ) : List UInt8 → Pipe → Pipe × List UInt8 × Option ℤ
  | [], p => (p, [], some n)
  | b :: bs, p =>
      if p.nwrite = p.nread + pipeSize then
        (p, [], if p.readopen = false ∨ killed = true then some (-1) else none)
      else
        let (p, done, r) := writeLoop killed n bs (p.put b)
        (p, b :: done, r)

/-- The loop of `piperead` that copies. -/
def readLoop : ℕ → Pipe → Pipe × List UInt8
  | 0, p => (p, [])
  | k + 1, p =>
      if p.nread = p.nwrite then (p, [])
      else
        let (p', bs) := readLoop k p.take
        (p', p.head :: bs)

/-- `piperead`, once around its first loop: the pipe, the bytes that were copied, and the
result, or nothing if the process sleeps. -/
def read (killed : Bool) (n : ℤ) (p : Pipe) : Pipe × List UInt8 × Option ℤ :=
  if p.nread = p.nwrite ∧ p.writeopen = true then
    (p, [], if killed then some (-1) else none)
  else
    let (p, bs) := readLoop n.toNat p
    (p, bs, some bs.length)

/-- `pipeclose` of the end for writing, or of the one for reading. -/
def close (writable : Bool) (p : Pipe) : Pipe :=
  if writable then { p with writeopen := false } else { p with readopen := false }

/-- The page of the pipe has been freed. -/
def freed (p : Pipe) : Bool := !p.readopen && !p.writeopen

/-! ### Processes -/

inductive Call
  | pipewrite (addr : ℕ → UInt8) (n : ℤ)
  | piperead (n : ℤ)
  | pipeclose (writable : Bool)

/-- A process is not in a call, or it sleeps in one, with the variable `i` of it. -/
inductive Pc
  | idle
  | asleep (c : Call) (i : ℕ)

inductive Action
  | call (c : Call)
  /-- The call in which the process sleeps goes on. -/
  | resume

/-- What a step has done: a result is there if the call has returned. -/
structure Event (P : Type*) where
  proc : P
  call : Call
  first : Bool
  stored : List UInt8
  fetched : List UInt8
  result : Option ℤ

structure State (P : Type*) where
  pipe : Pipe
  pc : P → Pc

/-- The bytes that a `pipewrite` is to store. -/
def bytes (addr : ℕ → UInt8) (n : ℤ) : List UInt8 := (List.range n.toNat).map addr

/-- A call goes on from the value `i` of its variable: the pipe, the bytes that were stored
and copied, and the result. -/
def go (killed : Bool) (i : ℕ) (p : Pipe) : Call → Pipe × List UInt8 × List UInt8 × Option ℤ
  | .pipewrite addr n =>
      let (p, bs, r) := writeLoop killed n ((bytes addr n).drop i) p
      (p, bs, [], r)
  | .piperead n =>
      let (p, bs, r) := read killed n p
      (p, [], bs, r)
  | .pipeclose writable => (p.close writable, [], [], some 0)

section Step

variable {P : Type*} [DecidableEq P]

/-- The process `q` is in the call `c`. -/
def State.go (s : State P) (q : P) (killed first : Bool) (c : Call) (i : ℕ) : State P × Event P :=
  let (p, st, ft, r) := Pipe.go killed i s.pipe c
  ({ pipe := p
     pc := Function.update s.pc q (if r = none then .asleep c (i + st.length) else .idle) },
    ⟨q, c, first, st, ft, r⟩)

/-- A process takes a step; the flag is its `killed`. -/
def step (s : State P) (i : P × Bool × Action) : Option (State P × Event P) :=
  if s.pipe.freed then none
  else
    match i.2.2, s.pc i.1 with
    | .call c, .idle => some (s.go i.1 i.2.1 true c 0)
    | .resume, .asleep c k => some (s.go i.1 i.2.1 false c k)
    | _, _ => none

/-- A pipe after `pipealloc`, in a page with any content. -/
def boot (data : Vector UInt8 512) : State P := ⟨⟨data, 0, 0, true, true⟩, fun _ => .idle⟩

end Step

/-! ### The queue -/

section Queue

variable {p : Pipe}

/-- The bytes between the two counters. -/
def queue (p : Pipe) : List UInt8 :=
  segment (fun c => byteAt p.data (c.toNat % 512)) p.nread (dist p.nread p.nwrite)

@[simp] theorem length_queue (p : Pipe) : p.queue.length = dist p.nread p.nwrite :=
  length_segment _ _ _

theorem full_iff :
    p.nwrite = p.nread + pipeSize ↔ dist p.nread p.nwrite = 512 := by
  have hto : UInt32.ofNat 512 = pipeSize := rfl
  constructor
  · intro heq
    rw [heq, ← hto, dist_add_ofNat _ (by omega)]
  · intro heq
    rw [← add_dist p.nread p.nwrite, heq, hto]

@[simp] theorem put_nread (p : Pipe) (b : UInt8) : (p.put b).nread = p.nread := by rw [put]

@[simp] theorem put_nwrite (p : Pipe) (b : UInt8) : (p.put b).nwrite = p.nwrite + 1 := by
  rw [put]

theorem put_data (p : Pipe) (b : UInt8) :
    (p.put b).data = patch p.data (p.nwrite.toNat % 512) [b] := by rw [put]

theorem dist_put (h : dist p.nread p.nwrite < 512) (b : UInt8) :
    dist (p.put b).nread (p.put b).nwrite = dist p.nread p.nwrite + 1 := by
  rw [put_nread, put_nwrite, dist_succ_right (by omega)]

/-- A byte that is stored comes last. -/
theorem queue_put (h : dist p.nread p.nwrite < 512) (b : UInt8) :
    (p.put b).queue = p.queue ++ [b] := by
  have hmod : p.nwrite.toNat % 512 < 512 := Nat.mod_lt _ (by decide)
  rw [queue, dist_put h, segment_succ, put_nread, put_data, queue]
  refine congrArg₂ (· ++ ·) ?_ ?_
  · -- the slot of the new byte is none of the others
    refine segment_congr _ _ _ fun k hk => byteAt_patch_of_disjoint ?_ _
    have hk512 : dist p.nread (p.nread + UInt32.ofNat k) = k := dist_add_ofNat _ (by omega)
    have hdist : dist (p.nread + UInt32.ofNat k) p.nwrite = dist p.nread p.nwrite - k := by
      rw [dist_of_le (a := p.nread) (by omega), hk512]
    have hne : (p.nread + UInt32.ofNat k).toNat % 512 ≠ p.nwrite.toNat % 512 :=
      slot_ne (by norm_num) (by omega) (by omega)
    rw [List.length_singleton]
    omega
  · rw [add_dist, byteAt_patch hmod]
    simp

theorem queue_take (h : p.nread ≠ p.nwrite) : p.queue = p.head :: p.take.queue := by
  have hpos : 0 < dist p.nread p.nwrite := by
    rw [Nat.pos_iff_ne_zero, Ne, dist_eq_zero]
    exact h
  obtain ⟨k, hk⟩ := Nat.exists_eq_succ_of_ne_zero hpos.ne'
  rw [queue, hk, segment_cons, queue]
  have hdist : dist p.take.nread p.take.nwrite = k := by
    rw [show dist p.take.nread p.take.nwrite = dist (p.nread + 1) p.nwrite from rfl,
      dist_succ_left hpos, hk]
    rfl
  rw [hdist]
  rfl

/-! ### The loops -/

/-- **What the loop of `pipewrite` does**: it stores some of the bytes, and all of them if it
comes to its end. -/
theorem writeLoop_spec (killed : Bool) (n : ℤ) : ∀ (bs : List UInt8) {p p' : Pipe}
    {done : List UInt8} {r : Option ℤ}, dist p.nread p.nwrite ≤ 512 →
      writeLoop killed n bs p = (p', done, r) →
      ∃ rest, bs = done ++ rest ∧ p'.queue = p.queue ++ done ∧ dist p'.nread p'.nwrite ≤ 512 ∧
        p'.nread = p.nread ∧ p'.nwrite = p.nwrite + UInt32.ofNat done.length ∧
        p'.writeopen = p.writeopen ∧
        (rest = [] ∧ r = some n ∨ rest ≠ [] ∧ (r = some (-1) ∨ r = none)) := by
  intro bs
  induction bs with
  | nil =>
    intro p p' done r hroom h
    rw [writeLoop, Prod.mk.injEq, Prod.mk.injEq] at h
    obtain ⟨rfl, rfl, rfl⟩ := h
    exact ⟨[], rfl, (List.append_nil _).symm, hroom, rfl, (UInt32.add_zero _).symm, rfl,
      .inl ⟨rfl, rfl⟩⟩
  | cons b bs ih =>
    intro p p' done r hroom h
    rw [writeLoop] at h
    by_cases hfull : p.nwrite = p.nread + pipeSize
    · -- no room: it gives up, or it sleeps
      rw [if_pos hfull, Prod.mk.injEq, Prod.mk.injEq] at h
      obtain ⟨rfl, rfl, rfl⟩ := h
      refine ⟨b :: bs, rfl, (List.append_nil _).symm, hroom, rfl, (UInt32.add_zero _).symm, rfl,
        .inr ⟨List.cons_ne_nil _ _, ?_⟩⟩
      split
      · exact .inl rfl
      · exact .inr rfl
    · rw [if_neg hfull] at h
      rw [full_iff] at hfull
      have hlt : dist p.nread p.nwrite < 512 := by omega
      generalize hrec : writeLoop killed n bs (p.put b) = out at h
      obtain ⟨p₁, done₁, r₁⟩ := out
      simp only [Prod.mk.injEq] at h
      obtain ⟨rfl, rfl, rfl⟩ := h
      have hroom₁ : dist (p.put b).nread (p.put b).nwrite ≤ 512 := by
        rw [dist_put hlt]
        omega
      obtain ⟨rest, hbs, hqueue, hroom', hnread, hnwrite, hopen, hend⟩ := ih hroom₁ hrec
      refine ⟨rest, by rw [hbs, List.cons_append], ?_, hroom', ?_, ?_, ?_, hend⟩
      · rw [hqueue, queue_put hlt, List.append_assoc]
        rfl
      · rw [hnread, put_nread]
      · rw [hnwrite, put_nwrite, List.length_cons, UInt32.add_assoc, UInt32.add_comm 1,
          UInt32.ofNat_add]
        rfl
      · rw [hopen, put]

/-- **What the loop of `piperead` does**: it takes bytes off the front, and none only if it
need not or there are none. -/
theorem readLoop_spec : ∀ (k : ℕ) {p p' : Pipe} {bs : List UInt8}, readLoop k p = (p', bs) →
    p.queue = bs ++ p'.queue ∧ p'.nwrite = p.nwrite ∧
      p'.nread = p.nread + UInt32.ofNat bs.length ∧ p'.writeopen = p.writeopen ∧
      (bs = [] → k = 0 ∨ p.nread = p.nwrite) := by
  intro k
  induction k with
  | zero =>
    intro p p' bs h
    rw [readLoop, Prod.mk.injEq] at h
    obtain ⟨rfl, rfl⟩ := h
    exact ⟨rfl, rfl, (UInt32.add_zero _).symm, rfl, fun _ => .inl rfl⟩
  | succ k ih =>
    intro p p' bs h
    rw [readLoop] at h
    by_cases hempty : p.nread = p.nwrite
    · rw [if_pos hempty, Prod.mk.injEq] at h
      obtain ⟨rfl, rfl⟩ := h
      exact ⟨rfl, rfl, (UInt32.add_zero _).symm, rfl, fun _ => .inr hempty⟩
    · rw [if_neg hempty] at h
      generalize hrec : readLoop k p.take = out at h
      obtain ⟨p₁, bs₁⟩ := out
      simp only [Prod.mk.injEq] at h
      obtain ⟨rfl, rfl⟩ := h
      obtain ⟨hqueue, hnwrite, hnread, hopen, -⟩ := ih hrec
      refine ⟨?_, hnwrite, ?_, hopen, fun h0 => absurd h0 (List.cons_ne_nil _ _)⟩
      · rw [queue_take hempty, hqueue, List.cons_append]
      · rw [hnread, take, List.length_cons, UInt32.add_assoc, UInt32.add_comm 1,
          UInt32.ofNat_add]
        rfl

/-- **What a step of `piperead` does.** -/
theorem read_spec {killed : Bool} {n : ℤ} {p p' : Pipe} {bs : List UInt8} {r : Option ℤ}
    (h : read killed n p = (p', bs, r)) :
    p.queue = bs ++ p'.queue ∧ p'.nwrite = p.nwrite ∧
      p'.nread = p.nread + UInt32.ofNat bs.length ∧ p'.writeopen = p.writeopen ∧
      (0 < n → r = some 0 → p.nread = p.nwrite ∧ p.writeopen = false) := by
  rw [read] at h
  by_cases hwait : p.nread = p.nwrite ∧ p.writeopen = true
  · rw [if_pos hwait, Prod.mk.injEq, Prod.mk.injEq] at h
    obtain ⟨rfl, rfl, rfl⟩ := h
    refine ⟨rfl, rfl, (UInt32.add_zero _).symm, rfl, fun _ hr => ?_⟩
    cases killed with
    | true => simp at hr
    | false => simp at hr
  · rw [if_neg hwait] at h
    generalize hrec : readLoop n.toNat p = out at h
    obtain ⟨p₁, bs₁⟩ := out
    simp only [Prod.mk.injEq] at h
    obtain ⟨rfl, rfl, rfl⟩ := h
    obtain ⟨hqueue, hnwrite, hnread, hopen, hnone⟩ := readLoop_spec _ hrec
    refine ⟨hqueue, hnwrite, hnread, hopen, fun hn hr => ?_⟩
    have hlen : bs₁ = [] := by
      rw [Option.some.injEq, Int.natCast_eq_zero, List.length_eq_zero_iff] at hr
      exact hr
    have hempty : p.nread = p.nwrite := (hnone hlen).resolve_left (by omega)
    exact ⟨hempty, by simpa [hempty] using hwait⟩

end Queue

/-! ### The history -/

section History

variable {P : Type*} [DecidableEq P]

/-- All bytes that were stored, in their order. -/
def stored (os : List (Event P)) : List UInt8 := os.flatMap Event.stored

/-- All bytes that were returned by reads, in their order. -/
def fetched (os : List (Event P)) : List UInt8 := os.flatMap Event.fetched

/-- The bytes that the process `q` has stored in the last call it has begun. -/
def storedBy (q : P) (os : List (Event P)) : List UInt8 :=
  os.foldl (fun acc e =>
    if e.proc = q then (if e.first then e.stored else acc ++ e.stored) else acc) []

omit [DecidableEq P] in
@[simp] theorem stored_concat (os : List (Event P)) (e : Event P) :
    stored (os ++ [e]) = stored os ++ e.stored := by
  simp [stored]

omit [DecidableEq P] in
@[simp] theorem fetched_concat (os : List (Event P)) (e : Event P) :
    fetched (os ++ [e]) = fetched os ++ e.fetched := by
  simp [fetched]

theorem storedBy_concat (q : P) (os : List (Event P)) (e : Event P) :
    storedBy q (os ++ [e]) =
      if e.proc = q then (if e.first then e.stored else storedBy q os ++ e.stored)
      else storedBy q os := by
  rw [storedBy, List.foldl_append]
  rfl

/-- Between the ring and what has been done. -/
structure Inv (s : State P) (os : List (Event P)) : Prop where
  fifo : stored os = fetched os ++ s.pipe.queue
  room : dist s.pipe.nread s.pipe.nwrite ≤ 512
  nread : s.pipe.nread = UInt32.ofNat (fetched os).length
  nwrite : s.pipe.nwrite = UInt32.ofNat (stored os).length
  /-- A `pipewrite` that sleeps has stored the bytes before `addr[i]`. -/
  asleep : ∀ q addr n i, s.pc q = .asleep (.pipewrite addr n) i →
    i ≤ (bytes addr n).length ∧ storedBy q os = (bytes addr n).take i

/-- What a step of a call says about the history. -/
structure Honest (s : State P) (os : List (Event P)) (e : Event P) : Prop where
  /-- A `pipewrite` that returns `n` has stored its `n` bytes, in their order. -/
  pipewrite : ∀ addr n, e.call = .pipewrite addr n → e.result = some n →
    storedBy e.proc (os ++ [e]) = bytes addr n
  /-- End of file is returned if the pipe is empty and the end for writing is closed. -/
  piperead : ∀ n, e.call = .piperead n → 0 < n → e.result = some 0 →
    fetched os = stored os ∧ s.pipe.nread = s.pipe.nwrite ∧ s.pipe.writeopen = false

omit [DecidableEq P] in
/-- What a step of any call does to the ring. -/
theorem go_ring {killed : Bool} {k : ℕ} {p p' : Pipe} {c : Call} {st ft : List UInt8}
    {r : Option ℤ} (hroom : dist p.nread p.nwrite ≤ 512)
    (h : Pipe.go killed k p c = (p', st, ft, r)) :
    p.queue ++ st = ft ++ p'.queue ∧ dist p'.nread p'.nwrite ≤ 512 ∧
      p'.nread = p.nread + UInt32.ofNat ft.length ∧
      p'.nwrite = p.nwrite + UInt32.ofNat st.length := by
  cases c with
  | pipewrite addr n =>
    rw [Pipe.go] at h
    generalize hrun : writeLoop killed n ((bytes addr n).drop k) p = out at h
    obtain ⟨p₁, bs, r₁⟩ := out
    simp only [Prod.mk.injEq] at h
    obtain ⟨rfl, rfl, rfl, rfl⟩ := h
    obtain ⟨rest, -, hqueue, hroom', hnread, hnwrite, -, -⟩ := writeLoop_spec _ _ _ hroom hrun
    exact ⟨hqueue.symm, hroom', hnread.trans (UInt32.add_zero _).symm, hnwrite⟩
  | piperead n =>
    rw [Pipe.go] at h
    generalize hrun : Pipe.read killed n p = out at h
    obtain ⟨p₁, bs, r₁⟩ := out
    simp only [Prod.mk.injEq] at h
    obtain ⟨rfl, rfl, rfl, rfl⟩ := h
    obtain ⟨hqueue, hnwrite, hnread, -, -⟩ := read_spec hrun
    refine ⟨by rw [List.append_nil, hqueue], ?_, hnread,
      hnwrite.trans (UInt32.add_zero _).symm⟩
    have hlen := congrArg List.length hqueue
    rw [List.length_append, length_queue, length_queue] at hlen
    omega
  | pipeclose writable =>
    rw [Pipe.go, Prod.mk.injEq, Prod.mk.injEq, Prod.mk.injEq] at h
    obtain ⟨rfl, rfl, rfl, rfl⟩ := h
    rw [close]
    split
    · exact ⟨List.append_nil _, hroom, (UInt32.add_zero _).symm, (UInt32.add_zero _).symm⟩
    · exact ⟨List.append_nil _, hroom, (UInt32.add_zero _).symm, (UInt32.add_zero _).symm⟩

/-- The step is one of the call `c`, which begins or goes on from `i = k`. -/
theorem step_cases {s : State P} {i : P × Bool × Action} {r : State P × Event P}
    (h : step s i = some r) : ∃ c k first, r = s.go i.1 i.2.1 first c k ∧
      (first = true ∧ k = 0 ∨ first = false ∧ s.pc i.1 = .asleep c k) := by
  obtain ⟨q, killed, a⟩ := i
  rw [step] at h
  split at h
  · contradiction
  · split at h
    · next c _ _ => exact ⟨c, 0, true, (Option.some.inj h).symm, .inl ⟨rfl, rfl⟩⟩
    · next c k _ hpc => exact ⟨c, k, false, (Option.some.inj h).symm, .inr ⟨rfl, hpc⟩⟩
    · contradiction

/-- The bytes that a `pipewrite` has stored after its next step. -/
theorem Inv.storedBy_next {s : State P} {os : List (Event P)} (hs : Inv s os) {e : Event P}
    {addr : ℕ → UInt8} {n : ℤ} {k : ℕ}
    (hcall : e.first = true ∧ k = 0 ∨
      e.first = false ∧ s.pc e.proc = .asleep (.pipewrite addr n) k) :
    k ≤ (bytes addr n).length ∧
      storedBy e.proc (os ++ [e]) = (bytes addr n).take k ++ e.stored := by
  rw [storedBy_concat, if_pos rfl]
  rcases hcall with ⟨hfirst, rfl⟩ | ⟨hfirst, hpc⟩
  · exact ⟨Nat.zero_le _, by rw [hfirst, if_pos rfl, List.take_zero, List.nil_append]⟩
  · obtain ⟨hk, hstored⟩ := hs.asleep e.proc addr n k hpc
    exact ⟨hk, by rw [hfirst, if_neg Bool.false_ne_true, hstored]⟩

/-- **A step keeps the invariant, and is honest.** -/
theorem inv_step {s s' : State P} {os : List (Event P)} {i : P × Bool × Action} {e : Event P}
    (hs : Inv s os) (h : step s i = some (s', e)) : Inv s' (os ++ [e]) ∧ Honest s os e := by
  obtain ⟨c, k, first, hr, hcall⟩ := step_cases h
  obtain ⟨q, killed, a⟩ := i
  dsimp only [State.go] at hr hcall
  generalize hgo : Pipe.go killed k s.pipe c = out at hr
  obtain ⟨p', st, ft, r⟩ := out
  obtain ⟨rfl, rfl⟩ := Prod.mk.inj hr
  obtain ⟨hring, hroom, hnread, hnwrite⟩ := go_ring hs.room hgo
  refine ⟨⟨?_, hroom, ?_, ?_, fun q' addr n j hpc => ?_⟩, fun addr n hc hres => ?_,
    fun n hc hn hres => ?_⟩
  · rw [stored_concat, fetched_concat, hs.fifo, List.append_assoc, hring, List.append_assoc]
  · rw [hnread, hs.nread, fetched_concat, List.length_append, UInt32.ofNat_add]
  · rw [hnwrite, hs.nwrite, stored_concat, List.length_append, UInt32.ofNat_add]
  · by_cases hq : q' = q
    · -- it was the process itself, whose call now sleeps
      subst hq
      dsimp only at hpc
      rw [Function.update_self] at hpc
      split at hpc
      · next hnone =>
        obtain ⟨rfl, rfl⟩ := Pc.asleep.inj hpc
        obtain ⟨hk, hstored⟩ := hs.storedBy_next (e := ⟨q', _, first, st, ft, r⟩) hcall
        rw [Pipe.go] at hgo
        generalize hrun : writeLoop killed n ((bytes addr n).drop k) s.pipe = out at hgo
        obtain ⟨p₁, bs, r₁⟩ := out
        simp only [Prod.mk.injEq] at hgo
        obtain ⟨rfl, rfl, rfl, rfl⟩ := hgo
        obtain ⟨rest, hbs, -⟩ := writeLoop_spec _ _ _ hs.room hrun
        have hlen := congrArg List.length hbs
        rw [List.length_append, List.length_drop] at hlen
        refine ⟨by omega, ?_⟩
        rw [hstored, List.take_add, hbs, List.take_left]
      · contradiction
    · dsimp only at hpc
      rw [Function.update_of_ne hq] at hpc
      rw [storedBy_concat, if_neg fun heq => hq heq.symm]
      exact hs.asleep q' addr n j hpc
  · dsimp only at hc hres
    subst hc
    obtain ⟨hk, hstored⟩ := hs.storedBy_next (e := ⟨q, _, first, st, ft, r⟩) hcall
    rw [Pipe.go] at hgo
    generalize hrun : writeLoop killed n ((bytes addr n).drop k) s.pipe = out at hgo
    obtain ⟨p₁, bs, r₁⟩ := out
    simp only [Prod.mk.injEq] at hgo
    obtain ⟨rfl, rfl, rfl, rfl⟩ := hgo
    obtain ⟨rest, hbs, -, -, -, -, -, hend⟩ := writeLoop_spec _ _ _ hs.room hrun
    have hrest : rest = [] := by
      rcases hend with ⟨hrest, -⟩ | ⟨hrest, hr⟩
      · exact hrest
      · -- it cannot return `n` before the end: it would be `-1`, and there would be no bytes
        exfalso
        rcases hr with hr | hr
        · rw [hres, Option.some.injEq] at hr
          rw [bytes, hr] at hbs
          simp only [Int.reduceNeg, Int.reduceToNat, List.range_zero, List.map_nil,
            List.drop_nil] at hbs
          exact hrest (List.append_eq_nil_iff.mp hbs.symm).2
        · rw [hres] at hr
          contradiction
    rw [hrest, List.append_nil] at hbs
    rw [hstored, ← hbs, List.take_append_drop]
  · dsimp only at hc hres
    subst hc
    rw [Pipe.go] at hgo
    generalize hrun : Pipe.read killed n s.pipe = out at hgo
    obtain ⟨p₁, bs, r₁⟩ := out
    simp only [Prod.mk.injEq] at hgo
    obtain ⟨rfl, rfl, rfl, rfl⟩ := hgo
    obtain ⟨-, -, -, -, heof⟩ := read_spec hrun
    obtain ⟨hempty, hopen⟩ := heof hn hres
    have hqueue : s.pipe.queue = [] := by
      rw [← List.length_eq_zero_iff, length_queue, hempty, dist_self]
    exact ⟨by rw [hs.fifo, hqueue, List.append_nil], hempty, hopen⟩

/-- What holds of a channel at every moment. -/
structure Fifo (p : Pipe) (os : List (Event P)) : Prop where
  in_order : fetched os <+: stored os
  lower : (fetched os).length ≤ (stored os).length
  upper : (stored os).length ≤ (fetched os).length + 512
  nread : p.nread = UInt32.ofNat (fetched os).length
  nwrite : p.nwrite = UInt32.ofNat (stored os).length

theorem Inv.fifo_channel {s : State P} {os : List (Event P)} (hs : Inv s os) :
    Fifo s.pipe os := by
  have hlen := congrArg List.length hs.fifo
  rw [List.length_append, length_queue] at hlen
  have hroom := hs.room
  exact ⟨⟨s.pipe.queue, hs.fifo.symm⟩, by omega, by omega, hs.nread, hs.nwrite⟩

/-- **A pipe is a FIFO channel.**  Whatever the processes do, the bytes that were read are
the first ones of those that were stored, at most 512 are between the two, the counters are
their numbers modulo `2 ^ 32`, and every step that can follow is honest. -/
theorem pipe_fifo {data : Vector UInt8 512} {is : List (P × Bool × Action)} {s : State P}
    {os : List (Event P)} (h : run step (boot data) is = some (s, os)) :
    Fifo s.pipe os ∧ ∀ i s' e, step s i = some (s', e) → Honest s os e := by
  have hboot : Inv (boot data : State P) [] := by
    have hqueue : (boot data : State P).pipe.queue = [] := by
      rw [← List.length_eq_zero_iff, length_queue, boot, dist_self]
    refine ⟨by rw [hqueue]; rfl, by rw [boot, dist_self]; omega, rfl, rfl, ?_⟩
    intro q addr n i hpc
    cases hpc
  have hs : Inv s os := run_history_invariant Inv
    (fun _ _ _ _ hinv hstep => (inv_step hinv hstep).1) is (boot data) [] (s, os) hboot h
  exact ⟨hs.fifo_channel, fun _ _ _ hstep => (inv_step hs hstep).2⟩

/-- One process writes two bytes and closes its end; the other one reads twice. -/
theorem pipe_fifo_two_processes : ∃ s os, run step (boot (Vector.replicate 512 0))
    [(false, false, .call (.pipewrite (fun _ => 7) 2)), (true, false, .call (.piperead 5)),
      (false, false, .call (.pipeclose true)), (true, false, .call (.piperead 5))] = some (s, os) ∧
    Fifo s.pipe os ∧ ∀ i s' e, step s i = some (s', e) → Honest s os e := by
  have hdone : (run step (boot (Vector.replicate 512 0))
      [(false, false, .call (.pipewrite (fun _ => 7) 2)), (true, false, .call (.piperead 5)),
        (false, false, .call (.pipeclose true)),
        (true, false, .call (.piperead 5))]).isSome = true := by decide +kernel
  obtain ⟨⟨s, os⟩, hrun⟩ := Option.isSome_iff_exists.mp hdone
  exact ⟨s, os, hrun, pipe_fifo hrun⟩

end History

end Pipe
end Xv6
