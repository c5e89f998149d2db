import Xv6.Lib.Machine
import Xv6.Lib.Table

/-!
# The life of a process

`fork`, `exit`, `wait` and `kill` of `proc.c` with the steps of the scheduler, for any
interleaving.  A step is a critical section of `ptable.lock`, or one statement of `fork` that
runs without the lock.  A system call begins only in a process that is not killed, as `trap`
has it.

## Main definitions

* `Proc`, `State`, `step`, `Event` — the process table, the steps, and what they do.
* `Move`, `step_move` — what a step can do.
* `Tree`, `Pids`, `Past` — parents and forks under way, pids, and what became of the processes
  that exited.

## Main results

* `Tree.move`, `Pids.move`, `Past.move` — **every step keeps the invariants**.
* `lifecycle` — parents are alive, pids differ, an exited process stays in its slot until its
  parent gets it from `wait`, once, and `wait` fails for no other reason than the two.
-/

namespace Xv6
namespace Lifecycle

open Machine Table

/-- `NPROC` -/
def nproc : ℕ := 64

instance : NeZero nproc := ⟨by decide⟩

/-- A slot of `ptable`. -/
abbrev Slot := Fin nproc

/-- `initproc`: the process that `userinit` makes, in the first slot. -/
def initproc : Slot := 0

inductive Procstate
  | unused
  | embryo
  | sleeping
  | runnable
  | running
  | zombie
  deriving DecidableEq

/-- What a process sleeps on: a slot of the table, in `wait`, or something else. -/
inductive Chan
  | proc (p : Slot)
  | other (c : ℕ)
  deriving DecidableEq

/-- Where a process is in `fork`: the statement to come. -/
inductive ForkStage
  /-- `kalloc` of the kernel stack -/
  | kstack
  /-- `copyuvm` -/
  | copy
  /-- `np->parent = curproc`, and the other fields -/
  | parent
  /-- `np->state = RUNNABLE` -/
  | publish
  deriving DecidableEq

inductive Pc
  /-- In none of the calls of this file. -/
  | user
  | fork (np : Slot) (st : ForkStage)
  /-- In the loop of `wait`, after `sleep`. -/
  | wait
  deriving DecidableEq

/-- `struct proc`, with where the process is in the kernel. -/
structure Proc where
  state : Procstate
  pid : UInt32
  parent : Option Slot
  killed : Bool
  chan : Option Chan
  pc : Pc
  deriving DecidableEq

structure State where
  proc : Slot → Proc
  nextpid : UInt32

inductive Action
  | fork (p : Slot)
  /-- The next statement of `fork`; the flag is whether it gets its memory. -/
  | forkNext (p : Slot) (ok : Bool)
  | exit (p : Slot)
  | wait (p : Slot)
  | waitNext (p : Slot)
  | kill (p : Slot) (pid : UInt32)
  /-- `sleep` on something else than a process. -/
  | sleep (p : Slot) (c : ℕ)
  | wakeup (c : ℕ)
  | yield (p : Slot)
  /-- The scheduler switches to a process. -/
  | run (p : Slot)

inductive Event
  | allocated (p np : Slot) (pid : UInt32)
  | forked (p np : Slot) (pid : UInt32)
  | forkFailed (p : Slot)
  | exited (p : Slot) (pid : UInt32)
  /-- `wait` of `p` has returned the pid of the process in the slot `q`. -/
  | reaped (p q : Slot) (pid : UInt32)
  | waitFailed (p : Slot)
  | killed (pid : UInt32)
  | quiet
  deriving DecidableEq

/-! ### The code -/

def State.set (s : State) (p : Slot) (x : Proc) : State :=
  { s with proc := Function.update s.proc p x }

/-- `wakeup1` -/
def State.wakeup1 (s : State) (c : Chan) : State :=
  { s with proc := fun q =>
      if (s.proc q).state = .sleeping ∧ (s.proc q).chan = some c then
        { s.proc q with state := .runnable }
      else s.proc q }

/-- The first half of `allocproc`, called by `fork`. -/
def fork (s : State) (p : Slot) : State × Event :=
  match find fun q => (s.proc q).state = .unused with
  | none => (s, .forkFailed p)
  | some q =>
      let s' := s.set q { s.proc q with state := .embryo, pid := s.nextpid }
      ({ s' with nextpid := s.nextpid + 1 }.set p { s.proc p with pc := .fork q .kstack },
        .allocated p q s.nextpid)

/-- `fork` gives the slot up. -/
def forkFail (s : State) (p q : Slot) : State × Event :=
  ((s.set q { s.proc q with state := .unused }).set p { s.proc p with pc := .user }, .forkFailed p)

/-- The rest of `allocproc` and of `fork`, a statement at a time. -/
def forkNext (s : State) (p q : Slot) (ok : Bool) : ForkStage → State × Event
  | .kstack =>
      if ok then (s.set p { s.proc p with pc := .fork q .copy }, .quiet) else forkFail s p q
  | .copy =>
      if ok then (s.set p { s.proc p with pc := .fork q .parent }, .quiet) else forkFail s p q
  | .parent =>
      ((s.set q { s.proc q with parent := some p }).set p { s.proc p with pc := .fork q .publish },
        .quiet)
  | .publish =>
      ((s.set q { s.proc q with state := .runnable, pc := .user }).set p
        { s.proc p with pc := .user }, .forked p q (s.proc q).pid)

/-- Init becomes the parent of the children. -/
def State.adopt (s : State) (p : Slot) : State :=
  { s with proc := fun q => { s.proc q with
      parent := if (s.proc q).parent = some p then some initproc else (s.proc q).parent } }

/-- The loop of `exit`, which passes the children to init. -/
def State.abandon (s : State) (p : Slot) : State :=
  if ∃ q, (s.proc q).parent = some p ∧ (s.proc q).state = .zombie then
    (s.adopt p).wakeup1 (.proc initproc)
  else s.adopt p

/-- `wakeup1(curproc->parent)` -/
def State.wakeParent (s : State) (p : Slot) : State :=
  match (s.proc p).parent with
  | some r => s.wakeup1 (.proc r)
  | none => s

/-- The critical section of `exit`. -/
def exit (s : State) (p : Slot) : State × Event :=
  let s' := (s.wakeParent p).abandon p
  (s'.set p { s'.proc p with state := .zombie }, .exited p (s.proc p).pid)

/-- Once around the loop of `wait`. -/
def wait (s : State) (p : Slot) : State × Event :=
  match find fun q => (s.proc q).parent = some p ∧ (s.proc q).state = .zombie with
  | some q =>
      let s' := s.set q { s.proc q with
        state := .unused, pid := 0, parent := none, killed := false }
      (s'.set p { s'.proc p with pc := .user }, .reaped p q (s.proc q).pid)
  | none =>
      if (∀ q, (s.proc q).parent ≠ some p) ∨ (s.proc p).killed = true then
        (s.set p { s.proc p with pc := .user }, .waitFailed p)
      else
        (s.set p { s.proc p with state := .sleeping, chan := some (.proc p), pc := .wait }, .quiet)

def kill (s : State) (pid : UInt32) : State × Event :=
  match find fun q => (s.proc q).pid = pid with
  | none => (s, .quiet)
  | some q =>
      (s.set q { s.proc q with
        killed := true
        state := if (s.proc q).state = .sleeping then .runnable else (s.proc q).state },
        .killed pid)

/-- The process runs, and begins a system call. -/
def Proc.CanCall (x : Proc) : Prop := x.state = .running ∧ x.pc = .user ∧ x.killed = false

instance (x : Proc) : Decidable x.CanCall := inferInstanceAs (Decidable (_ ∧ _ ∧ _))

/-- A step; init does not exit. -/
def step (s : State) : Action → Option (State × Event)
  | .fork p => if (s.proc p).CanCall then some (fork s p) else none
  | .forkNext p ok =>
      match (s.proc p).state, (s.proc p).pc with
      | .running, .fork q st => some (forkNext s p q ok st)
      | _, _ => none
  | .exit p =>
      if (s.proc p).state = .running ∧ (s.proc p).pc = .user ∧ p ≠ initproc then some (exit s p)
      else none
  | .wait p => if (s.proc p).CanCall then some (wait s p) else none
  | .waitNext p =>
      if (s.proc p).state = .running ∧ (s.proc p).pc = .wait then some (wait s p) else none
  | .kill p pid => if (s.proc p).CanCall then some (kill s pid) else none
  | .sleep p c =>
      if (s.proc p).state = .running ∧ (s.proc p).pc = .user then
        some (s.set p { s.proc p with state := .sleeping, chan := some (.other c) }, .quiet)
      else none
  | .wakeup c => some (s.wakeup1 (.other c), .quiet)
  | .yield p =>
      if (s.proc p).state = .running then
        some (s.set p { s.proc p with state := .runnable }, .quiet)
      else none
  | .run p =>
      if (s.proc p).state = .runnable then
        some (s.set p { s.proc p with state := .running, chan := none }, .quiet)
      else none

/-- A slot that was never used. -/
def Proc.blank : Proc := ⟨.unused, 0, none, false, none, .user⟩

/-- The table after `userinit`. -/
def boot : State where
  proc := Function.update (fun _ => Proc.blank) initproc ⟨.runnable, 1, none, false, none, .user⟩
  nextpid := 2

/-! ### Parents and forks -/

/-- The process exists, and has not exited. -/
@[grind] def Proc.Live (x : Proc) : Prop :=
  x.state = .sleeping ∨ x.state = .runnable ∨ x.state = .running

/-- Parents are alive, and a `fork` under way has its slot for itself. -/
structure Tree (proc : Slot → Proc) : Prop where
  init : (proc initproc).Live
  root : (proc initproc).parent = none
  parent : ∀ q, q ≠ initproc → (proc q).Live ∨ (proc q).state = .zombie →
    ∃ p, (proc q).parent = some p
  alive : ∀ q p, (proc q).parent = some p → (proc p).Live
  unused : ∀ q, (proc q).state = .unused → (proc q).parent = none
  idle : ∀ p, ¬(proc p).Live → (proc p).pc = .user
  embryo : ∀ p q st, (proc p).pc = .fork q st → (proc q).state = .embryo ∧
    (st ≠ .publish → (proc q).parent = none) ∧ (st = .publish → (proc q).parent = some p)
  apart : ∀ p p' q st st', (proc p).pc = .fork q st → (proc p').pc = .fork q st' → p = p'

@[simp] theorem State.set_proc (s : State) (p : Slot) (x : Proc) (q : Slot) :
    (s.set p x).proc q = if q = p then x else s.proc q := Function.update_apply _ _ _ _

/-- What scheduling changes in a slot: whether it sleeps, may run or runs. -/
def Same (x y : Proc) : Prop :=
  y.parent = x.parent ∧ y.pid = x.pid ∧ y.pc = x.pc ∧ y.killed = x.killed ∧
    (y.state = x.state ∨ x.Live ∧ y.Live)

/-- What a step can do. -/
inductive Move (s : State) : State → Event → Prop
  | sched {s' : State} : s'.nextpid = s.nextpid → (∀ q, Same (s.proc q) (s'.proc q)) →
      Move s s' .quiet
  | killed (q : Slot) : Move s
      (s.set q { s.proc q with
        killed := true
        state := if (s.proc q).state = .sleeping then .runnable else (s.proc q).state })
      (.killed (s.proc q).pid)
  | full (p : Slot) : Move s s (.forkFailed p)
  | allocated (p q : Slot) : (s.proc p).state = .running → (s.proc p).pc = .user →
      (s.proc q).state = .unused → Move s
        (({ s with nextpid := s.nextpid + 1 }.set q
          { s.proc q with state := .embryo, pid := s.nextpid }).set p
            { s.proc p with pc := .fork q .kstack })
        (.allocated p q s.nextpid)
  | advance (p q : Slot) (st st' : ForkStage) : (s.proc p).pc = .fork q st → st ≠ .publish →
      st' ≠ .publish → Move s (s.set p { s.proc p with pc := .fork q st' }) .quiet
  | failed (p q : Slot) (st : ForkStage) : (s.proc p).pc = .fork q st → st ≠ .publish →
      Move s (forkFail s p q).1 (.forkFailed p)
  | parent (p q : Slot) : (s.proc p).pc = .fork q .parent → Move s
      ((s.set q { s.proc q with parent := some p }).set p { s.proc p with pc := .fork q .publish })
      .quiet
  | forked (p q : Slot) : (s.proc p).pc = .fork q .publish → Move s
      ((s.set q { s.proc q with state := .runnable, pc := .user }).set p
        { s.proc p with pc := .user }) (.forked p q (s.proc q).pid)
  | exited (p : Slot) : (s.proc p).state = .running → (s.proc p).pc = .user → p ≠ initproc →
      Move s (exit s p).1 (.exited p (s.proc p).pid)
  | reaped (p q : Slot) : (s.proc p).state = .running → (s.proc q).parent = some p →
      (s.proc q).state = .zombie → (s.proc p).pc = .user ∨ (s.proc p).pc = .wait → Move s
        ((s.set q { s.proc q with
          state := .unused, pid := 0, parent := none, killed := false }).set p
            { s.proc p with pc := .user }) (.reaped p q (s.proc q).pid)
  | waitFailed (p : Slot) : (s.proc p).pc = .user ∧ (s.proc p).killed = false ∨
      (s.proc p).pc = .wait → (∀ q, (s.proc q).parent ≠ some p) ∨ (s.proc p).killed = true →
      Move s (s.set p { s.proc p with pc := .user }) (.waitFailed p)
  | waiting (p : Slot) : (s.proc p).state = .running →
      (s.proc p).pc = .user ∨ (s.proc p).pc = .wait → (s.proc p).killed = false →
      Move s (s.set p { s.proc p with state := .sleeping, chan := some (.proc p), pc := .wait })
        .quiet

/-! ### What the steps do -/

@[simp] theorem State.set_nextpid (s : State) (p : Slot) (x : Proc) :
    (s.set p x).nextpid = s.nextpid := rfl

theorem Same.refl (x : Proc) : Same x x := ⟨rfl, rfl, rfl, rfl, .inl rfl⟩

theorem same_wakeup1 (s : State) (c : Chan) (q : Slot) :
    Same (s.proc q) ((s.wakeup1 c).proc q) := by
  rw [State.wakeup1]
  by_cases hq : (s.proc q).state = .sleeping ∧ (s.proc q).chan = some c
  · simp only [if_pos hq]
    exact ⟨rfl, rfl, rfl, rfl, .inr ⟨.inl hq.1, .inr (.inl rfl)⟩⟩
  · simp only [if_neg hq]
    exact Same.refl _

/-- A step that changes one slot, and there only whether it sleeps, may run or runs. -/
theorem same_set {s : State} {p : Slot} {x : Proc} (h : Same (s.proc p) x) (q : Slot) :
    Same (s.proc q) ((s.set p x).proc q) := by
  rw [State.set_proc]
  by_cases hq : q = p
  · rw [if_pos hq, hq]
    exact h
  · rw [if_neg hq]
    exact Same.refl _

theorem move_wait {s : State} {p : Slot} (hrun : (s.proc p).state = .running)
    (hpc : (s.proc p).pc = .user ∧ (s.proc p).killed = false ∨ (s.proc p).pc = .wait) :
    Move s (wait s p).1 (wait s p).2 := by
  have hpc' : (s.proc p).pc = .user ∨ (s.proc p).pc = .wait := hpc.imp_left And.left
  rw [wait]
  cases hfind : find fun q => (s.proc q).parent = some p ∧ (s.proc q).state = .zombie with
  | some q =>
    have hq := of_decide_eq_true (find_spec hfind)
    have hne : p ≠ q := by
      intro heq
      rw [← heq, hrun] at hq
      exact absurd hq.2 (by decide)
    simp only [State.set_proc, if_neg hne]
    exact .reaped p q hrun hq.1 hq.2 hpc'
  | none =>
    simp only
    split
    · next hno => exact .waitFailed p hpc hno
    · next hno =>
      push Not at hno
      exact .waiting p hrun hpc' (by simpa using hno.2)

/-- **What a step can do.** -/
theorem step_move {s s' : State} {a : Action} {e : Event} (h : step s a = some (s', e)) :
    Move s s' e := by
  cases a with
  | fork p =>
    rw [step, Option.ite_none_right_eq_some, Option.some.injEq] at h
    obtain ⟨hp, h⟩ := h
    rw [fork] at h
    split at h
    · -- no slot of the table is unused
      cases h
      exact .full p
    · next q hq =>
      cases h
      have hfree := of_decide_eq_true (find_spec hq)
      exact .allocated p q hp.1 hp.2.1 hfree
  | forkNext p ok =>
    rw [step] at h
    split at h
    · next q st hrun hpc =>
      rw [Option.some.injEq] at h
      cases st with
      | kstack =>
        rw [forkNext] at h
        split at h
        · cases h
          exact .advance p q .kstack .copy hpc (by decide) (by decide)
        · cases h
          exact .failed p q .kstack hpc (by decide)
      | copy =>
        rw [forkNext] at h
        split at h
        · cases h
          exact .advance p q .copy .parent hpc (by decide) (by decide)
        · cases h
          exact .failed p q .copy hpc (by decide)
      | parent =>
        cases h
        exact .parent p q hpc
      | publish =>
        cases h
        exact .forked p q hpc
    · cases h
  | exit p =>
    rw [step, Option.ite_none_right_eq_some, Option.some.injEq] at h
    obtain ⟨hp, h⟩ := h
    cases h
    exact .exited p hp.1 hp.2.1 hp.2.2
  | wait p =>
    rw [step, Option.ite_none_right_eq_some, Option.some.injEq] at h
    obtain ⟨hp, h⟩ := h
    have hmove := move_wait hp.1 (.inl hp.2)
    rw [h] at hmove
    exact hmove
  | waitNext p =>
    rw [step, Option.ite_none_right_eq_some, Option.some.injEq] at h
    obtain ⟨hp, h⟩ := h
    have hmove := move_wait hp.1 (.inr hp.2)
    rw [h] at hmove
    exact hmove
  | kill p pid =>
    rw [step, Option.ite_none_right_eq_some, Option.some.injEq] at h
    obtain ⟨-, h⟩ := h
    rw [kill] at h
    split at h
    · -- no process has this pid
      cases h
      exact .sched rfl fun q => Same.refl _
    · next q hq =>
      cases h
      rw [← of_decide_eq_true (find_spec hq)]
      exact .killed q
  | sleep p c =>
    rw [step, Option.ite_none_right_eq_some, Option.some.injEq] at h
    obtain ⟨hp, h⟩ := h
    cases h
    exact .sched rfl (same_set ⟨rfl, rfl, rfl, rfl, .inr ⟨.inr (.inr hp.1), .inl rfl⟩⟩)
  | wakeup c =>
    cases h
    exact .sched rfl (same_wakeup1 s _)
  | yield p =>
    rw [step, Option.ite_none_right_eq_some, Option.some.injEq] at h
    obtain ⟨hp, h⟩ := h
    cases h
    exact .sched rfl (same_set ⟨rfl, rfl, rfl, rfl, .inr ⟨.inr (.inr hp), .inr (.inl rfl)⟩⟩)
  | run p =>
    rw [step, Option.ite_none_right_eq_some, Option.some.injEq] at h
    obtain ⟨hp, h⟩ := h
    cases h
    exact .sched rfl (same_set ⟨rfl, rfl, rfl, rfl, .inr ⟨.inr (.inl hp), .inr (.inr rfl)⟩⟩)

theorem Same.trans {x y z : Proc} (h : Same x y) (h' : Same y z) : Same x z := by
  obtain ⟨hparent, hpid, hpc, hkilled, hst⟩ := h
  obtain ⟨hparent', hpid', hpc', hkilled', hst'⟩ := h'
  refine ⟨hparent'.trans hparent, hpid'.trans hpid, hpc'.trans hpc, hkilled'.trans hkilled, ?_⟩
  grind

theorem same_wakeParent (s : State) (p q : Slot) :
    Same (s.proc q) ((s.wakeParent p).proc q) := by
  rw [State.wakeParent]
  split
  · exact same_wakeup1 _ _ q
  · exact Same.refl _

theorem same_abandon (s : State) (p q : Slot) :
    Same ((s.adopt p).proc q) ((s.abandon p).proc q) := by
  rw [State.abandon]
  split
  · exact same_wakeup1 _ _ q
  · exact Same.refl _

theorem exit_fst (s : State) (p : Slot) : (exit s p).1 = ((s.wakeParent p).abandon p).set p
    { ((s.wakeParent p).abandon p).proc p with state := .zombie } := by
  rw [exit]

/-- What `exit` leaves in the slots. -/
theorem exit_proc (s : State) (p q : Slot) :
    ((exit s p).1.proc q).parent =
        (if (s.proc q).parent = some p then some initproc else (s.proc q).parent) ∧
      ((exit s p).1.proc q).pid = (s.proc q).pid ∧ ((exit s p).1.proc q).pc = (s.proc q).pc ∧
      ((exit s p).1.proc q).killed = (s.proc q).killed ∧
      (q = p ∧ ((exit s p).1.proc q).state = .zombie ∨
        q ≠ p ∧ (((exit s p).1.proc q).state = (s.proc q).state ∨
          (s.proc q).Live ∧ ((exit s p).1.proc q).Live)) := by
  have hwake := same_wakeParent s p q
  have habandon := same_abandon (s.wakeParent p) p q
  have hadopt : (((s.wakeParent p).adopt p).proc q) = { (s.wakeParent p).proc q with
      parent := if ((s.wakeParent p).proc q).parent = some p then some initproc
        else ((s.wakeParent p).proc q).parent } := rfl
  rw [exit_fst, State.set_proc]
  unfold Same at hwake habandon
  by_cases hq : q = p
  · subst hq
    grind
  · rw [if_neg hq]
    grind

theorem exit_nextpid (s : State) (p : Slot) : (exit s p).1.nextpid = s.nextpid := by
  have hwake : (s.wakeParent p).nextpid = s.nextpid := by
    rw [State.wakeParent]
    split <;> rfl
  have habandon : ((s.wakeParent p).abandon p).nextpid = (s.wakeParent p).nextpid := by
    rw [State.abandon]
    split <;> rfl
  rw [exit_fst, State.set_nextpid, habandon, hwake]

/-! ### Parents -/

section Trees

variable {s : State} {p q : Slot}

theorem Tree.same {s' : State} (h : Tree s.proc) (hsame : ∀ q, Same (s.proc q) (s'.proc q)) :
    Tree s'.proc := by
  obtain ⟨hinit, hroot, hparent, halive, hunused, hidle, hembryo, hapart⟩ := h
  unfold Same at hsame
  constructor <;> grind

theorem Tree.killed (h : Tree s.proc) : Tree (s.set q { s.proc q with
    killed := true
    state := if (s.proc q).state = .sleeping then .runnable else (s.proc q).state }).proc := by
  obtain ⟨hinit, hroot, hparent, halive, hunused, hidle, hembryo, hapart⟩ := h
  constructor <;> simp only [State.set_proc] <;> grind

theorem Tree.allocated (h : Tree s.proc) (n : UInt32) (hrun : (s.proc p).state = .running)
    (hfree : (s.proc q).state = .unused) :
    Tree ((s.set q { s.proc q with state := .embryo, pid := n }).set p
      { s.proc p with pc := .fork q .kstack }).proc := by
  obtain ⟨hinit, hroot, hparent, halive, hunused, hidle, hembryo, hapart⟩ := h
  constructor <;> simp only [State.set_proc] <;> grind

theorem Tree.advance (h : Tree s.proc) {st st' : ForkStage} (hpc : (s.proc p).pc = .fork q st)
    (hst : st ≠ .publish) (hst' : st' ≠ .publish) :
    Tree (s.set p { s.proc p with pc := .fork q st' }).proc := by
  obtain ⟨hinit, hroot, hparent, halive, hunused, hidle, hembryo, hapart⟩ := h
  constructor <;> simp only [State.set_proc] <;> grind

/-- The slot that a `fork` gives up had no parent yet. -/
theorem Tree.failed (h : Tree s.proc) {st : ForkStage} (hpc : (s.proc p).pc = .fork q st)
    (hst : st ≠ .publish) : Tree (forkFail s p q).1.proc := by
  have hnone : (s.proc q).parent = none := (h.embryo p q st hpc).2.1 hst
  obtain ⟨hinit, hroot, hparent, halive, hunused, hidle, hembryo, hapart⟩ := h
  simp only [forkFail]
  constructor <;> simp only [State.set_proc] <;> grind

theorem Tree.parented (h : Tree s.proc) (hpc : (s.proc p).pc = .fork q .parent) :
    Tree ((s.set q { s.proc q with parent := some p }).set p
      { s.proc p with pc := .fork q .publish }).proc := by
  obtain ⟨hinit, hroot, hparent, halive, hunused, hidle, hembryo, hapart⟩ := h
  constructor <;> simp only [State.set_proc] <;> grind

theorem Tree.forked (h : Tree s.proc) (hpc : (s.proc p).pc = .fork q .publish) :
    Tree ((s.set q { s.proc q with state := .runnable, pc := .user }).set p
      { s.proc p with pc := .user }).proc := by
  obtain ⟨hinit, hroot, hparent, halive, hunused, hidle, hembryo, hapart⟩ := h
  constructor <;> simp only [State.set_proc] <;> grind

/-- The children of a process that exits are init's, and init is alive. -/
theorem Tree.exited (h : Tree s.proc) (hrun : (s.proc p).state = .running)
    (hpc : (s.proc p).pc = .user) (hne : p ≠ initproc) : Tree (exit s p).1.proc := by
  obtain ⟨hinit, hroot, hparent, halive, hunused, hidle, hembryo, hapart⟩ := h
  have hexit := exit_proc s p
  refine ⟨?_, ?_, ?_, ?_, ?_, ?_, ?_, ?_⟩
  · grind
  · grind
  · intro q hq hst
    -- either the parent stays, or it was `p` and is init
    obtain ⟨r, hr⟩ := hparent q hq (by grind)
    rw [(hexit q).1, hr]
    split
    · exact ⟨initproc, rfl⟩
    · exact ⟨r, rfl⟩
  · intro q r hr
    rw [(hexit q).1] at hr
    split at hr
    · cases hr
      grind
    · grind
  · grind
  · grind
  · intro p' q st hpc'
    -- `p` is in no `fork`, so `q` is nobody that `p` made
    have hne' : p' ≠ p := by grind
    have hold := hembryo p' q st (by grind)
    grind
  · grind

theorem Tree.reaped (h : Tree s.proc) (hrun : (s.proc p).state = .running)
    (hq : (s.proc q).parent = some p) (hz : (s.proc q).state = .zombie) :
    Tree ((s.set q { s.proc q with
      state := .unused, pid := 0, parent := none, killed := false }).set p
        { s.proc p with pc := .user }).proc := by
  obtain ⟨hinit, hroot, hparent, halive, hunused, hidle, hembryo, hapart⟩ := h
  constructor <;> simp only [State.set_proc] <;> grind

theorem Tree.waitFailed (h : Tree s.proc) : Tree (s.set p { s.proc p with pc := .user }).proc := by
  obtain ⟨hinit, hroot, hparent, halive, hunused, hidle, hembryo, hapart⟩ := h
  constructor <;> simp only [State.set_proc] <;> grind

theorem Tree.waiting (h : Tree s.proc) (hrun : (s.proc p).state = .running) :
    Tree (s.set p { s.proc p with
      state := .sleeping, chan := some (.proc p), pc := .wait }).proc := by
  obtain ⟨hinit, hroot, hparent, halive, hunused, hidle, hembryo, hapart⟩ := h
  constructor <;> simp only [State.set_proc] <;> grind

/-- **Every step keeps the tree.** -/
theorem Tree.move {s' : State} {e : Event} (hs : Tree s.proc) (h : Move s s' e) :
    Tree s'.proc := by
  cases h with
  | sched hpid hsame => exact hs.same hsame
  | killed q => exact hs.killed
  | full p => exact hs
  | allocated p q hrun hpc hfree => exact hs.allocated s.nextpid hrun hfree
  | advance p q st st' hpc hst hst' => exact hs.advance hpc hst hst'
  | failed p q st hpc hst => exact hs.failed hpc hst
  | parent p q hpc => exact hs.parented hpc
  | forked p q hpc => exact hs.forked hpc
  | exited p hrun hpc hne => exact hs.exited hrun hpc hne
  | reaped p q hrun hq hz hpc => exact hs.reaped hrun hq hz
  | waitFailed p hpc hno => exact hs.waitFailed
  | waiting p hrun hpc hk => exact hs.waiting hrun

end Trees

/-! ### Pids -/

/-- The pids that were given to processes. -/
def allocatedPids (os : List Event) : List UInt32 :=
  os.filterMap fun
    | .allocated _ _ pid => some pid
    | _ => none

/-- The pids that `wait` has returned. -/
def reapedPids (os : List Event) : List UInt32 :=
  os.filterMap fun
    | .reaped _ _ pid => some pid
    | _ => none

/-- The pids in use are different, and those that were returned are not in use. -/
structure Pids (s : State) (os : List Event) : Prop where
  next : s.nextpid.toNat = 2 + (allocatedPids os).length
  below : ∀ q, (s.proc q).state ≠ .unused → (s.proc q).pid < s.nextpid
  distinct : ∀ q q', (s.proc q).state ≠ .unused → (s.proc q').state ≠ .unused →
    (s.proc q).pid = (s.proc q').pid → q = q'
  gone : ∀ pid ∈ reapedPids os, pid < s.nextpid ∧
    ∀ q, (s.proc q).state ≠ .unused → (s.proc q).pid ≠ pid
  once : (reapedPids os).Nodup

@[simp] theorem allocatedPids_concat (os : List Event) (e : Event) :
    allocatedPids (os ++ [e]) = allocatedPids os ++ allocatedPids [e] := List.filterMap_append

@[simp] theorem reapedPids_concat (os : List Event) (e : Event) :
    reapedPids (os ++ [e]) = reapedPids os ++ reapedPids [e] := List.filterMap_append

section Steps

variable {s s' : State} {os : List Event} {e : Event}

/-- A step that neither gives a pid nor returns one. -/
theorem Pids.frame (h : Pids s os) (hnext : s'.nextpid = s.nextpid)
    (he : allocatedPids [e] = []) (he' : reapedPids [e] = [])
    (hproc : ∀ q, (s'.proc q).state ≠ .unused →
      (s.proc q).state ≠ .unused ∧ (s'.proc q).pid = (s.proc q).pid) : Pids s' (os ++ [e]) where
  next := by rw [allocatedPids_concat, he, List.append_nil, hnext, h.next]
  below := by
    intro q hq
    obtain ⟨hused, hpid⟩ := hproc q hq
    rw [hpid, hnext]
    exact h.below q hused
  distinct := by
    intro q q' hq hq' hpid
    obtain ⟨hused, heq⟩ := hproc q hq
    obtain ⟨hused', heq'⟩ := hproc q' hq'
    rw [heq, heq'] at hpid
    exact h.distinct q q' hused hused' hpid
  gone := by
    intro pid hpid
    rw [reapedPids_concat, he', List.append_nil] at hpid
    obtain ⟨hlt, hgone⟩ := h.gone pid hpid
    refine ⟨hnext ▸ hlt, fun q hq => ?_⟩
    obtain ⟨hused, heq⟩ := hproc q hq
    rw [heq]
    exact hgone q hused
  once := by
    rw [reapedPids_concat, he', List.append_nil]
    exact h.once

theorem Pids.move (hs : Pids s os) (htree : Tree s.proc) (h : Move s s' e)
    (hroom : (allocatedPids (os ++ [e])).length < 2 ^ 31) : Pids s' (os ++ [e]) := by
  cases h with
  | sched hpid hsame =>
    refine hs.frame hpid rfl rfl fun q => ?_
    obtain ⟨-, hpid, -, -, hst⟩ := hsame q
    grind
  | killed q =>
    refine hs.frame rfl rfl rfl fun r => ?_
    simp only [State.set_proc]
    grind
  | full p => exact hs.frame rfl rfl rfl fun q hq => ⟨hq, rfl⟩
  | allocated p q hrun hpc hfree =>
    have hnext : (s.nextpid + 1).toNat = s.nextpid.toNat + 1 := by
      have hcount := hs.next
      rw [allocatedPids_concat, List.length_append] at hroom
      rw [UInt32.toNat_add, UInt32.toNat_one]
      omega
    have hlt : s.nextpid < s.nextpid + 1 := by
      rw [UInt32.lt_iff_toNat_lt]
      omega
    have hbelow := hs.below
    have hdistinct := hs.distinct
    have hne : ∀ r, (s.proc r).state ≠ .unused → (s.proc r).pid ≠ s.nextpid := by
      intro r hr heq
      exact UInt32.lt_irrefl _ (heq ▸ hs.below r hr)
    constructor
    · rw [allocatedPids_concat, List.length_append, State.set_nextpid, State.set_nextpid, hnext,
        hs.next]
      rfl
    · intro r
      simp only [State.set_proc, State.set_nextpid]
      have hr := hs.below r
      have hp := hs.below p
      grind
    · simp only [State.set_proc]
      grind
    · intro pid hpid
      rw [reapedPids_concat, show reapedPids [.allocated p q s.nextpid] = [] from rfl,
        List.append_nil] at hpid
      obtain ⟨hold, hgone⟩ := hs.gone pid hpid
      refine ⟨UInt32.lt_trans hold hlt, ?_⟩
      simp only [State.set_proc]
      grind
    · rw [reapedPids_concat, show reapedPids [.allocated p q s.nextpid] = [] from rfl,
        List.append_nil]
      exact hs.once
  | advance p q st st' hpc hst hst' =>
    refine hs.frame rfl rfl rfl fun r => ?_
    simp only [State.set_proc]
    grind
  | failed p q st hpc hst =>
    simp only [forkFail]
    refine hs.frame rfl rfl rfl fun r => ?_
    simp only [State.set_proc]
    grind
  | parent p q hpc =>
    refine hs.frame rfl rfl rfl fun r => ?_
    simp only [State.set_proc]
    grind
  | forked p q hpc =>
    have hembryo := (htree.embryo p q _ hpc).1
    refine hs.frame rfl rfl rfl fun r => ?_
    simp only [State.set_proc]
    grind
  | exited p hrun hpc hne =>
    refine hs.frame (exit_nextpid s p) rfl rfl fun q => ?_
    have hexit := exit_proc s p q
    grind
  | reaped p q hrun hq hz hpc =>
    have hdistinct := hs.distinct
    have hused : (s.proc q).state ≠ .unused := by
      rw [hz]
      decide
    constructor
    · rw [allocatedPids_concat, List.length_append]
      exact hs.next
    · intro r
      simp only [State.set_proc, State.set_nextpid]
      have hr := hs.below r
      have hp := hs.below p
      grind
    · simp only [State.set_proc]
      grind
    · intro pid hpid
      rw [reapedPids_concat, List.mem_append] at hpid
      rcases hpid with hpid | hpid
      · obtain ⟨hold, hgone⟩ := hs.gone pid hpid
        refine ⟨hold, ?_⟩
        simp only [State.set_proc]
        grind
      · rw [show reapedPids [.reaped p q (s.proc q).pid] = [(s.proc q).pid] from rfl,
          List.mem_singleton] at hpid
        refine ⟨hpid ▸ hs.below q hused, ?_⟩
        -- nobody else has the pid of the process in `q`
        simp only [State.set_proc]
        grind
    · rw [reapedPids_concat, List.nodup_append]
      refine ⟨hs.once, List.nodup_singleton _, ?_⟩
      intro pid hpid pid' hpid' heq
      rw [show reapedPids [.reaped p q (s.proc q).pid] = [(s.proc q).pid] from rfl,
        List.mem_singleton] at hpid'
      exact (hs.gone pid hpid).2 q hused (heq.trans hpid').symm
  | waitFailed p hpc hno =>
    refine hs.frame rfl rfl rfl fun r => ?_
    simp only [State.set_proc]
    grind
  | waiting p hrun hpc hk =>
    refine hs.frame rfl rfl rfl fun r => ?_
    simp only [State.set_proc]
    grind

/-! ### What became of the processes -/

/-- An exited process is in its slot until it has been returned, and a killed one that waits
has been killed while it had its pid. -/
structure Past (s : State) (os : List Event) : Prop where
  zombie : ∀ q, (s.proc q).state = .zombie → .exited q (s.proc q).pid ∈ os
  exited : ∀ os₁ q pid os₂, os = os₁ ++ .exited q pid :: os₂ →
    (∃ p, .reaped p q pid ∈ os₂) ∨ (s.proc q).state = .zombie ∧ (s.proc q).pid = pid
  killed : ∀ p, (s.proc p).pc = .wait → (s.proc p).killed = true →
    .killed (s.proc p).pid ∈ os

/-- A step in which no process exits or is returned. -/
theorem Past.frame (h : Past s os) (he : ∀ q pid, e ≠ .exited q pid)
    (hz : ∀ q, (s'.proc q).state = .zombie ↔ (s.proc q).state = .zombie)
    (hpid : ∀ q, (s.proc q).state = .zombie → (s'.proc q).pid = (s.proc q).pid)
    (hk : ∀ p, (s'.proc p).pc = .wait → (s'.proc p).killed = true →
      (s'.proc p).pid = (s.proc p).pid ∧ (s.proc p).pc = .wait ∧ (s.proc p).killed = true ∨
        e = .killed (s'.proc p).pid) : Past s' (os ++ [e]) where
  zombie := by
    intro q hq
    rw [hz] at hq
    rw [hpid q hq]
    exact List.mem_append_left _ (h.zombie q hq)
  exited := by
    intro os₁ q pid os₂ hos
    rcases concat_split hos with ⟨-, -, hlast⟩ | ⟨os₃, rfl, hos'⟩
    · exact absurd hlast.symm (he q pid)
    · rcases h.exited os₁ q pid os₃ hos' with ⟨p, hp⟩ | ⟨hq, heq⟩
      · exact .inl ⟨p, List.mem_append_left _ hp⟩
      · exact .inr ⟨(hz q).mpr hq, (hpid q hq).trans heq⟩
  killed := by
    intro p hpc hp
    rcases hk p hpc hp with ⟨heq, hpc', hp'⟩ | hlast
    · rw [heq]
      exact List.mem_append_left _ (h.killed p hpc' hp')
    · rw [hlast]
      exact List.mem_append_right _ (List.mem_singleton_self _)

theorem Past.exit (h : Past s os) (p : Slot) :
    Past (exit s p).1 (os ++ [.exited p (s.proc p).pid]) where
  zombie := by
    intro q hq
    have hexit := exit_proc s p q
    have hz := h.zombie q
    grind
  exited := by
    intro os₁ q pid os₂ hos
    have hexit := exit_proc s p q
    rcases concat_split hos with ⟨-, -, hlast⟩ | ⟨os₃, rfl, hos'⟩
    · grind
    · rcases h.exited os₁ q pid os₃ hos' with ⟨r, hr⟩ | ⟨hq, heq⟩
      · exact .inl ⟨r, List.mem_append_left _ hr⟩
      · grind
  killed := by
    intro q hq hk
    have hexit := exit_proc s p q
    have hold := h.killed q
    grind

theorem Past.reap (h : Past s os) {p q : Slot} (hrun : (s.proc p).state = .running)
    (hz : (s.proc q).state = .zombie) :
    Past ((s.set q { s.proc q with
      state := .unused, pid := 0, parent := none, killed := false }).set p
        { s.proc p with pc := .user }) (os ++ [.reaped p q (s.proc q).pid]) where
  zombie := by
    intro r hr
    have hold := h.zombie r
    simp only [State.set_proc] at hr ⊢
    grind
  exited := by
    intro os₁ r pid os₂ hos
    rcases concat_split hos with ⟨-, -, hlast⟩ | ⟨os₃, rfl, hos'⟩
    · cases hlast
    · rcases h.exited os₁ r pid os₃ hos' with ⟨p', hp'⟩ | ⟨hr, heq⟩
      · exact .inl ⟨p', List.mem_append_left _ hp'⟩
      · by_cases hrq : r = q
        · -- this is the process that is returned
          subst hrq
          exact .inl ⟨p, by rw [heq]; exact List.mem_append_right _ (List.mem_singleton_self _)⟩
        · simp only [State.set_proc]
          grind
  killed := by
    intro r hr hk
    have hold := h.killed r
    simp only [State.set_proc] at hr hk ⊢
    grind

theorem Past.move (hs : Past s os) (htree : Tree s.proc) (h : Move s s' e) :
    Past s' (os ++ [e]) := by
  cases h with
  | sched hpid hsame =>
    unfold Same at hsame
    refine hs.frame (by simp) ?_ ?_ ?_ <;> grind
  | killed q =>
    refine hs.frame (by simp) ?_ ?_ ?_ <;> simp only [State.set_proc] <;> grind
  | full p => exact hs.frame (by simp) (fun q => Iff.rfl) (fun q _ => rfl) (by grind)
  | allocated p q hrun hpc hfree =>
    have hidle := htree.idle
    refine hs.frame (by simp) ?_ ?_ ?_ <;> simp only [State.set_proc] <;> grind
  | advance p q st st' hpc hst hst' =>
    refine hs.frame (by simp) ?_ ?_ ?_ <;> simp only [State.set_proc] <;> grind
  | failed p q st hpc hst =>
    have hembryo := htree.embryo p q st hpc
    simp only [forkFail]
    refine hs.frame (by simp) ?_ ?_ ?_ <;> simp only [State.set_proc] <;> grind
  | parent p q hpc =>
    refine hs.frame (by simp) ?_ ?_ ?_ <;> simp only [State.set_proc] <;> grind
  | forked p q hpc =>
    have hembryo := htree.embryo p q _ hpc
    refine hs.frame (by simp) ?_ ?_ ?_ <;> simp only [State.set_proc] <;> grind
  | exited p hrun hpc hne => exact hs.exit p
  | reaped p q hrun hq hz hpc => exact hs.reap hrun hz
  | waitFailed p hpc hno =>
    refine hs.frame (by simp) ?_ ?_ ?_ <;> simp only [State.set_proc] <;> grind
  | waiting p hrun hpc hk =>
    refine hs.frame (by simp) ?_ ?_ ?_ <;> simp only [State.set_proc] <;> grind

end Steps

/-! ### Runs -/

/-- All of it; pids need room. -/
structure Inv (s : State) (os : List Event) : Prop where
  tree : Tree s.proc
  pids : (allocatedPids os).length < 2 ^ 31 → Pids s os
  past : Past s os

/-- **Every step keeps the invariant.** -/
theorem inv_step {s s' : State} {os : List Event} {a : Action} {e : Event} (hs : Inv s os)
    (h : step s a = some (s', e)) : Inv s' (os ++ [e]) where
  tree := hs.tree.move (step_move h)
  pids := by
    intro hroom
    have hroom' : (allocatedPids os).length < 2 ^ 31 := by
      rw [allocatedPids_concat, List.length_append] at hroom
      omega
    exact (hs.pids hroom').move hs.tree (step_move h) hroom
  past := hs.past.move hs.tree (step_move h)

theorem inv_boot : Inv boot [] where
  tree := by
    constructor <;> simp only [boot, Function.update_apply] <;> grind [Proc.blank]
  pids := by
    intro _
    refine ⟨rfl, ?_, ?_, fun pid hpid => absurd hpid List.not_mem_nil, List.nodup_nil⟩ <;>
      simp only [boot, Function.update_apply] <;> grind [Proc.blank]
  past := by
    refine ⟨?_, fun os₁ q pid os₂ hos => by simp at hos, ?_⟩ <;>
      simp only [boot, Function.update_apply] <;> grind [Proc.blank]

theorem run_inv {is : List Action} {s : State} {os : List Event}
    (h : run step boot is = some (s, os)) : Inv s os :=
  run_history_invariant Inv (fun _ _ _ _ hs hp => inv_step hs hp) is boot [] (s, os) inv_boot h

/-- What holds of the processes in every state of a run. -/
structure Orderly (s : State) (os : List Event) : Prop where
  /-- A process other than init has a parent, which is neither free nor a zombie. -/
  parent : ∀ q, q ≠ initproc → (s.proc q).state ≠ .unused → (s.proc q).state ≠ .embryo →
    ∃ p, (s.proc q).parent = some p ∧ (s.proc p).state ≠ .unused ∧ (s.proc p).state ≠ .zombie
  distinct : ∀ q q', (s.proc q).state ≠ .unused → (s.proc q').state ≠ .unused →
    (s.proc q).pid = (s.proc q').pid → q = q'
  /-- `wait` returns a process at most once. -/
  once : (reapedPids os).Nodup
  /-- A slot is used again after the process that exited in it has been returned. -/
  reuse : ∀ os₁ q pid os₂ p pid' os₃,
    os = os₁ ++ .exited q pid :: os₂ ++ .allocated p q pid' :: os₃ → ∃ p', .reaped p' q pid ∈ os₂

/-- What `wait` may do. -/
structure Fair (s : State) (os : List Event) (e : Event) : Prop where
  /-- It returns a process that has exited, to the parent. -/
  reaped : ∀ p q pid, e = .reaped p q pid →
    (s.proc q).parent = some p ∧ (s.proc q).pid = pid ∧ .exited q pid ∈ os
  /-- It fails if there is no child, or the caller has been killed. -/
  failed : ∀ p, e = .waitFailed p →
    (∀ q, (s.proc q).parent ≠ some p) ∨ .killed (s.proc p).pid ∈ os

theorem Inv.fair {s s' : State} {os : List Event} {a : Action} {e : Event} (hs : Inv s os)
    (h : step s a = some (s', e)) : Fair s os e := by
  cases step_move h with
  | reaped p q hrun hq hz hpc =>
    refine ⟨fun p' q' pid heq => ?_, fun p' heq => by cases heq⟩
    cases heq
    exact ⟨hq, rfl, hs.past.zombie q hz⟩
  | waitFailed p hpc hno =>
    refine ⟨fun p' q' pid heq => (by cases heq), fun p' heq => ?_⟩
    cases heq
    rcases hno with hno | hk
    · exact .inl hno
    · rcases hpc with ⟨-, hk'⟩ | hwait
      · rw [hk] at hk'
        cases hk'
      · exact .inr (hs.past.killed p hwait hk)
  | _ => exact ⟨fun p' q' pid heq => (by cases heq), fun p' heq => by cases heq⟩

/-- **Life and death.**  In a run with fewer than 2³¹ processes, every process but init has a
parent that is alive, pids differ, a process that exited keeps its slot until `wait` has
returned it to its parent, which happens once, and `wait` fails only in a process that has no
child or was killed. -/
theorem lifecycle {is : List Action} {s : State} {os : List Event}
    (h : run step boot is = some (s, os)) (hroom : (allocatedPids os).length < 2 ^ 31) :
    Orderly s os ∧ ∀ a s' e, step s a = some (s', e) → Fair s os e := by
  have hs := run_inv h
  refine ⟨⟨?_, (hs.pids hroom).distinct, (hs.pids hroom).once, ?_⟩, fun a s' e => hs.fair⟩
  · intro q hq hused hembryo
    have hlive : (s.proc q).Live ∨ (s.proc q).state = .zombie := by
      rw [Proc.Live]
      cases hst : (s.proc q).state <;> simp_all
    obtain ⟨p, hp⟩ := hs.tree.parent q hq hlive
    have hlive' := hs.tree.alive q p hp
    refine ⟨p, hp, ?_, ?_⟩ <;> grind
  · intro os₁ q pid os₂ p pid' os₃ hos
    subst hos
    obtain ⟨is₁, is₂, m, hm, hrest⟩ := exists_run_of_outputs_append h
    obtain ⟨a, is₃, m', hstep, -⟩ := exists_step_of_outputs_cons hrest
    rcases (run_inv hm).past.exited os₁ q pid os₂ rfl with hreaped | ⟨hz, -⟩
    · exact hreaped
    · -- the slot is not free
      cases step_move hstep with
      | allocated _ _ _ _ hfree =>
        rw [hz] at hfree
        cases hfree

/-- A process that init makes and waits for. -/
def oneChild : List Action :=
  [.run initproc, .fork initproc, .forkNext initproc true, .forkNext initproc true,
    .forkNext initproc true, .forkNext initproc true, .wait initproc, .run 1, .exit 1,
    .run initproc, .waitNext initproc]

theorem lifecycle_oneChild : ∃ s os, run step boot oneChild = some (s, os) ∧
    .reaped initproc 1 2 ∈ os ∧ Orderly s os := by
  have hrun : (run step boot oneChild).map Prod.snd = some
      [.quiet, .allocated initproc 1 2, .quiet, .quiet, .quiet, .forked initproc 1 2, .quiet,
        .quiet, .exited 1 2, .quiet, .reaped initproc 1 2] := by decide +kernel
  obtain ⟨⟨s, os⟩, hs, rfl⟩ := Option.map_eq_some_iff.mp hrun
  exact ⟨s, _, hs, by decide, (lifecycle hs (by decide)).1⟩

end Lifecycle
end Xv6
