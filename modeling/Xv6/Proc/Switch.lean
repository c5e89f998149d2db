import Xv6.Lib.Machine

/-!
# Spin locks and the switch of processes

`acquire` and `release` of `spinlock.c`, and `sleep`, `wakeup`, `yield`, `exit`, `sched`,
`scheduler` and `forkret` of `proc.c`, for any number of processors.  The processors take turns at
every statement, and an interrupt comes wherever interrupts are on.

A process gives up its processor with `ptable.lock` held, and another process, which the scheduler
switches to, releases it.

## Main definitions

* `Op` — the statements.
* `acquire`, `release`, `sched`, `sleep`, `yield`, `wakeup`, `exit`, `scheduler` — the functions.
* `Frame`, `Thread`, `State` — the kernel stacks, the processors, the locks and the table.
* `step` — what a processor does next.
* `Disciplined` — what the rest of the kernel keeps to.
-/

namespace Xv6
namespace Switch

variable {C K L : Type}

/-! ### Data -/

/-- `ptable.lock`, or another lock. -/
abbrev Lock (L : Type) := Option L

/-- `&ptable.lock` -/
abbrev ptable : Lock L := none

/-- `struct cpu`, and the flag `FL_IF` of the processor. -/
structure Cpu where
  fl : Bool
  ncli : ℕ
  intena : Bool
  proc : Option ℕ

/-- `struct spinlock`, without what is kept for debugging only. -/
structure Spinlock (C : Type) where
  locked : Bool
  cpu : Option C

inductive Procstate
  | unused
  | embryo
  | sleeping
  | runnable
  | running
  | zombie
  deriving DecidableEq

/-- `p->state` and `p->chan` -/
structure Proc (K : Type) where
  state : Procstate
  chan : Option K

/-! ### Code -/

/-- The statements. -/
inductive Op (K L : Type)
  /-- `eflags = readeflags()` -/
  | readeflags
  /-- The rest of `pushcli`, with interrupts off. -/
  | cli
  | popcli
  /-- `r = lock->locked && lock->cpu == mycpu()` -/
  | look (l : Lock L)
  /-- `if(r) panic(msg)` -/
  | refuse (msg : String)
  /-- `if(!r) panic(msg)` -/
  | demand (msg : String)
  /-- `while(xchg(&lk->locked, 1) != 0)` -/
  | xchg (l : Lock L)
  /-- `lk->cpu = mycpu()` -/
  | mark (l : Lock L)
  /-- `lk->cpu = 0` -/
  | unmark (l : Lock L)
  /-- `lk->locked = 0` -/
  | clear (l : Lock L)
  /-- `p = mycpu()->proc` -/
  | myproc
  /-- `if(p == 0) panic(msg)` -/
  | demandProc (msg : String)
  /-- `if(mycpu()->ncli != 1) panic("sched locks")` -/
  | oneLock
  /-- `if(p->state == RUNNING) panic("sched running")` -/
  | notRunning
  /-- `if(readeflags()&FL_IF) panic("sched interruptible")` -/
  | interruptible
  /-- `intena = mycpu()->intena` -/
  | save
  /-- `mycpu()->intena = intena` -/
  | restore
  /-- `swtch(&p->context, mycpu()->scheduler)` -/
  | swtch
  /-- `p->state = state` -/
  | setState (state : Procstate)
  /-- `p->chan = chan; p->state = SLEEPING` -/
  | asleep (chan : K)
  /-- `p->chan = 0` -/
  | awake
  | wakeup1 (chan : K)
  | panic (msg : String)
  | sti
  /-- The loop of `scheduler` at the process `i`. -/
  | scan (i : ℕ)
  /-- `c->proc = 0` -/
  | leave

abbrev Code (K L : Type) := List (Op K L)

def pushcli : Code K L := [.readeflags, .cli]

def holding (l : Lock L) : Code K L := pushcli ++ [.look l, .popcli]

def acquire (l : Lock L) : Code K L :=
  pushcli ++ holding l ++ [.refuse "acquire", .xchg l, .mark l]

def release (l : Lock L) : Code K L :=
  holding l ++ [.demand "release", .unmark l, .clear l, .popcli]

def myproc : Code K L := pushcli ++ [.myproc, .popcli]

def sched : Code K L :=
  myproc ++ holding ptable ++ [.demand "sched ptable.lock", .oneLock, .notRunning, .interruptible,
    .save, .swtch, .restore]

def yield : Code K L :=
  acquire ptable ++ myproc ++ [.setState .runnable] ++ sched ++ release ptable

def sleep [DecidableEq L] (chan : K) (lk : Lock L) : Code K L :=
  myproc ++ [.demandProc "sleep"] ++
    (if lk ≠ ptable then acquire ptable ++ release lk else []) ++ [.asleep chan] ++ sched ++
    [.awake] ++ (if lk ≠ ptable then release ptable ++ acquire lk else [])

def wakeup (chan : K) : Code K L := acquire ptable ++ [.wakeup1 chan] ++ release ptable

/-- `exit`, which wakes up its parent, and `initproc` for a zombie that it leaves behind. -/
def exit (chans : List K) : Code K L :=
  myproc ++ acquire ptable ++ chans.map .wakeup1 ++ [.setState .zombie] ++ sched ++
    [.panic "zombie exit"]

/-- One round of the loop of `scheduler`. -/
def scheduler : Code K L := [.sti] ++ acquire ptable ++ [.scan 0] ++ release ptable

def forkret : Code K L := release ptable

/-! ### States -/

/-- The local variables, where `intena` is that of `sched`. -/
structure Regs where
  eflags : Bool
  r : Bool
  p : Option ℕ
  intena : Bool

def Regs.init : Regs := ⟨false, false, none, false⟩

/-- What an interrupt finds on the stack, or leaves there. -/
structure Frame (K L : Type) where
  code : Code K L
  regs : Regs
  /-- The locks that the code has acquired. -/
  mine : Finset (Lock L)
  /-- Whether interrupts are on where the code has acquired none, if it relies on that. -/
  level : Option Bool

/-- A kernel stack. -/
structure Thread (K L : Type) where
  top : Frame K L
  below : List (Frame K L)

/-- Whose stack it is. -/
inductive Who (C : Type)
  | sched (c : C)
  | proc (p : ℕ)
  deriving DecidableEq

structure State (C K L : Type) where
  cpu : C → Cpu
  /-- The stack that the processor runs on. -/
  on : C → Who C
  lock : Lock L → Spinlock C
  proc : ℕ → Proc K
  thread : Who C → Thread K L
  /-- Who has the embryo from `allocproc`. -/
  maker : ℕ → Option (Who C)

/-- What the rest of the kernel does with `ptable.lock` held. -/
inductive TableOp (K : Type)
  | wakeup1 (chan : K)
  /-- The loop of `allocproc`. -/
  | alloc
  /-- `np->state = RUNNABLE` -/
  | ready (q : ℕ)
  /-- `wait` frees the stack of a zombie. -/
  | reap (q : ℕ)
  /-- `kill` wakes a process. -/
  | rouse (q : ℕ)

inductive Call (K L : Type)
  | acquire (l : Lock L)
  | release (l : Lock L)
  | sleep (chan : K) (lk : Lock L)
  | wakeup (chan : K)
  /-- `trap` gives up the processor, if a process runs on it. -/
  | yield
  | exit (chans : List K)
  | scheduler

inductive Action (C K L : Type)
  /-- The next statement. -/
  | op (c : C)
  | interrupt (c : C)
  /-- `iret`, with interrupts on in the flags that were saved. -/
  | iret (c : C)
  | call (c : C) (f : Call K L)
  | table (c : C) (t : TableOp K)
  /-- `p->state = UNUSED`, without the lock, where `fork` fails. -/
  | giveUp (c : C) (q : ℕ)

section Step

variable [DecidableEq C] [DecidableEq K] [DecidableEq L]

def State.top (s : State C K L) (c : C) : Frame K L := (s.thread (s.on c)).top

def State.setTop (s : State C K L) (c : C) (f : Frame K L) : State C K L :=
  { s with thread := Function.update s.thread (s.on c) ⟨f, (s.thread (s.on c)).below⟩ }

def State.setState (s : State C K L) (p : ℕ) (st : Procstate) : State C K L :=
  { s with proc := Function.update s.proc p { s.proc p with state := st } }

def State.wakeup1 (s : State C K L) (chan : K) : State C K L :=
  { s with proc := fun p => if (s.proc p).state = .sleeping ∧ (s.proc p).chan = some chan then
      { s.proc p with state := .runnable } else s.proc p }

def mycpuMsg : String := "mycpu called with interrupts enabled"

/-- The statements that touch nothing but the processor and the local variables. -/
def Op.loc (u : Cpu) (holds : Lock L → Bool) (state : ℕ → Procstate) (r : Regs) :
    Op K L → Option (Except String (Cpu × Regs))
  | .readeflags => some (.ok (u, { r with eflags := u.fl }))
  | .cli => some (.ok (⟨false, u.ncli + 1, if u.ncli = 0 then r.eflags else u.intena, u.proc⟩, r))
  | .popcli => some (
      if u.fl then .error "popcli - interruptible"
      else if u.ncli = 0 then .error "popcli"
      else .ok ({ u with ncli := u.ncli - 1, fl := decide (u.ncli = 1) && u.intena }, r))
  | .look l => some (if u.fl then .error mycpuMsg else .ok (u, { r with r := holds l }))
  | .refuse msg => some (if r.r then .error msg else .ok (u, r))
  | .demand msg => some (if r.r then .ok (u, r) else .error msg)
  | .myproc => some (if u.fl then .error mycpuMsg else .ok (u, { r with p := u.proc }))
  | .demandProc msg => some (if r.p.isSome then .ok (u, r) else .error msg)
  | .oneLock => some (
      if u.fl then .error mycpuMsg
      else if u.ncli = 1 then .ok (u, r) else .error "sched locks")
  | .notRunning => some (
      if r.p.any fun p => state p = .running then .error "sched running" else .ok (u, r))
  | .interruptible => some (if u.fl then .error "sched interruptible" else .ok (u, r))
  | .save => some (if u.fl then .error mycpuMsg else .ok (u, { r with intena := u.intena }))
  | .restore => some (if u.fl then .error mycpuMsg else .ok ({ u with intena := r.intena }, r))
  | .panic msg => some (.error msg)
  | .sti => some (.ok ({ u with fl := true }, r))
  | .leave => some (.ok ({ u with proc := none }, r))
  | _ => none

/-- The other statements, on the processor `c`, with the code `k` behind.  There is no next state
while a lock that is spun on is not free. -/
def Op.exec (nproc : ℕ) (s : State C K L) (c : C) (k : Code K L) :
    Op K L → Option (Except String (State C K L))
  | .xchg l =>
      if (s.lock l).locked then none
      else some (.ok { s.setTop c { s.top c with code := k, mine := insert l (s.top c).mine } with
        lock := Function.update s.lock l { s.lock l with locked := true } })
  | .mark l =>
      if (s.cpu c).fl then some (.error mycpuMsg)
      else some (.ok { s.setTop c { s.top c with code := k } with
        lock := Function.update s.lock l { s.lock l with cpu := some c } })
  | .unmark l =>
      some (.ok { s.setTop c { s.top c with code := k } with
        lock := Function.update s.lock l { s.lock l with cpu := none } })
  | .clear l =>
      some (.ok { s.setTop c { s.top c with code := k, mine := (s.top c).mine.erase l } with
        lock := Function.update s.lock l { s.lock l with locked := false } })
  | .setState st =>
      match (s.top c).regs.p with
      | some p => some (.ok ((s.setTop c { s.top c with code := k }).setState p st))
      | none => some (.error "trap")
  | .asleep chan =>
      match (s.top c).regs.p with
      | some p => some (.ok { s.setTop c { s.top c with code := k } with
          proc := Function.update s.proc p ⟨.sleeping, some chan⟩ })
      | none => some (.error "trap")
  | .awake =>
      match (s.top c).regs.p with
      | some p => some (.ok { s.setTop c { s.top c with code := k } with
          proc := Function.update s.proc p { s.proc p with chan := none } })
      | none => some (.error "trap")
  | .wakeup1 chan => some (.ok ((s.setTop c { s.top c with code := k }).wakeup1 chan))
  | .swtch =>
      some (.ok { s.setTop c { s.top c with code := k } with
        on := Function.update s.on c (.sched c) })
  | .scan i =>
      if nproc ≤ i then some (.ok (s.setTop c { s.top c with code := k }))
      else if (s.proc i).state = .runnable then
        -- `c->proc = p; p->state = RUNNING; swtch(&(c->scheduler), p->context)`
        some (.ok { (s.setTop c { s.top c with code := .leave :: .scan (i + 1) :: k }).setState i
            .running with
          cpu := Function.update s.cpu c { s.cpu c with proc := some i }
          on := Function.update s.on c (.proc i) })
      else some (.ok (s.setTop c { s.top c with code := .scan (i + 1) :: k }))
  | _ => none

/-- The next statement of a processor. -/
def next (nproc : ℕ) (s : State C K L) (c : C) : Option (Except String (State C K L)) :=
  match (s.top c).code with
  | [] => none
  | op :: k =>
      match op.loc (s.cpu c) (fun l => (s.lock l).locked && (s.lock l).cpu == some c)
        (fun p => (s.proc p).state) (s.top c).regs with
      | some (.ok (u, r)) => some (.ok { s.setTop c { s.top c with code := k, regs := r } with
          cpu := Function.update s.cpu c u })
      | some (.error msg) => some (.error msg)
      | none => op.exec nproc s c k

/-- The code of a call. -/
def Call.code : Call K L → Code K L
  | .acquire l => Switch.acquire l
  | .release l => Switch.release l
  | .sleep chan lk => Switch.sleep chan lk
  | .wakeup chan => Switch.wakeup chan
  | .yield => Switch.yield
  | .exit chans => Switch.exit chans
  | .scheduler => Switch.scheduler

/-- The stack of a new process, which goes to user space from `forkret`. -/
def newThread : Thread K L :=
  ⟨⟨forkret, .init, {ptable}, none⟩, [⟨[], .init, ∅, some true⟩]⟩

def TableOp.exec (nproc : ℕ) (s : State C K L) (c : C) : TableOp K → State C K L
  | .wakeup1 chan => s.wakeup1 chan
  | .alloc =>
      match (List.range nproc).find? fun q => (s.proc q).state = .unused with
      | some q => { s.setState q .embryo with maker := Function.update s.maker q (some (s.on c)) }
      | none => s
  | .ready q =>
      { s.setState q .runnable with
        maker := Function.update s.maker q none
        thread := Function.update s.thread (.proc q) newThread }
  | .reap q => if (s.proc q).state = .zombie then s.setState q .unused else s
  | .rouse q => if (s.proc q).state = .sleeping then s.setState q .runnable else s

/-- A step, and the message of a panic. -/
def step (nproc : ℕ) (s : State C K L) : Action C K L → Option (State C K L × Option String)
  | .op c =>
      match next nproc s c with
      | some (.ok s') => some (s', none)
      | some (.error msg) => some (s, some msg)
      | none => none
  | .interrupt c =>
      if (s.cpu c).fl then
        some ({ s with
          cpu := Function.update s.cpu c { s.cpu c with fl := false }
          thread := Function.update s.thread (s.on c)
            ⟨⟨[], .init, ∅, some false⟩, s.top c :: (s.thread (s.on c)).below⟩ }, none)
      else none
  | .iret c =>
      match (s.top c).code, (s.thread (s.on c)).below with
      | [], f :: fs => some ({ s with
          cpu := Function.update s.cpu c { s.cpu c with fl := true }
          thread := Function.update s.thread (s.on c) ⟨f, fs⟩ }, none)
      | _, _ => none
  | .call c f =>
      match (s.top c).code with
      | [] => some (s.setTop c { s.top c with code := f.code }, none)
      | _ => none
  | .table c t =>
      match (s.top c).code with
      | [] => some (t.exec nproc s c, none)
      | _ => none
  | .giveUp c q =>
      match (s.top c).code with
      | [] => some ({ s.setState q .unused with maker := Function.update s.maker q none }, none)
      | _ => none

end Step

/-! ### Discipline -/

/-- What the kernel keeps to in its calls.  It is about what the running code has acquired itself,
not about the processor or the code that it has interrupted. -/
def Call.Allowed (w : Who C) (f : Frame K L) (below : List (Frame K L)) (proc : Option ℕ)
    (state : ℕ → Procstate) : Call K L → Prop
  | .acquire l => l ∉ f.mine
  | .release l => l ∈ f.mine
  | .sleep _ lk => (∃ p, w = .proc p) ∧ f.mine = {lk}
  | .wakeup _ => ptable ∉ f.mine
  -- `myproc() && myproc()->state == RUNNING`, with no lock
  | .yield => (∃ p, proc = some p ∧ state p = .running) ∧ f.mine = ∅
  | .exit _ => (∃ p, w = .proc p) ∧ f.mine = ∅
  | .scheduler => (∃ c, w = .sched c) ∧ below = [] ∧ f.mine = ∅

def Disciplined (s : State C K L) : Action C K L → Prop
  | .op _ | .interrupt _ => True
  | .iret c => (s.top c).mine = ∅
  | .call c f =>
      f.Allowed (s.on c) (s.top c) (s.thread (s.on c)).below (s.cpu c).proc fun p =>
        (s.proc p).state
  | .table c t => ptable ∈ (s.top c).mine ∧
      match t with
      | .ready q => s.maker q = some (s.on c)
      | _ => True
  | .giveUp c q => s.maker q = some (s.on c)

/-- The processors come to their schedulers, where `userinit` has made one process. -/
def boot (p₀ : ℕ) : State C K L where
  cpu _ := ⟨false, 0, false, none⟩
  on c := .sched c
  lock _ := ⟨false, none⟩
  proc p := ⟨if p = p₀ then .runnable else .unused, none⟩
  thread
    | .sched _ => ⟨⟨[], .init, ∅, none⟩, []⟩
    | .proc _ => newThread
  maker _ := none

end Switch
end Xv6
