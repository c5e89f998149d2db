import Xv6.Lib.Machine
import Xv6.Lib.Table
import Xv6.Lib.Wp

/-!
# Descriptors and file structures

The calls that make and drop references to file structures: `open`, `dup`, `pipe`, `fork`,
`close` and `exit`, over `file.c`, `pipe.c` and the tables of descriptors.

A call is one step, with what it meets outside (the inode that a path names, the memory it
gets) as its arguments.

## Main definitions

* `State`, `Panic`, `call` — the tables, and what a call does with them.
* `Counts` — the reference counts are right, up to the references that a call has in hand.

## Main results

* `wp_fileclose`, `wp_pipealloc`, … — **what each function does to the counts**.
* `counts_call` — every call leaves the counts right, and only the exit of init panics.
* `references_counted` — the same for every sequence of calls.
-/

namespace Xv6
namespace Descriptors

open Machine Prog Table

/-- `NPROC` -/
def nproc : ℕ := 64

/-- `NOFILE` -/
def nofile : ℕ := 16

/-- `NFILE` -/
def nfile : ℕ := 100

instance : NeZero nproc := ⟨by decide⟩

instance : NeZero nofile := ⟨by decide⟩

instance : NeZero nfile := ⟨by decide⟩

inductive FileType
  | none
  | pipe
  | inode
  deriving DecidableEq

/-- `struct file` -/
structure File where
  type : FileType
  ref : ℕ
  readable : Bool
  writable : Bool
  /-- The page of the pipe. -/
  pipe : ℕ
  ip : ℕ
  off : UInt32
  deriving DecidableEq

/-- `struct pipe`, without what is in it. -/
structure Pipe where
  readopen : Bool
  writeopen : Bool
  deriving DecidableEq

inductive Procstate
  | unused
  | embryo
  /-- The process exists and has not exited. -/
  | used
  | zombie
  deriving DecidableEq

/-- The part of `struct proc` that refers to files. -/
structure Proc where
  state : Procstate
  ofile : Fin nofile → Option (Fin nfile)
  cwd : ℕ

/-- What happens to the pages of pipes. -/
inductive Event
  | kalloc (page : ℕ)
  | pipeclose (page : ℕ) (writable : Bool)
  | kfree (page : ℕ)
  deriving DecidableEq

structure State where
  /-- `ftable` -/
  file : Fin nfile → File
  proc : Fin nproc → Proc
  /-- The pages that hold pipes. -/
  pipe : ℕ → Option Pipe
  /-- The references to each inode, as `ip->ref`. -/
  iref : ℕ → ℕ
  log : List Event

inductive Panic
  | filedup
  | fileclose
  /-- `pipeclose` of a page that holds no pipe -/
  | pipeclose
  /-- `iput` of an inode without references -/
  | iput
  /-- `exit` of init -/
  | exit
  deriving DecidableEq

abbrev Kernel (α : Type) := Prog State Panic α

/-! ### The code -/

def State.setFile (s : State) (f : Fin nfile) (x : File) : State :=
  { s with file := Function.update s.file f x }

def State.setProc (s : State) (p : Fin nproc) (x : Proc) : State :=
  { s with proc := Function.update s.proc p x }

def Proc.setOfile (x : Proc) (fd : Fin nofile) (v : Option (Fin nfile)) : Proc :=
  { x with ofile := Function.update x.ofile fd v }

def State.setOfile (s : State) (p : Fin nproc) (fd : Fin nofile) (v : Option (Fin nfile)) : State :=
  s.setProc p ((s.proc p).setOfile fd v)

def State.setPipe (s : State) (page : ℕ) (q : Option Pipe) : State :=
  { s with pipe := Function.update s.pipe page q }

def State.setIref (s : State) (ip n : ℕ) : State :=
  { s with iref := Function.update s.iref ip n }

def State.note (s : State) (e : Event) : State := { s with log := s.log ++ [e] }

/-- `filealloc` -/
def filealloc : Kernel (Option (Fin nfile)) := do
  let s ← get
  match find fun f => (s.file f).ref = 0 with
  | none => return none
  | some f =>
      set (s.setFile f { s.file f with ref := 1 })
      return some f

/-- `filedup` -/
def filedup (f : Fin nfile) : Kernel Unit := do
  let s ← get
  if (s.file f).ref < 1 then stop .filedup
  else set (s.setFile f { s.file f with ref := (s.file f).ref + 1 })

/-- A reference more, by `iget` or `idup`. -/
def iget (ip : ℕ) : Kernel Unit := modify fun s => s.setIref ip (s.iref ip + 1)

/-- `iput` -/
def iput (ip : ℕ) : Kernel Unit := do
  let s ← get
  if s.iref ip < 1 then stop .iput else set (s.setIref ip (s.iref ip - 1))

/-- `pipeclose` -/
def pipeclose (page : ℕ) (writable : Bool) : Kernel Unit := do
  let s ← get
  match s.pipe page with
  | none => stop .pipeclose
  | some q =>
      let q := if writable then { q with writeopen := false } else { q with readopen := false }
      let s := s.note (.pipeclose page writable)
      if q.readopen = false ∧ q.writeopen = false then
        set ((s.setPipe page none).note (.kfree page))
      else set (s.setPipe page (some q))

/-- `fileclose` -/
def fileclose (f : Fin nfile) : Kernel Unit := do
  let s ← get
  let ff := s.file f
  if ff.ref < 1 then stop .fileclose
  else if 0 < ff.ref - 1 then set (s.setFile f { ff with ref := ff.ref - 1 })
  else
    set (s.setFile f { ff with ref := 0, type := .none })
    match ff.type with
    | .pipe => pipeclose ff.pipe ff.writable
    | .inode => iput ff.ip
    | .none => return ()

/-- `pipealloc`; `mem` is what `kalloc` gives. -/
def pipealloc (mem : Option ℕ) : Kernel (Option (Fin nfile × Fin nfile)) := do
  match ← filealloc with
  | none => return none
  | some f0 =>
      match ← filealloc with
      | none =>
          fileclose f0
          return none
      | some f1 =>
          match mem with
          | none =>
              fileclose f0
              fileclose f1
              return none
          | some page =>
              modify fun s => (s.setPipe page (some ⟨true, true⟩)).note (.kalloc page)
              modify fun s => s.setFile f0 { s.file f0 with
                type := .pipe, readable := true, writable := false, pipe := page }
              modify fun s => s.setFile f1 { s.file f1 with
                type := .pipe, readable := false, writable := true, pipe := page }
              return some (f0, f1)

/-- `argfd` -/
def argfd (p : Fin nproc) (fd : ℤ) : Kernel (Option (Fin nofile × Fin nfile)) := do
  let s ← get
  if h : 0 ≤ fd ∧ fd < nofile then
    let i : Fin nofile := ⟨fd.toNat, by omega⟩
    return ((s.proc p).ofile i).map fun f => (i, f)
  else return none

/-- `fdalloc` -/
def fdalloc (p : Fin nproc) (f : Fin nfile) : Kernel (Option (Fin nofile)) := do
  let s ← get
  match find fun fd => (s.proc p).ofile fd = none with
  | none => return none
  | some fd =>
      set (s.setOfile p fd (some f))
      return some fd

/-- `sys_dup` -/
def sysDup (p : Fin nproc) (fd : ℤ) : Kernel ℤ := do
  match ← argfd p fd with
  | none => return -1
  | some (_, f) =>
      match ← fdalloc p f with
      | none => return -1
      | some fd =>
          filedup f
          return fd.val

/-- `sys_close` -/
def sysClose (p : Fin nproc) (fd : ℤ) : Kernel ℤ := do
  match ← argfd p fd with
  | none => return -1
  | some (i, f) =>
      modify fun s => s.setOfile p i none
      fileclose f
      return 0

def oWronly : UInt32 := 0x001

def oRdwr : UInt32 := 0x002

def oCreate : UInt32 := 0x200

/-- `sys_open`; `found` is the inode that `create` or `namei` gives, and whether it is a
directory. -/
def sysOpen (p : Fin nproc) (omode : UInt32) (found : Option (ℕ × Bool)) : Kernel ℤ := do
  match found with
  | none => return -1
  | some (ip, dir) =>
      iget ip
      if omode &&& oCreate = 0 ∧ dir = true ∧ omode ≠ 0 then
        iput ip
        return -1
      else
        match ← filealloc with
        | none =>
            iput ip
            return -1
        | some f =>
            match ← fdalloc p f with
            | none =>
                fileclose f
                iput ip
                return -1
            | some fd =>
                modify fun s => s.setFile f { s.file f with
                  type := .inode
                  ip := ip
                  off := 0
                  readable := omode &&& oWronly = 0
                  writable := omode &&& oWronly ≠ 0 ∨ omode &&& oRdwr ≠ 0 }
                return fd.val

/-- `sys_pipe`; the argument is there if `arg` holds. -/
def sysPipe (p : Fin nproc) (arg : Bool) (mem : Option ℕ) : Kernel ℤ := do
  if arg = false then return -1
  else
    match ← pipealloc mem with
    | none => return -1
    | some (rf, wf) =>
        match ← fdalloc p rf with
        | none =>
            fileclose rf
            fileclose wf
            return -1
        | some fd0 =>
            match ← fdalloc p wf with
            | none =>
                modify fun s => s.setOfile p fd0 none
                fileclose rf
                fileclose wf
                return -1
            | some _ => return 0

/-- The loop of `fork` over the descriptors, for one of them. -/
def inherit (p np : Fin nproc) (fd : Fin nofile) : Kernel Unit := do
  let s ← get
  match (s.proc p).ofile fd with
  | none => return ()
  | some f =>
      filedup f
      modify fun s => s.setOfile np fd (some f)

/-- `fork`; the flags are whether it gets the memory for the kernel stack and for the copy. -/
def fork (p : Fin nproc) (kstack copy : Bool) : Kernel ℤ := do
  let s ← get
  match find fun q => (s.proc q).state = .unused with
  | none => return -1
  | some np =>
      modify fun s => s.setProc np { s.proc np with state := .embryo }
      if kstack = false ∨ copy = false then
        modify fun s => s.setProc np { s.proc np with state := .unused }
        return -1
      else
        (List.finRange nofile).forM (inherit p np)
        let cwd := ((← get).proc p).cwd
        iget cwd
        modify fun s => s.setProc np { s.proc np with cwd := cwd, state := .used }
        return np.val

/-- The loop of `exit` over the descriptors, for one of them. -/
def drop (p : Fin nproc) (fd : Fin nofile) : Kernel Unit := do
  let s ← get
  match (s.proc p).ofile fd with
  | none => return ()
  | some f =>
      fileclose f
      modify fun s => s.setOfile p fd none

/-- `exit` -/
def exit (p : Fin nproc) : Kernel ℤ := do
  if p = 0 then stop .exit
  else
    (List.finRange nofile).forM (drop p)
    iput ((← get).proc p).cwd
    modify fun s => s.setProc p { s.proc p with cwd := 0, state := .zombie }
    return 0

/-- `wait` has found the process. -/
def reap (q : Fin nproc) : Kernel ℤ := do
  modify fun s => s.setProc q { s.proc q with state := .unused }
  return q.val

inductive Action
  | open (p : Fin nproc) (omode : UInt32) (found : Option (ℕ × Bool))
  | dup (p : Fin nproc) (fd : ℤ)
  | pipe (p : Fin nproc) (arg : Bool) (mem : Option ℕ)
  | close (p : Fin nproc) (fd : ℤ)
  | fork (p : Fin nproc) (kstack copy : Bool)
  | exit (p : Fin nproc)
  | reap (q : Fin nproc)

def call : Action → Kernel ℤ
  | .open p omode found => sysOpen p omode found
  | .dup p fd => sysDup p fd
  | .pipe p arg mem => sysPipe p arg mem
  | .close p fd => sysClose p fd
  | .fork p kstack copy => fork p kstack copy
  | .exit p => exit p
  | .reap q => reap q

/-- Which calls can be made: by a process that exists, and `kalloc` gives free pages. -/
def Enabled (s : State) : Action → Prop
  | .open p _ _ => (s.proc p).state = .used
  | .dup p _ => (s.proc p).state = .used
  | .pipe p _ mem => (s.proc p).state = .used ∧ ∀ page ∈ mem, s.pipe page = none
  | .close p _ => (s.proc p).state = .used
  | .fork p _ _ => (s.proc p).state = .used
  | .exit p => (s.proc p).state = .used
  | .reap q => (s.proc q).state = .zombie

instance (s : State) : DecidablePred (Enabled s)
  | .open _ _ _ => inferInstanceAs (Decidable (_ = _))
  | .dup _ _ => inferInstanceAs (Decidable (_ = _))
  | .pipe _ _ _ => inferInstanceAs (Decidable (_ ∧ _))
  | .close _ _ => inferInstanceAs (Decidable (_ = _))
  | .fork _ _ _ => inferInstanceAs (Decidable (_ = _))
  | .exit _ => inferInstanceAs (Decidable (_ = _))
  | .reap _ => inferInstanceAs (Decidable (_ = _))

/-- A call that returns. -/
def step (s : State) (a : Action) : Option (State × ℤ) :=
  if Enabled s a then
    match call a s with
    | .ok (r, s') => some (s', r)
    | .error _ => none
  else none

/-- After boot: init, in the root directory `root`. -/
def boot (root : ℕ) : State where
  file := fun _ => ⟨.none, 0, false, false, 0, 0, 0⟩
  proc := Function.update (fun _ => ⟨.unused, fun _ => none, 0⟩) 0 ⟨.used, fun _ => none, root⟩
  pipe := fun _ => none
  iref := Function.update (fun _ => 0) root 1
  log := []

/-! ### Counting -/

/-- How many descriptors of a process point to `f`. -/
def Proc.slots (f : Fin nfile) (x : Proc) : ℕ :=
  (Finset.univ.filter fun fd => x.ofile fd = some f).card

/-- How many descriptors point to `f`. -/
def State.count (s : State) (f : Fin nfile) : ℕ := ∑ p, (s.proc p).slots f

/-- The reference to an inode that a file structure has. -/
def File.inode (x : File) (ip : ℕ) : ℤ := if x.type = .inode ∧ x.ip = ip then 1 else 0

/-- The reference to an inode that a process has. -/
def Proc.dir (x : Proc) (ip : ℕ) : ℤ := if x.state = .used ∧ x.cwd = ip then 1 else 0

/-- How many references to an inode there are in the tables. -/
def State.users (s : State) (ip : ℕ) : ℤ := ∑ f, (s.file f).inode ip + ∑ p, (s.proc p).dir ip

/-- One reference to `a`. -/
def one {α : Type} [DecidableEq α] (a : α) (b : α) : ℤ := if b = a then 1 else 0

theorem slots_setOfile (f : Fin nfile) (x : Proc) (fd : Fin nofile) (v : Option (Fin nfile)) :
    ((x.setOfile fd v).slots f : ℤ) =
      x.slots f - (if x.ofile fd = some f then 1 else 0) + (if v = some f then 1 else 0) := by
  have hcard : ∀ y : Proc, (y.slots f : ℤ) = ∑ fd, if y.ofile fd = some f then (1 : ℤ) else 0 := by
    intro y
    rw [Proc.slots, Finset.card_filter]
    push_cast
    rfl
  rw [hcard, hcard]
  exact sum_update (fun v => if v = some f then (1 : ℤ) else 0) x.ofile fd v

theorem count_setProc (s : State) (p : Fin nproc) (x : Proc) (f : Fin nfile) :
    ((s.setProc p x).count f : ℤ) = s.count f - (s.proc p).slots f + x.slots f := by
  rw [State.count, State.count]
  push_cast
  exact sum_update (fun y => (Proc.slots f y : ℤ)) s.proc p x

theorem users_setProc (s : State) (p : Fin nproc) (x : Proc) (ip : ℕ) :
    (s.setProc p x).users ip = s.users ip - (s.proc p).dir ip + x.dir ip := by
  have hsum := sum_update (fun y => Proc.dir y ip) s.proc p x
  rw [State.users, State.users, State.setProc]
  simp only at hsum ⊢
  rw [hsum]
  ring

theorem users_setFile (s : State) (f : Fin nfile) (x : File) (ip : ℕ) :
    (s.setFile f x).users ip = s.users ip - (s.file f).inode ip + x.inode ip := by
  have hsum := sum_update (fun y => File.inode y ip) s.file f x
  rw [State.users, State.users, State.setFile]
  simp only at hsum ⊢
  rw [hsum]
  ring

/-! ### Pipes -/

/-- Whether the end for writing, or for reading, is open. -/
def Pipe.isOpen (q : Pipe) (writable : Bool) : Bool :=
  if writable then q.writeopen else q.readopen

def Event.page : Event → ℕ
  | .kalloc page => page
  | .pipeclose page _ => page
  | .kfree page => page

/-- The whole life of a page that holds a pipe: an end is closed, then the other one, and then
the page is freed. -/
def life (page : ℕ) (w : Bool) : List Event :=
  [.kalloc page, .pipeclose page w, .pipeclose page !w, .kfree page]

/-- The life of a page so far. -/
def begun (page : ℕ) : Option Pipe → List Event
  | none => []
  | some q => .kalloc page :: ((if q.readopen then [] else [.pipeclose page false]) ++
      if q.writeopen then [] else [.pipeclose page true])

/-- The open ends of pipes are those that file structures refer to. -/
structure Pipes (file : Fin nfile → File) (pipe : ℕ → Option Pipe) (log : List Event) : Prop where
  openEnd : ∀ f, (file f).type = .pipe →
    ∃ q, pipe (file f).pipe = some q ∧ q.isOpen (file f).writable = true
  only : ∀ f g, (file f).type = .pipe → (file g).type = .pipe → (file f).pipe = (file g).pipe →
    (file f).writable = (file g).writable → f = g
  ends : ∀ page q, pipe page = some q → ∀ w, q.isOpen w = true →
    ∃ f, (file f).type = .pipe ∧ (file f).pipe = page ∧ (file f).writable = w
  alive : ∀ page q, pipe page = some q → ∃ w, q.isOpen w = true
  past : ∀ page, ∃ ws : List Bool, log.filter (fun e => e.page = page) =
    ws.flatMap (life page) ++ begun page (pipe page)

section Pipes

variable {file file' : Fin nfile → File} {pipe : ℕ → Option Pipe} {log : List Event}

/-- The file structures that are no ends of pipes do not matter. -/
theorem Pipes.congr (h : Pipes file pipe log)
    (hfile : ∀ f, ((file' f).type = .pipe ↔ (file f).type = .pipe) ∧
      ((file f).type = .pipe → (file' f).pipe = (file f).pipe ∧
        (file' f).writable = (file f).writable)) : Pipes file' pipe log := by
  obtain ⟨hend, honly, hends, halive, hpast⟩ := h
  refine ⟨?_, ?_, ?_, halive, hpast⟩
  · intro f hf
    obtain ⟨htype, hsame⟩ := hfile f
    have hold := htype.mp hf
    rw [(hsame hold).1, (hsame hold).2]
    exact hend f hold
  · grind
  · intro page q hq w hw
    obtain ⟨f, hf, hpage, hwr⟩ := hends page q hq w hw
    obtain ⟨htype, hsame⟩ := hfile f
    exact ⟨f, htype.mpr hf, (hsame hf).1.trans hpage, (hsame hf).2.trans hwr⟩

/-- The end `w` is closed. -/
def Pipe.shut (q : Pipe) (w : Bool) : Pipe :=
  if w then { q with writeopen := false } else { q with readopen := false }

@[simp] theorem Pipe.isOpen_shut (q : Pipe) (w w' : Bool) :
    (q.shut w).isOpen w' = (q.isOpen w' && (w' != w)) := by
  cases w <;> cases w' <;> simp [Pipe.shut, Pipe.isOpen]

theorem Pipe.shut_closed_iff (q : Pipe) (w : Bool) :
    (q.shut w).readopen = false ∧ (q.shut w).writeopen = false ↔ q.isOpen (!w) = false := by
  cases w <;> simp [Pipe.shut, Pipe.isOpen]

/-- A pipe is made. -/
theorem Pipes.kalloc (h : Pipes file pipe log) {f0 f1 : Fin nfile} {page : ℕ}
    (hfree : pipe page = none) (h0 : (file f0).type ≠ .pipe) (h1 : (file f1).type ≠ .pipe)
    (hr : (file' f0).type = .pipe ∧ (file' f0).pipe = page ∧ (file' f0).writable = false)
    (hw : (file' f1).type = .pipe ∧ (file' f1).pipe = page ∧ (file' f1).writable = true)
    (hsame : ∀ f, f ≠ f0 → f ≠ f1 → file' f = file f) :
    Pipes file' (Function.update pipe page (some ⟨true, true⟩)) (log ++ [.kalloc page]) := by
  obtain ⟨hend, honly, hends, halive, hpast⟩ := h
  have hold : ∀ f, (file f).type = .pipe → (file f).pipe ≠ page := by
    intro f hf hpage
    obtain ⟨q, hq, -⟩ := hend f hf
    rw [hpage, hfree] at hq
    cases hq
  refine ⟨?_, ?_, ?_, ?_, ?_⟩
  · intro f hf
    by_cases hf0 : f = f0
    · rw [hf0, hr.2.1, hr.2.2, Function.update_self]
      exact ⟨_, rfl, rfl⟩
    · by_cases hf1 : f = f1
      · rw [hf1, hw.2.1, hw.2.2, Function.update_self]
        exact ⟨_, rfl, rfl⟩
      · rw [hsame f hf0 hf1] at hf ⊢
        rw [Function.update_of_ne (hold f hf)]
        exact hend f hf
  · grind
  · intro page' q hq w hopen
    by_cases hpage : page' = page
    · subst hpage
      cases w with
      | true => exact ⟨f1, hw⟩
      | false => exact ⟨f0, hr⟩
    · rw [Function.update_of_ne hpage] at hq
      obtain ⟨f, hf, hfpage, hfw⟩ := hends page' q hq w hopen
      have hf0 : f ≠ f0 := fun heq => h0 (heq ▸ hf)
      have hf1 : f ≠ f1 := fun heq => h1 (heq ▸ hf)
      exact ⟨f, by rw [hsame f hf0 hf1]; exact ⟨hf, hfpage, hfw⟩⟩
  · intro page' q hq
    by_cases hpage : page' = page
    · rw [hpage, Function.update_self, Option.some.injEq] at hq
      exact ⟨true, by rw [← hq]; rfl⟩
    · rw [Function.update_of_ne hpage] at hq
      exact halive page' q hq
  · intro page'
    obtain ⟨ws, hws⟩ := hpast page'
    refine ⟨ws, ?_⟩
    rw [List.filter_append, hws]
    by_cases hpage : page' = page
    · subst hpage
      rw [hfree, Function.update_self]
      simp [begun, Event.page]
    · rw [Function.update_of_ne hpage]
      simp [Event.page, Ne.symm hpage]

/-- An end is closed, and the page freed if it was the last one. -/
theorem Pipes.close (h : Pipes file pipe log) {f : Fin nfile} {q : Pipe} {page : ℕ} {w : Bool}
    (hf : (file f).type = .pipe) (hpage : (file f).pipe = page) (hw : (file f).writable = w)
    (hq : pipe page = some q) (hnone : (file' f).type ≠ .pipe)
    (hsame : ∀ g, g ≠ f → file' g = file g) :
    Pipes file'
      (Function.update pipe page (if q.isOpen !w then some (q.shut w) else none))
      (log ++ .pipeclose page w :: if q.isOpen !w then [] else [.kfree page]) := by
  obtain ⟨hend, honly, hends, halive, hpast⟩ := h
  have hopen : q.isOpen w = true := by
    obtain ⟨q', hq', hopen⟩ := hend f hf
    rw [hpage, hq, Option.some.injEq] at hq'
    rwa [hw, ← hq'] at hopen
  have hne : ∀ g, (file' g).type = .pipe → g ≠ f ∧ (file g).type = .pipe := by
    intro g hg
    have hgf : g ≠ f := fun heq => hnone (heq ▸ hg)
    rw [hsame g hgf] at hg
    exact ⟨hgf, hg⟩
  refine ⟨?_, ?_, ?_, ?_, ?_⟩
  · intro g hg
    obtain ⟨hgf, hgtype⟩ := hne g hg
    rw [hsame g hgf]
    obtain ⟨q', hq', hopen'⟩ := hend g hgtype
    by_cases hgpage : (file g).pipe = page
    · -- `g` is the other end
      have hgw : (file g).writable = !w := by
        have hdiff : (file g).writable ≠ w := fun heq =>
          hgf (honly g f hgtype hf (hgpage.trans hpage.symm) (heq.trans hw.symm))
        cases w <;> simpa using hdiff
      rw [hgpage, hq, Option.some.injEq] at hq'
      subst hq'
      rw [hgw] at hopen' ⊢
      rw [hgpage, Function.update_self, if_pos hopen']
      refine ⟨_, rfl, ?_⟩
      cases w <;> simpa using hopen'
    · rw [Function.update_of_ne hgpage]
      exact ⟨q', hq', hopen'⟩
  · intro g g' hg hg'
    rw [hsame g (hne g hg).1, hsame g' (hne g' hg').1]
    exact honly g g' (hne g hg).2 (hne g' hg').2
  · intro page' q' hq' w' hopen'
    have hold : ∃ q₀, pipe page' = some q₀ ∧ q₀.isOpen w' = true ∧ (page' = page → w' ≠ w) := by
      by_cases hp : page' = page
      · rw [hp, Function.update_self, Option.ite_none_right_eq_some, Option.some.injEq] at hq'
        rw [← hq'.2, Pipe.isOpen_shut, Bool.and_eq_true, bne_iff_ne] at hopen'
        exact ⟨q, hp ▸ hq, hopen'.1, fun _ => hopen'.2⟩
      · rw [Function.update_of_ne hp] at hq'
        exact ⟨q', hq', hopen', fun heq => absurd heq hp⟩
    obtain ⟨q₀, hq₀, hopen₀, hdiff⟩ := hold
    obtain ⟨g, hg, hgpage, hgw⟩ := hends page' q₀ hq₀ w' hopen₀
    have hgf : g ≠ f := by
      rintro rfl
      exact hdiff (hgpage.symm.trans hpage) (hgw.symm.trans hw)
    exact ⟨g, by rw [hsame g hgf]; exact ⟨hg, hgpage, hgw⟩⟩
  · intro page' q' hq'
    by_cases hp : page' = page
    · rw [hp, Function.update_self, Option.ite_none_right_eq_some, Option.some.injEq] at hq'
      refine ⟨!w, ?_⟩
      rw [← hq'.2, Pipe.isOpen_shut, hq'.1]
      cases w <;> rfl
    · rw [Function.update_of_ne hp] at hq'
      exact halive page' q' hq'
  · intro page'
    obtain ⟨ws, hws⟩ := hpast page'
    rw [List.filter_append, hws]
    by_cases hp : page' = page
    · subst hp
      rw [hq, Function.update_self]
      by_cases hother : q.isOpen (!w) = true
      · refine ⟨ws, ?_⟩
        rw [if_pos hother, if_pos hother, List.append_assoc]
        refine congrArg _ ?_
        cases w <;> simp_all [begun, Event.page, Pipe.isOpen, Pipe.shut]
      · refine ⟨ws ++ [!w], ?_⟩
        rw [if_neg hother, if_neg hother, List.flatMap_append, List.append_assoc,
          List.append_assoc]
        refine congrArg _ ?_
        cases w <;> simp_all [begun, life, Event.page, Pipe.isOpen]
    · refine ⟨ws, ?_⟩
      rw [Function.update_of_ne hp]
      split <;> simp [Event.page, Ne.symm hp]

end Pipes

/-! ### Counts -/

/-- Whether a process in this state has nothing open. -/
def Procstate.Idle (st : Procstate) : Prop := st = .unused ∨ st = .zombie

/-- The reference counts are right, but for `x` references to file structures and `y` to inodes
that are in no table, and file structures in use have a type, but for those in `b`. -/
structure Tally (x : Fin nfile → ℤ) (y : ℕ → ℤ) (b : Set (Fin nfile)) (s : State) : Prop where
  ref : ∀ f, ((s.file f).ref : ℤ) = s.count f + x f
  free : ∀ f, (s.file f).ref = 0 → (s.file f).type = .none
  bare : ∀ f, (s.file f).type = .none → (s.file f).ref ≠ 0 → f ∈ b
  iref : ∀ ip, (s.iref ip : ℤ) = s.users ip + y ip
  idle : ∀ p, (s.proc p).state.Idle → ∀ fd, (s.proc p).ofile fd = none

/-- The counts are right, and pipes are open as they should be. -/
structure Counts (x : Fin nfile → ℤ) (y : ℕ → ℤ) (b : Set (Fin nfile)) (s : State) : Prop
    extends Tally x y b s where
  pipes : Pipes s.file s.pipe s.log

section Counts

variable {x : Fin nfile → ℤ} {y : ℕ → ℤ} {b : Set (Fin nfile)} {s : State}
  {f : Fin nfile} {p : Fin nproc} {fd : Fin nofile}

@[simp] theorem setFile_file (g : Fin nfile) (a : File) :
    (s.setFile f a).file g = if g = f then a else s.file g := Function.update_apply _ _ _ _

@[simp] theorem setFile_proc (a : File) : (s.setFile f a).proc = s.proc := rfl

@[simp] theorem setProc_proc (q : Fin nproc) (a : Proc) :
    (s.setProc p a).proc q = if q = p then a else s.proc q := Function.update_apply _ _ _ _

@[simp] theorem setProc_file (a : Proc) : (s.setProc p a).file = s.file := rfl

@[simp] theorem setOfile_file (v : Option (Fin nfile)) : (s.setOfile p fd v).file = s.file := rfl

theorem setOfile_proc (q : Fin nproc) (v : Option (Fin nfile)) :
    (s.setOfile p fd v).proc q = if q = p then (s.proc p).setOfile fd v else s.proc q :=
  Function.update_apply _ _ _ _

theorem Tally.congr {x' : Fin nfile → ℤ} {y' : ℕ → ℤ} (h : Tally x y b s)
    (hx : ∀ f, x f = x' f) (hy : ∀ ip, y ip = y' ip) : Tally x' y' b s := by
  rwa [← funext hx, ← funext hy]

theorem Counts.congr {x' : Fin nfile → ℤ} {y' : ℕ → ℤ} (h : Counts x y b s)
    (hx : ∀ f, x f = x' f) (hy : ∀ ip, y ip = y' ip) : Counts x' y' b s := by
  rwa [← funext hx, ← funext hy]

/-- A file structure that is free, or has a type, is no exception. -/
theorem Counts.typed (h : Counts x y b s) {b' : Set (Fin nfile)}
    (hb : ∀ f ∈ b, f ∈ b' ∨ (s.file f).ref = 0 ∨ (s.file f).type ≠ .none) : Counts x y b' s where
  toTally := by
    refine ⟨h.ref, h.free, fun f hf href => ?_, h.iref, h.idle⟩
    rcases hb f (h.bare f hf href) with hmem | hfree | htype
    · exact hmem
    · exact absurd hfree href
    · exact absurd hf htype
  pipes := h.pipes

theorem count_nonneg (s : State) (f : Fin nfile) : (0 : ℤ) ≤ s.count f := Int.natCast_nonneg _

theorem users_nonneg (s : State) (ip : ℕ) : 0 ≤ s.users ip := by
  refine add_nonneg (Finset.sum_nonneg fun f _ => ?_) (Finset.sum_nonneg fun p _ => ?_)
  · rw [File.inode]
    split <;> decide
  · rw [Proc.dir]
    split <;> decide

/-- Who has a descriptor for `f` has a reference. -/
theorem count_pos (h : (s.proc p).ofile fd = some f) : 0 < s.count f := by
  have hslots : 0 < (s.proc p).slots f :=
    Finset.card_pos.mpr ⟨fd, Finset.mem_filter.mpr ⟨Finset.mem_univ _, h⟩⟩
  rw [State.count]
  exact hslots.trans_le (Finset.single_le_sum (f := fun q => (s.proc q).slots f)
    (fun _ _ => Nat.zero_le _) (Finset.mem_univ p))

/-- A file structure changes. -/
theorem Tally.setFile (h : Tally x y b s) {a : File} (hfree : a.ref = 0 → a.type = .none)
    (hbare : a.type = .none → a.ref ≠ 0 → f ∈ b) :
    Tally (fun g => x g + if g = f then (a.ref : ℤ) - (s.file f).ref else 0)
      (fun ip => y ip + (s.file f).inode ip - a.inode ip) b (s.setFile f a) where
  ref := by
    intro g
    have hcount : (s.setFile f a).count g = s.count g := rfl
    rw [hcount, setFile_file]
    by_cases hg : g = f
    · rw [if_pos hg, if_pos hg]
      have hold := h.ref f
      rw [hg]
      omega
    · rw [if_neg hg, if_neg hg, add_zero]
      exact h.ref g
  free := by
    intro g
    rw [setFile_file]
    split
    · exact hfree
    · exact h.free g
  bare := by
    intro g
    rw [setFile_file]
    by_cases hg : g = f
    · rw [if_pos hg, hg]
      exact hbare
    · rw [if_neg hg]
      exact h.bare g
  iref := by
    intro ip
    have hold := h.iref ip
    rw [users_setFile, show (s.setFile f a).iref = s.iref from rfl, hold]
    ring
  idle := h.idle

/-- A file structure changes, and stays the end of a pipe that it was. -/
theorem Counts.setFile (h : Counts x y b s) {a : File} (hfree : a.ref = 0 → a.type = .none)
    (hbare : a.type = .none → a.ref ≠ 0 → f ∈ b)
    (hpipe : (a.type = .pipe ↔ (s.file f).type = .pipe) ∧ ((s.file f).type = .pipe →
      a.pipe = (s.file f).pipe ∧ a.writable = (s.file f).writable)) :
    Counts (fun g => x g + if g = f then (a.ref : ℤ) - (s.file f).ref else 0)
      (fun ip => y ip + (s.file f).inode ip - a.inode ip) b (s.setFile f a) where
  toTally := h.toTally.setFile hfree hbare
  pipes := by
    refine h.pipes.congr fun g => ?_
    rw [setFile_file]
    by_cases hg : g = f
    · rw [if_pos hg, hg]
      exact hpipe
    · rw [if_neg hg]
      exact ⟨Iff.rfl, fun _ => ⟨rfl, rfl⟩⟩

/-- A descriptor changes. -/
theorem Counts.setOfile (h : Counts x y b s) (hp : ¬(s.proc p).state.Idle)
    (v : Option (Fin nfile)) :
    Counts (fun g => x g + (if (s.proc p).ofile fd = some g then 1 else 0) -
      if v = some g then 1 else 0) y b (s.setOfile p fd v) where
  ref := by
    intro g
    have hold := h.ref g
    rw [State.setOfile, count_setProc, slots_setOfile, setProc_file, hold]
    ring
  free := h.free
  bare := h.bare
  iref := by
    intro ip
    rw [State.setOfile, users_setProc, show ((s.proc p).setOfile fd v).dir ip = (s.proc p).dir ip
      from rfl, show (s.setProc p ((s.proc p).setOfile fd v)).iref = s.iref from rfl, h.iref ip]
    ring
  idle := by
    intro q hq
    rw [setOfile_proc] at hq ⊢
    by_cases hqp : q = p
    · rw [if_pos hqp] at hq
      exact absurd hq hp
    · rw [if_neg hqp] at hq ⊢
      exact h.idle q hq
  pipes := h.pipes

/-- The state of a process without descriptors changes, or its directory. -/
theorem Counts.setProc (h : Counts x y b s) {a : Proc} (hofile : a.ofile = (s.proc p).ofile)
    (hidle : a.state.Idle → ∀ fd, a.ofile fd = none) :
    Counts x (fun ip => y ip + (s.proc p).dir ip - a.dir ip) b (s.setProc p a) where
  ref := by
    intro g
    have hslots : a.slots g = (s.proc p).slots g := by rw [Proc.slots, Proc.slots, hofile]
    rw [count_setProc, hslots, setProc_file, h.ref g]
    ring
  free := h.free
  bare := h.bare
  iref := by
    intro ip
    rw [users_setProc, show (s.setProc p a).iref = s.iref from rfl, h.iref ip]
    ring
  idle := by
    intro q hq
    rw [setProc_proc] at hq ⊢
    by_cases hqp : q = p
    · rw [if_pos hqp] at hq ⊢
      exact hidle hq
    · rw [if_neg hqp] at hq ⊢
      exact h.idle q hq
  pipes := h.pipes

theorem Counts.setIref (h : Counts x y b s) (ip n : ℕ) :
    Counts x (fun ip' => y ip' + if ip' = ip then (n : ℤ) - s.iref ip else 0)
      b (s.setIref ip n) where
  ref := h.ref
  free := h.free
  bare := h.bare
  iref := by
    intro ip'
    have hold := h.iref ip'
    rw [show (s.setIref ip n).users ip' = s.users ip' from rfl,
      show (s.setIref ip n).iref ip' = if ip' = ip then n else s.iref ip' from
        Function.update_apply _ _ _ _]
    by_cases hip : ip' = ip
    · rw [if_pos hip, if_pos hip]
      rw [hip] at hold ⊢
      omega
    · rw [if_neg hip, if_neg hip, hold]
      ring
  idle := h.idle
  pipes := h.pipes

end Counts

/-! ### What the functions do to the counts -/

section Specs

variable {x : Fin nfile → ℤ} {y : ℕ → ℤ} {b : Set (Fin nfile)} {s : State} {E : Panic → Prop}

theorem Counts.one_ref (h : Counts x y b s) {f : Fin nfile} (hf : 0 < s.count f + x f) :
    0 < (s.file f).ref := by
  have href := h.ref f
  omega

theorem wp_filealloc (h : Counts x y b s) : wp filealloc E (fun r s' =>
    (r = none ∧ s' = s) ∨ ∃ f, r = some f ∧ (s.file f).ref = 0 ∧
      s' = s.setFile f { s.file f with ref := 1 } ∧ Counts (x + one f) y (insert f b) s') s := by
  rw [filealloc, wp_bind, wp_get]
  cases hfind : find fun f => (s.file f).ref = 0 with
  | none =>
    rw [wp_pure]
    exact .inl ⟨rfl, rfl⟩
  | some f =>
    have hfree : (s.file f).ref = 0 := of_decide_eq_true (find_spec hfind)
    have hnone := h.free f hfree
    rw [wp_bind, wp_set, wp_pure]
    refine .inr ⟨f, rfl, hfree, rfl, ?_⟩
    have hins : Counts x y (insert f b) s := h.typed fun g hg => .inl (.inr hg)
    refine (hins.setFile (f := f) (a := { s.file f with ref := 1 }) (by simp)
      (fun _ _ => .inl rfl) (by simp)).congr ?_ ?_
    · intro g
      rw [hfree]
      rfl
    · intro ip
      exact add_sub_cancel_right _ _

theorem wp_filedup (h : Counts x y b s) {f : Fin nfile} (hf : 0 < (s.file f).ref) :
    wp (filedup f) E (fun _ s' => s'.proc = s.proc ∧ Counts (x + one f) y b s') s := by
  rw [filedup, wp_bind, wp_get, if_neg (by omega), wp_set]
  refine ⟨rfl, (h.setFile (f := f) (a := { s.file f with ref := (s.file f).ref + 1 })
    (by simp) (fun hnone _ => h.bare f hnone (by omega)) (by simp)).congr ?_ ?_⟩
  · intro g
    rw [Pi.add_apply, one]
    push_cast
    rw [add_sub_cancel_left]
  · intro ip
    exact add_sub_cancel_right _ _

theorem wp_iget (h : Counts x y b s) (ip : ℕ) :
    wp (iget ip) E (fun _ s' => s'.proc = s.proc ∧ s'.file = s.file ∧ s'.pipe = s.pipe ∧
      Counts x (y + one ip) b s') s := by
  rw [iget, wp_modify]
  refine ⟨rfl, rfl, rfl, (h.setIref ip (s.iref ip + 1)).congr (fun _ => rfl) fun ip' => ?_⟩
  rw [Pi.add_apply, one]
  push_cast
  rw [add_sub_cancel_left]

theorem wp_iput (h : Counts x y b s) {ip : ℕ} (hip : 0 < s.users ip + y ip) :
    wp (iput ip) E (fun _ s' => s'.proc = s.proc ∧ s'.file = s.file ∧
      Counts x (y - one ip) b s') s := by
  have hold := h.iref ip
  rw [iput, wp_bind, wp_get, if_neg (by omega), wp_set]
  refine ⟨rfl, rfl, (h.setIref ip (s.iref ip - 1)).congr (fun _ => rfl) fun ip' => ?_⟩
  rw [Pi.sub_apply, one]
  split <;> omega

/-- The counts do not see the pipes. -/
theorem Tally.of_eq (h : Tally x y b s) {s' : State} (hfile : s'.file = s.file)
    (hproc : s'.proc = s.proc) (hiref : s'.iref = s.iref) : Tally x y b s' := by
  obtain ⟨file, proc, pipe, iref, log⟩ := s
  obtain ⟨file', proc', pipe', iref', log'⟩ := s'
  simp only at hfile hproc hiref
  subst hfile hproc hiref
  exact ⟨h.ref, h.free, h.bare, h.iref, h.idle⟩

/-- `pipeclose`, after `fileclose` has cleared the type of `f`. -/
theorem wp_pipeclose (h : Tally x y b s) {file : Fin nfile → File} {f : Fin nfile}
    (hpipes : Pipes file s.pipe s.log) (hf : (file f).type = .pipe)
    (hnone : (s.file f).type ≠ .pipe) (hsame : ∀ g, g ≠ f → s.file g = file g) :
    wp (pipeclose (file f).pipe (file f).writable) E
      (fun _ s' => s'.proc = s.proc ∧ s'.file = s.file ∧ Counts x y b s') s := by
  obtain ⟨q, hq, hopen⟩ := hpipes.openEnd f hf
  have hclose := hpipes.close hf rfl rfl hq hnone hsame
  rw [pipeclose, wp_bind, wp_get]
  simp only [hq]
  have hshut : (if (file f).writable = true then { q with writeopen := false }
      else { q with readopen := false }) = q.shut (file f).writable := rfl
  simp only [hshut, Pipe.shut_closed_iff]
  cases hother : q.isOpen !(file f).writable with
  | true =>
    rw [if_neg (by decide), wp_set]
    rw [hother, if_pos rfl, if_pos rfl] at hclose
    exact ⟨rfl, rfl, h.of_eq rfl rfl rfl, hclose⟩
  | false =>
    rw [if_pos rfl, wp_set]
    rw [hother, if_neg (by decide), if_neg (by decide)] at hclose
    refine ⟨rfl, rfl, h.of_eq rfl rfl rfl, ?_⟩
    rw [show [Event.pipeclose (file f).pipe (file f).writable, .kfree (file f).pipe] =
      [.pipeclose (file f).pipe (file f).writable] ++ [.kfree (file f).pipe] from rfl,
      ← List.append_assoc] at hclose
    exact hclose

/-- **What `fileclose` does**: it takes a reference, and releases what `f` refers to if it was
the last. -/
theorem wp_fileclose (h : Counts x y b s) {f : Fin nfile} (hf : 0 < (s.file f).ref)
    (hy : ∀ ip, 0 ≤ y ip) :
    wp (fileclose f) E (fun _ s' => s'.proc = s.proc ∧ (∀ g, (s'.file g).ref =
      if g = f then (s.file f).ref - 1 else (s.file g).ref) ∧ Counts (x - one f) y b s') s := by
  rw [fileclose, wp_bind, wp_get]
  simp only
  rw [if_neg (show ¬(s.file f).ref < 1 by omega)]
  by_cases hlast : 0 < (s.file f).ref - 1
  · -- other references remain
    rw [if_pos hlast, wp_set]
    refine ⟨rfl, fun g => ?_, (h.setFile (f := f) (a := { s.file f with ref := (s.file f).ref - 1 })
      (fun h0 => absurd h0 (by simp only; omega)) (fun hnone _ => h.bare f hnone (by omega))
      (by simp)).congr ?_ ?_⟩
    · rw [setFile_file]
      split <;> rfl
    · intro g
      rw [Pi.sub_apply, one]
      split
      · simp only
        omega
      · rw [add_zero, sub_zero]
    · intro ip
      exact add_sub_cancel_right _ _
  · have hone : (s.file f).ref = 1 := by omega
    rw [if_neg hlast, wp_bind, wp_set]
    generalize hs₁ : s.setFile f { s.file f with ref := 0, type := .none } = s₁
    have htally : Tally (x - one f) (fun ip => y ip + (s.file f).inode ip) b s₁ := by
      rw [← hs₁]
      refine (h.toTally.setFile (f := f) (a := { s.file f with ref := 0, type := .none })
        (fun _ => rfl) fun _ h0 => absurd rfl h0).congr ?_ ?_
      · intro g
        rw [Pi.sub_apply, one, hone]
        split
        · simp [sub_eq_add_neg]
        · rw [add_zero, sub_zero]
      · intro ip
        simp [File.inode]
    have hfile : ∀ g, s₁.file g =
        if g = f then { s.file f with ref := 0, type := .none } else s.file g := by
      intro g
      rw [← hs₁, setFile_file]
    have hproc : s₁.proc = s.proc := by rw [← hs₁]; rfl
    have href : ∀ t : State, t.file = s₁.file → ∀ g, (t.file g).ref =
        if g = f then (s.file f).ref - 1 else (s.file g).ref := by
      intro t ht g
      rw [ht, hfile]
      split
      · rw [hone]
      · rfl
    cases htype : (s.file f).type with
    | none =>
      rw [wp_pure]
      refine ⟨hproc, href s₁ rfl, htally.congr (fun _ => rfl) ?_, ?_⟩
      · intro ip
        simp [File.inode, htype]
      · rw [← hs₁]
        refine h.pipes.congr fun g => ?_
        rw [setFile_file]
        by_cases hg : g = f
        · simp [hg, htype]
        · simp [hg]
    | inode =>
      have hpipes : Pipes s₁.file s₁.pipe s₁.log := by
        rw [← hs₁]
        refine h.pipes.congr fun g => ?_
        rw [setFile_file]
        by_cases hg : g = f
        · simp [hg, htype]
        · simp [hg]
      have hcounts : Counts (x - one f) (fun ip => y ip + (s.file f).inode ip) b s₁ :=
        ⟨htally, hpipes⟩
      refine wp_imp (wp_iput hcounts ?_) fun _ s' hs' =>
        ⟨hs'.1.trans hproc, href s' hs'.2.1, hs'.2.2.congr (fun _ => rfl) ?_⟩
      · have husers := users_nonneg s₁ (s.file f).ip
        have hip := hy (s.file f).ip
        rw [File.inode, if_pos ⟨htype, rfl⟩]
        omega
      · intro ip
        rw [Pi.sub_apply, one, File.inode, htype]
        simp only [true_and, eq_comm (a := ip)]
        ring
    | pipe =>
      have htally' : Tally (x - one f) y b s₁ := htally.congr (fun _ => rfl) fun ip => by
        simp [File.inode, htype]
      have hpipes : Pipes s.file s₁.pipe s₁.log := by
        rw [← hs₁]
        exact h.pipes
      refine wp_imp (wp_pipeclose htally' hpipes htype ?_ ?_) fun _ s' hs' =>
        ⟨hs'.1.trans hproc, href s' hs'.2.1, hs'.2.2⟩
      · rw [hfile, if_pos rfl]
        exact FileType.noConfusion
      · intro g hg
        rw [hfile, if_neg hg]

/-- `pipealloc` makes two free file structures the ends of a pipe. -/
theorem Counts.pipe (h : Counts x y b s) {f0 f1 : Fin nfile} {page : ℕ} (hne : f0 ≠ f1)
    (hfree : s.pipe page = none) (h0 : (s.file f0).type = .none) (h1 : (s.file f1).type = .none)
    (hr0 : (s.file f0).ref ≠ 0) (hr1 : (s.file f1).ref ≠ 0) :
    Counts x y b ((((s.setPipe page (some ⟨true, true⟩)).note (.kalloc page)).setFile f0
      { s.file f0 with type := .pipe, readable := true, writable := false, pipe := page }).setFile
      f1 { s.file f1 with type := .pipe, readable := false, writable := true, pipe := page }) := by
  generalize hs₁ : (s.setPipe page (some ⟨true, true⟩)).note (.kalloc page) = s₁
  generalize ha0 : ({ s.file f0 with
    type := .pipe, readable := true, writable := false, pipe := page } : File) = a0
  generalize ha1 : ({ s.file f1 with
    type := .pipe, readable := false, writable := true, pipe := page } : File) = a1
  have hfile₁ : s₁.file = s.file := by rw [← hs₁]; rfl
  have htally₁ : Tally x y b s₁ := h.toTally.of_eq hfile₁ (by rw [← hs₁]; rfl) (by rw [← hs₁]; rfl)
  -- neither the references to the two nor those to inodes change
  have htally₂ : Tally x y b (s₁.setFile f0 a0) := by
    refine (htally₁.setFile (f := f0) (a := a0) (fun hr => ?_) fun hnone => ?_).congr ?_ ?_
    · rw [← ha0] at hr
      exact absurd hr hr0
    · rw [← ha0] at hnone
      cases hnone
    · intro g
      rw [hfile₁, ← ha0]
      simp
    · intro ip
      rw [hfile₁, ← ha0]
      simp [File.inode, h0]
  have htally₃ : Tally x y b ((s₁.setFile f0 a0).setFile f1 a1) := by
    refine (htally₂.setFile (f := f1) (a := a1) (fun hr => ?_) fun hnone => ?_).congr ?_ ?_
    · rw [← ha1] at hr
      exact absurd hr hr1
    · rw [← ha1] at hnone
      cases hnone
    · intro g
      rw [setFile_file, if_neg hne.symm, hfile₁, ← ha1]
      simp
    · intro ip
      rw [setFile_file, if_neg hne.symm, hfile₁, ← ha1]
      simp [File.inode, h1]
  refine ⟨htally₃, ?_⟩
  have hkalloc : Pipes ((s₁.setFile f0 a0).setFile f1 a1).file
      (Function.update s.pipe page (some ⟨true, true⟩)) (s.log ++ [.kalloc page]) :=
    h.pipes.kalloc hfree (show (s.file f0).type ≠ .pipe by simp [h0])
      (show (s.file f1).type ≠ .pipe by simp [h1]) (by simp [hne, ← ha0]) (by simp [← ha1])
      (fun f hf0 hf1 => by simp [hf0, hf1, hfile₁])
  rw [← hs₁] at hkalloc ⊢
  exact hkalloc

/-- **What `pipealloc` does**: it returns the two ends of a new pipe, or leaves no trace. -/
theorem wp_pipealloc (h : Counts x 0 b s) (hx : ∀ f, 0 ≤ x f) {mem : Option ℕ}
    (hmem : ∀ page ∈ mem, s.pipe page = none) :
    wp (pipealloc mem) E (fun r s' => s'.proc = s.proc ∧
      ((r = none ∧ Counts x 0 b s') ∨
        ∃ f g, r = some (f, g) ∧ Counts (x + one f + one g) 0 b s')) s := by
  have hback : ∀ (x : Fin nfile → ℤ) (f : Fin nfile), x + one f - one f = x := fun x f =>
    add_sub_cancel_right x (one f)
  have hpos : ∀ (x : Fin nfile → ℤ) (f : Fin nfile) (b : Set (Fin nfile)) (t : State),
      (∀ f, 0 ≤ x f) → Counts (x + one f) 0 b t → 0 < (t.file f).ref := by
    intro x f b t hx ht
    refine ht.one_ref ?_
    have hcount := count_nonneg t f
    have hxf := hx f
    rw [Pi.add_apply, one, if_pos rfl]
    omega
  have hadd : ∀ f g : Fin nfile, 0 ≤ (x + one f : Fin nfile → ℤ) g := by
    intro f g
    have hxg := hx g
    rw [Pi.add_apply, one]
    split <;> omega
  rw [pipealloc, wp_bind]
  refine wp_imp (wp_filealloc h) ?_
  rintro r s₁ (⟨rfl, rfl⟩ | ⟨f0, rfl, hfree0, rfl, hs₁⟩)
  · rw [wp_pure]
    exact ⟨rfl, .inl ⟨rfl, h⟩⟩
  · simp only
    rw [wp_bind]
    refine wp_imp (wp_filealloc hs₁) ?_
    rintro r s₂ (⟨rfl, rfl⟩ | ⟨f1, rfl, hfree1, rfl, hs₂⟩)
    · -- the second one is not to be had
      simp only
      rw [wp_bind]
      refine wp_imp (wp_fileclose hs₁ (hpos x f0 _ _ hx hs₁) fun _ => le_rfl) ?_
      rintro - s₃ ⟨hproc, href, hs₃⟩
      rw [hback] at hs₃
      refine ⟨hproc, .inl ⟨rfl, hs₃.typed fun g hg => ?_⟩⟩
      rcases hg with rfl | hg
      · exact .inr (.inl (by simp [href]))
      · exact .inl hg
    · have hne : f0 ≠ f1 := by
        rintro rfl
        simp at hfree1
      simp only
      cases mem with
      | none =>
        -- there is no page
        have hs₂' : Counts (x + one f1 + one f0) 0 _ _ := add_right_comm x (one f0) (one f1) ▸ hs₂
        simp only
        rw [wp_bind]
        refine wp_imp (wp_fileclose hs₂' (hpos _ f0 _ _ (hadd f1) hs₂') fun _ => le_rfl) ?_
        rintro - s₃ ⟨hproc₃, href₃, hs₃⟩
        rw [hback] at hs₃
        rw [wp_bind]
        refine wp_imp (wp_fileclose hs₃ (hpos x f1 _ _ hx hs₃) fun _ => le_rfl) ?_
        rintro - s₄ ⟨hproc₄, href₄, hs₄⟩
        rw [hback] at hs₄
        refine ⟨hproc₄.trans hproc₃, .inl ⟨rfl, hs₄.typed fun g hg => ?_⟩⟩
        rcases hg with rfl | rfl | hg
        · exact .inr (.inl (by simp [href₄, href₃, hne.symm]))
        · exact .inr (.inl (by simp [href₄, href₃, hne]))
        · exact .inl hg
      | some page =>
        simp only
        rw [wp_bind, wp_modify, wp_bind, wp_modify, wp_bind, wp_modify, wp_pure]
        have hnone0 := h.free f0 hfree0
        rw [setFile_file, if_neg hne.symm] at hfree1
        have hnone1 := h.free f1 hfree1
        have hpipe := hs₂.pipe hne (hmem page rfl) (by simp [hne, hnone0])
          (by simp [hne.symm, hnone1]) (by simp [hne]) (by simp)
        have htyped : Counts (x + one f0 + one f1) 0 b _ := hpipe.typed fun g hg => by
          rcases hg with rfl | rfl | hg
          · exact .inr (.inr (by simp))
          · exact .inr (.inr (by simp [hne]))
          · exact .inl hg
        exact ⟨rfl, .inr ⟨f0, f1, rfl, by
          simpa [hne.symm, State.note, State.setPipe, State.setFile] using htyped⟩⟩

theorem wp_fdalloc (h : Counts x y b s) {p : Fin nproc} (hp : ¬(s.proc p).state.Idle)
    (f : Fin nfile) : wp (fdalloc p f) E (fun r s' =>
      (r = none ∧ s' = s) ∨ ∃ fd, r = some fd ∧ (s.proc p).ofile fd = none ∧
        s' = s.setOfile p fd (some f) ∧ Counts (x - one f) y b s') s := by
  rw [fdalloc, wp_bind, wp_get]
  cases hfind : find fun fd => (s.proc p).ofile fd = none with
  | none =>
    rw [wp_pure]
    exact .inl ⟨rfl, rfl⟩
  | some fd =>
    have hnone : (s.proc p).ofile fd = none := of_decide_eq_true (find_spec hfind)
    rw [wp_bind, wp_set, wp_pure]
    refine .inr ⟨fd, rfl, hnone, rfl, (h.setOfile hp (some f)).congr ?_ fun _ => rfl⟩
    intro g
    simp [hnone, one, eq_comm (a := g)]

theorem wp_argfd (p : Fin nproc) (fd : ℤ) : wp (argfd p fd) E (fun r s' => s' = s ∧
    ∀ i f, r = some (i, f) → (s.proc p).ofile i = some f) s := by
  rw [argfd, wp_bind, wp_get]
  by_cases hfd : 0 ≤ fd ∧ fd < nofile
  · rw [dif_pos hfd, wp_pure]
    refine ⟨rfl, fun i f hr => ?_⟩
    obtain ⟨f', hf', heq⟩ := Option.map_eq_some_iff.mp hr
    cases heq
    exact hf'
  · rw [dif_neg hfd, wp_pure]
    exact ⟨rfl, fun i f hr => by cases hr⟩

theorem Procstate.not_idle_used : ¬Procstate.used.Idle := by
  rw [Procstate.Idle]
  decide

theorem not_idle_used {p : Fin nproc} (hp : (s.proc p).state = .used) :
    ¬(s.proc p).state.Idle := by
  rw [hp]
  exact Procstate.not_idle_used

theorem wp_sysDup (h : Counts 0 0 ∅ s) {p : Fin nproc} (hp : (s.proc p).state = .used) (fd : ℤ) :
    wp (sysDup p fd) E (fun _ s' => Counts 0 0 ∅ s') s := by
  rw [sysDup, wp_bind]
  refine wp_imp (wp_argfd p fd) ?_
  rintro (- | ⟨i, f⟩) s₁ ⟨rfl, hf⟩
  · rw [wp_pure]
    exact h
  · simp only
    rw [wp_bind]
    refine wp_imp (wp_fdalloc h (not_idle_used hp) f) ?_
    rintro r s₂ (⟨rfl, rfl⟩ | ⟨fd', rfl, -, rfl, hs₂⟩)
    · rw [wp_pure]
      exact h
    · -- the old descriptor keeps `f`
      have hcount := count_pos (hf i f rfl)
      have href : 0 < (s₁.file f).ref := h.one_ref (by rw [Pi.zero_apply]; omega)
      simp only
      rw [wp_bind]
      refine wp_imp (wp_filedup hs₂ href) ?_
      rintro - s₃ ⟨-, hs₃⟩
      rw [wp_pure]
      rwa [sub_add_cancel] at hs₃

theorem wp_sysClose (h : Counts 0 0 ∅ s) {p : Fin nproc} (hp : (s.proc p).state = .used) (fd : ℤ) :
    wp (sysClose p fd) E (fun _ s' => Counts 0 0 ∅ s') s := by
  rw [sysClose, wp_bind]
  refine wp_imp (wp_argfd p fd) ?_
  rintro (- | ⟨i, f⟩) s₁ ⟨rfl, hf⟩
  · rw [wp_pure]
    exact h
  · simp only
    rw [wp_bind, wp_modify, wp_bind]
    have hcount := count_pos (hf i f rfl)
    have href : 0 < (s₁.file f).ref := h.one_ref (by rw [Pi.zero_apply]; omega)
    have hs₂ : Counts (one f) 0 ∅ (s₁.setOfile p i none) := by
      refine (h.setOfile (not_idle_used hp) none).congr (fun g => ?_) fun _ => rfl
      simp [hf i f rfl, one, eq_comm (a := g)]
    refine wp_imp (wp_fileclose hs₂ href fun _ => le_rfl) ?_
    rintro - s₃ ⟨-, -, hs₃⟩
    rw [wp_pure]
    rwa [sub_self] at hs₃

theorem one_nonneg {α : Type} [DecidableEq α] (a b : α) : 0 ≤ one a b := by
  rw [one]
  split <;> decide

theorem wp_sysOpen (h : Counts 0 0 ∅ s) {p : Fin nproc} (hp : (s.proc p).state = .used)
    (omode : UInt32) (found : Option (ℕ × Bool)) :
    wp (sysOpen p omode found) E (fun _ s' => Counts 0 0 ∅ s') s := by
  -- the reference to the inode is given back
  have hback : ∀ (ip : ℕ) (t : State), Counts 0 (one ip) ∅ t →
      wp (iput ip >>= fun _ => (pure (-1) : Kernel ℤ)) E (fun _ s' => Counts 0 0 ∅ s') t := by
    intro ip t ht
    rw [wp_bind]
    have husers := users_nonneg t ip
    refine wp_imp (wp_iput ht (by rw [one, if_pos rfl]; omega)) ?_
    rintro - t' ⟨-, -, ht'⟩
    rw [wp_pure]
    rwa [sub_self] at ht'
  unfold sysOpen
  rcases found with - | ⟨ip, dir⟩
  · exact h
  · simp only
    rw [wp_bind]
    refine wp_imp (wp_iget h ip) ?_
    rintro - s₁ ⟨hproc₁, hfile₁, -, hs₁⟩
    rw [zero_add] at hs₁
    rw [wp_ite]
    refine ⟨fun _ => hback ip s₁ hs₁, fun _ => ?_⟩
    rw [wp_bind]
    refine wp_imp (wp_filealloc hs₁) ?_
    rintro r s₂ (⟨rfl, rfl⟩ | ⟨f, rfl, hfree, rfl, hs₂⟩)
    · exact hback ip s₂ hs₁
    · rw [zero_add] at hs₂
      have hp₂ : ¬((s₁.setFile f { s₁.file f with ref := 1 }).proc p).state.Idle := by
        rw [setFile_proc, hproc₁]
        exact not_idle_used hp
      simp only
      rw [wp_bind]
      refine wp_imp (wp_fdalloc hs₂ hp₂ f) ?_
      rintro r s₃ (⟨rfl, rfl⟩ | ⟨fd, rfl, -, rfl, hs₃⟩)
      · -- there is no descriptor
        simp only
        rw [wp_bind]
        refine wp_imp (wp_fileclose hs₂ (by simp) fun ip' => one_nonneg ip ip') ?_
        rintro - s₄ ⟨-, href, hs₄⟩
        rw [sub_self] at hs₄
        refine hback ip s₄ (hs₄.typed fun g hg => .inr (.inl ?_))
        have hgf : g = f := by simpa using hg
        simp [href, hgf]
      · rw [sub_self] at hs₃
        simp only
        rw [wp_bind, wp_modify, wp_pure]
        have hnone := hs₁.free f hfree
        have hset : Counts 0 0 (insert f ∅) _ := (hs₃.setFile (f := f) (a := {
          (s₁.setFile f { s₁.file f with ref := 1 }).setOfile p fd (some f) |>.file f with
            type := .inode
            ip := ip
            off := 0
            readable := omode &&& oWronly = 0
            writable := omode &&& oWronly ≠ 0 ∨ omode &&& oRdwr ≠ 0 })
          ?_ ?_ ?_).congr ?_ ?_
        · refine hset.typed fun g hg => .inr (.inr ?_)
          have hgf : g = f := by simpa using hg
          simp [hgf]
        · simp
        · simp
        · simp [hnone]
        · intro g
          simp
        · intro ip'
          simp [File.inode, hnone, one, eq_comm (a := ip')]

theorem wp_sysPipe (h : Counts 0 0 ∅ s) {p : Fin nproc} (hp : (s.proc p).state = .used) (arg : Bool)
    {mem : Option ℕ} (hmem : ∀ page ∈ mem, s.pipe page = none) :
    wp (sysPipe p arg mem) E (fun _ s' => Counts 0 0 ∅ s') s := by
  -- both ends are closed again
  have hboth : ∀ (rf wf : Fin nfile) (t : State), Counts (one rf + one wf) 0 ∅ t →
      wp (fileclose rf >>= fun _ => fileclose wf >>= fun _ => (pure (-1) : Kernel ℤ)) E
        (fun _ s' => Counts 0 0 ∅ s') t := by
    intro rf wf t ht
    have hpos : 0 < t.count rf + (one rf + one wf : Fin nfile → ℤ) rf := by
      have hcount := count_nonneg t rf
      have hwf := one_nonneg wf rf
      rw [Pi.add_apply, one, if_pos rfl]
      omega
    rw [wp_bind]
    refine wp_imp (wp_fileclose ht (ht.one_ref hpos) fun _ => le_rfl) ?_
    rintro - t₁ ⟨-, -, ht₁⟩
    rw [add_sub_cancel_left] at ht₁
    have hpos₁ : 0 < t₁.count wf + (one wf : Fin nfile → ℤ) wf := by
      have hcount := count_nonneg t₁ wf
      rw [one, if_pos rfl]
      omega
    rw [wp_bind]
    refine wp_imp (wp_fileclose ht₁ (ht₁.one_ref hpos₁) fun _ => le_rfl) ?_
    rintro - t₂ ⟨-, -, ht₂⟩
    rw [wp_pure]
    rwa [sub_self] at ht₂
  rw [sysPipe, wp_ite]
  refine ⟨fun _ => h, fun _ => ?_⟩
  rw [wp_bind]
  refine wp_imp (wp_pipealloc h (fun _ => le_rfl) hmem) ?_
  rintro r s₁ ⟨hproc₁, ⟨rfl, hs₁⟩ | ⟨rf, wf, rfl, hs₁⟩⟩
  · exact hs₁
  · rw [zero_add] at hs₁
    have hp₁ : ¬(s₁.proc p).state.Idle := by
      rw [hproc₁]
      exact not_idle_used hp
    simp only
    rw [wp_bind]
    refine wp_imp (wp_fdalloc hs₁ hp₁ rf) ?_
    rintro r s₂ (⟨rfl, rfl⟩ | ⟨fd0, rfl, hfd0, rfl, hs₂⟩)
    · exact hboth rf wf s₂ hs₁
    · have hp₂ : ¬((s₁.setOfile p fd0 (some rf)).proc p).state.Idle := by
        rw [setOfile_proc, if_pos rfl]
        exact hp₁
      simp only
      rw [wp_bind]
      refine wp_imp (wp_fdalloc hs₂ hp₂ wf) ?_
      rintro r s₃ (⟨rfl, rfl⟩ | ⟨fd1, rfl, -, -, hs₃⟩)
      · -- the first descriptor is taken back
        simp only
        rw [wp_bind, wp_modify]
        refine hboth rf wf _ ((hs₂.setOfile hp₂ none).congr (fun g => ?_) fun _ => rfl)
        have hfd : ((s₁.setOfile p fd0 (some rf)).proc p).ofile fd0 = some rf := by
          rw [setOfile_proc, if_pos rfl]
          exact Function.update_self _ _ _
        simp [hfd, one, eq_comm (a := g), add_comm]
      · rw [add_sub_cancel_left, sub_self] at hs₃
        exact hs₃

/-! ### fork and exit -/

/-- What is the same for a process in the middle of `fork`. -/
structure Forking (p np : Fin nproc) (x : Proc) (done : List (Fin nofile)) (s : State) : Prop where
  counts : Counts 0 0 ∅ s
  parent : s.proc p = x
  embryo : (s.proc np).state = .embryo
  rest : ∀ fd, fd ∉ done → (s.proc np).ofile fd = none

theorem wp_inherit {p np : Fin nproc} {a : Proc} (hne : p ≠ np) {done : List (Fin nofile)}
    {fd : Fin nofile} (hfd : fd ∉ done) (h : Forking p np a done s) :
    wp (inherit p np fd) E (fun _ s' => Forking p np a (done ++ [fd]) s') s := by
  have hrest : ∀ fd', fd' ∉ done ++ [fd] → fd' ∉ done ∧ fd' ≠ fd := by
    intro fd' hfd'
    rw [List.mem_append, List.mem_singleton, not_or] at hfd'
    exact hfd'
  rw [inherit, wp_bind, wp_get]
  cases hfile : (s.proc p).ofile fd with
  | none =>
    rw [wp_pure]
    exact ⟨h.counts, h.parent, h.embryo, fun fd' hfd' => h.rest fd' (hrest fd' hfd').1⟩
  | some f =>
    have hcount := count_pos hfile
    simp only
    rw [wp_bind]
    refine wp_imp (wp_filedup h.counts (h.counts.one_ref (by rw [Pi.zero_apply]; omega))) ?_
    rintro - s₁ ⟨hproc, hs₁⟩
    rw [zero_add] at hs₁
    rw [wp_modify]
    have hnot : ¬(s₁.proc np).state.Idle := by
      rw [hproc, h.embryo, Procstate.Idle]
      decide
    refine ⟨(hs₁.setOfile hnot (some f)).congr (fun g => ?_) (fun _ => rfl), ?_, ?_, ?_⟩
    · simp [hproc, h.rest fd hfd, one, eq_comm (a := g)]
    · rw [setOfile_proc, if_neg hne, hproc]
      exact h.parent
    · rw [setOfile_proc, if_pos rfl, hproc]
      exact h.embryo
    · intro fd' hfd'
      rw [setOfile_proc, if_pos rfl, hproc]
      exact (Function.update_of_ne (hrest fd' hfd').2 _ _).trans (h.rest fd' (hrest fd' hfd').1)

theorem wp_fork (h : Counts 0 0 ∅ s) {p : Fin nproc} (hp : (s.proc p).state = .used)
    (kstack copy : Bool) : wp (fork p kstack copy) E (fun _ s' => Counts 0 0 ∅ s') s := by
  rw [fork, wp_bind, wp_get]
  cases hfind : find fun q => (s.proc q).state = .unused with
  | none => exact h
  | some np =>
    have hfree : (s.proc np).state = .unused := of_decide_eq_true (find_spec hfind)
    have hnone := h.idle np (.inl hfree)
    have hne : p ≠ np := by
      rintro rfl
      rw [hp] at hfree
      cases hfree
    simp only
    rw [wp_bind, wp_modify]
    generalize hs₁ : s.setProc np { s.proc np with state := .embryo } = s₁
    have hcounts : Counts 0 0 ∅ s₁ := by
      rw [← hs₁]
      refine (h.setProc (p := np) (a := { s.proc np with state := .embryo }) rfl
        fun _ => hnone).congr (fun _ => rfl) fun ip => ?_
      simp [Proc.dir, hfree]
    have hproc : ∀ q, s₁.proc q =
        if q = np then { s.proc np with state := .embryo } else s.proc q := by
      intro q
      rw [← hs₁, setProc_proc]
    rw [wp_ite]
    refine ⟨fun _ => ?_, fun _ => ?_⟩
    · -- there is no memory
      rw [wp_bind, wp_modify, wp_pure]
      refine (hcounts.setProc (p := np) (a := { s₁.proc np with state := .unused }) rfl
        fun _ => ?_).congr (fun _ => rfl) fun ip => ?_
      · rw [hproc, if_pos rfl]
        exact hnone
      · simp [Proc.dir, hproc]
    · have hstart : Forking p np (s.proc p) [] s₁ := by
        refine ⟨hcounts, ?_, ?_, fun fd _ => ?_⟩
        · rw [hproc, if_neg hne]
        · rw [hproc, if_pos rfl]
        · rw [hproc, if_pos rfl]
          exact hnone fd
      rw [wp_bind]
      refine wp_imp (wp_forM (Forking p np (s.proc p)) _ hstart ?_) ?_
      · intro done fd rest hl s₂ hs₂
        refine wp_inherit hne ?_ hs₂
        have hnodup := List.nodup_finRange nofile
        rw [hl] at hnodup
        exact fun hmem => (List.nodup_append.mp hnodup).2.2 fd hmem fd List.mem_cons_self rfl
      · rintro - s₂ hs₂
        rw [wp_bind, wp_get, wp_bind]
        refine wp_imp (wp_iget hs₂.counts _) ?_
        rintro - s₃ ⟨hproc₃, -, -, hs₃⟩
        rw [wp_bind, wp_modify, wp_pure]
        refine (hs₃.setProc (p := np)
          (a := { s₃.proc np with cwd := (s₂.proc p).cwd, state := .used }) rfl
          fun hidle => ?_).congr (fun _ => rfl) fun ip => ?_
        · exact absurd hidle Procstate.not_idle_used
        · simp [Proc.dir, hproc₃, hs₂.embryo, one, eq_comm (a := ip)]

/-- What is the same for a process in the middle of `exit`. -/
structure Exiting (p : Fin nproc) (cwd : ℕ) (done : List (Fin nofile)) (s : State) : Prop where
  counts : Counts 0 0 ∅ s
  used : (s.proc p).state = .used
  cwd : (s.proc p).cwd = cwd
  closed : ∀ fd ∈ done, (s.proc p).ofile fd = none

theorem wp_drop {p : Fin nproc} {cwd : ℕ} {done : List (Fin nofile)} {fd : Fin nofile}
    (h : Exiting p cwd done s) :
    wp (drop p fd) E (fun _ s' => Exiting p cwd (done ++ [fd]) s') s := by
  rw [drop, wp_bind, wp_get]
  cases hfile : (s.proc p).ofile fd with
  | none =>
    rw [wp_pure]
    refine ⟨h.counts, h.used, h.cwd, fun fd' hfd' => ?_⟩
    rcases List.mem_append.mp hfd' with hfd' | hfd'
    · exact h.closed fd' hfd'
    · rw [List.mem_singleton.mp hfd']
      exact hfile
  | some f =>
    have hcount := count_pos hfile
    simp only
    rw [wp_bind]
    refine wp_imp (wp_fileclose h.counts (h.counts.one_ref (by rw [Pi.zero_apply]; omega))
      fun _ => le_rfl) ?_
    rintro - s₁ ⟨hproc, -, hs₁⟩
    rw [wp_modify]
    have hused : (s₁.proc p).state = .used := by
      rw [hproc]
      exact h.used
    refine ⟨(hs₁.setOfile (not_idle_used hused) none).congr (fun g => ?_) (fun _ => rfl),
      ?_, ?_, ?_⟩
    · simp [hproc, hfile, one, eq_comm (a := g)]
    · rw [setOfile_proc, if_pos rfl]
      exact hused
    · rw [setOfile_proc, if_pos rfl, hproc]
      exact h.cwd
    · intro fd' hfd'
      rw [setOfile_proc, if_pos rfl, hproc]
      by_cases hsame : fd' = fd
      · rw [hsame]
        exact Function.update_self _ _ _
      · have hmem : fd' ∈ done := by
          rcases List.mem_append.mp hfd' with hmem | hmem
          · exact hmem
          · exact absurd (List.mem_singleton.mp hmem) hsame
        exact (Function.update_of_ne hsame _ _).trans (h.closed fd' hmem)

/-- A process that exists has a reference to its directory. -/
theorem users_pos {p : Fin nproc} (hp : (s.proc p).state = .used) :
    0 < s.users (s.proc p).cwd := by
  have hdir : (1 : ℤ) ≤ ∑ q, (s.proc q).dir (s.proc p).cwd := by
    have hone : (s.proc p).dir (s.proc p).cwd = 1 := by rw [Proc.dir, if_pos ⟨hp, rfl⟩]
    rw [← hone]
    refine Finset.single_le_sum (f := fun q => (s.proc q).dir (s.proc p).cwd) (fun q _ => ?_)
      (Finset.mem_univ p)
    simp only [Proc.dir]
    split <;> decide
  have hfiles : 0 ≤ ∑ f, (s.file f).inode (s.proc p).cwd := by
    refine Finset.sum_nonneg fun f _ => ?_
    rw [File.inode]
    split <;> decide
  rw [State.users]
  omega

theorem wp_exit (h : Counts 0 0 ∅ s) {p : Fin nproc} (hp : (s.proc p).state = .used) :
    wp (exit p) (fun e => e = .exit) (fun _ s' => Counts 0 0 ∅ s') s := by
  rw [exit, wp_ite]
  refine ⟨fun _ => rfl, fun _ => ?_⟩
  rw [wp_bind]
  have hstart : Exiting p (s.proc p).cwd [] s := ⟨h, hp, rfl, fun _ hfd => by cases hfd⟩
  refine wp_imp (wp_forM (Exiting p (s.proc p).cwd) _ hstart
    fun done fd rest _ s₁ hs₁ => wp_drop hs₁) ?_
  rintro - s₁ hs₁
  rw [wp_bind, wp_get, wp_bind]
  have husers := users_pos hs₁.used
  refine wp_imp (wp_iput hs₁.counts (by rw [Pi.zero_apply]; omega)) ?_
  rintro - s₂ ⟨hproc, -, hs₂⟩
  rw [wp_bind, wp_modify, wp_pure]
  refine (hs₂.setProc (p := p) (a := { s₂.proc p with cwd := 0, state := .zombie }) rfl
    fun _ fd => ?_).congr (fun _ => rfl) fun ip => ?_
  · simp only
    rw [hproc]
    exact hs₁.closed fd (List.mem_finRange fd)
  · simp [Proc.dir, hproc, hs₁.used, one, eq_comm (a := ip)]

theorem wp_reap (h : Counts 0 0 ∅ s) {q : Fin nproc} (hq : (s.proc q).state = .zombie) :
    wp (reap q) E (fun _ s' => Counts 0 0 ∅ s') s := by
  rw [reap, wp_bind, wp_modify, wp_pure]
  refine (h.setProc (p := q) (a := { s.proc q with state := .unused }) rfl
    fun _ => h.idle q (.inr hq)).congr (fun _ => rfl) fun ip => ?_
  simp [Proc.dir, hq]

/-- **Every call leaves the counts right**, and only the exit of init panics. -/
theorem counts_call (h : Counts 0 0 ∅ s) {a : Action} (ha : Enabled s a) :
    wp (call a) (fun e => e = .exit) (fun _ s' => Counts 0 0 ∅ s') s := by
  cases a with
  | «open» p omode found => exact wp_sysOpen h ha omode found
  | dup p fd => exact wp_sysDup h ha fd
  | pipe p arg mem => exact wp_sysPipe h ha.1 arg ha.2
  | close p fd => exact wp_sysClose h ha fd
  | fork p kstack copy => exact wp_fork h ha kstack copy
  | exit p => exact wp_exit h ha
  | reap q => exact wp_reap h ha

end Specs

/-! ### Sequences of calls -/

theorem counts_boot (root : ℕ) : Counts 0 0 ∅ (boot root) where
  ref := by
    intro f
    have hslots : ∀ p, ((boot root).proc p).slots f = 0 := by
      intro p
      rw [Proc.slots, Finset.card_eq_zero, Finset.filter_eq_empty_iff]
      intro fd _
      simp only [boot, Function.update_apply]
      split <;> simp
    rw [State.count, Finset.sum_eq_zero fun p _ => hslots p]
    rfl
  free := fun f _ => rfl
  bare := fun f _ href => absurd rfl href
  iref := by
    intro ip
    have hdir : ∀ p, ((boot root).proc p).dir ip = if p = 0 then one ip root else 0 := by
      intro p
      simp only [Proc.dir, boot, Function.update_apply, one]
      by_cases hp : p = 0
      · simp [hp]
      · simp [hp]
    have hinode : ∀ f, ((boot root).file f).inode ip = 0 := fun f => rfl
    rw [State.users, Finset.sum_eq_zero fun f _ => hinode f,
      Finset.sum_congr rfl fun p _ => hdir p, Finset.sum_ite_eq' Finset.univ (0 : Fin nproc),
      if_pos (Finset.mem_univ _)]
    simp only [boot, Function.update_apply, one, eq_comm (a := root), Pi.zero_apply]
    split <;> rfl
  idle := by
    intro p _ fd
    simp only [boot, Function.update_apply]
    split <;> rfl
  pipes := by
    refine ⟨?_, ?_, ?_, ?_, fun page => ⟨[], rfl⟩⟩
    · intro f hf
      cases hf
    · intro f g hf
      cases hf
    · intro page q hq
      cases hq
    · intro page q hq
      cases hq

theorem counts_step {s s' : State} {a : Action} {r : ℤ} (hs : Counts 0 0 ∅ s)
    (h : step s a = some (s', r)) : Counts 0 0 ∅ s' := by
  rw [step, Option.ite_none_right_eq_some] at h
  obtain ⟨ha, h⟩ := h
  have hcall := counts_call hs ha
  split at h
  · next r' t hok =>
    cases h
    exact wp_ok hcall hok
  · cases h

/-- What holds between calls. -/
structure Balanced (s : State) : Prop where
  /-- `ref` is the number of descriptors. -/
  ref : ∀ f, (s.file f).ref = s.count f
  /-- What a file structure refers to is released exactly when there are no descriptors. -/
  released : ∀ f, (s.file f).type = .none ↔ (s.file f).ref = 0
  /-- An inode has a reference for each file structure of type `inode`, and each directory. -/
  iref : ∀ ip, (s.iref ip : ℤ) = s.users ip
  /-- The open ends of pipes are those of file structures, and each page was freed once, after
  both ends. -/
  pipes : Pipes s.file s.pipe s.log

/-- **References are counted.**  After any sequence of calls the counts are right, and no
further call panics, but for the exit of init. -/
theorem references_counted {root : ℕ} {as : List Action} {s : State} {rs : List ℤ}
    (h : run step (boot root) as = some (s, rs)) :
    Balanced s ∧ ∀ a e, Enabled s a → call a s = .error e → e = .exit := by
  have hs : Counts 0 0 ∅ s := run_invariant (Counts 0 0 ∅) (P := fun _ _ => True)
    (fun _ _ _ hs _ hstep => counts_step hs hstep) as (boot root) (s, rs) (counts_boot root)
    (AlongRun.of_forall _ fun _ _ _ => trivial) h
  refine ⟨⟨fun f => ?_, fun f => ⟨fun hnone => ?_, hs.free f⟩, fun ip => ?_, hs.pipes⟩,
    fun a e ha he => wp_error (counts_call hs ha) he⟩
  · have href := hs.ref f
    rw [Pi.zero_apply] at href
    omega
  · by_contra href
    exact hs.bare f hnone href
  · rw [hs.iref ip, Pi.zero_apply, add_zero]

/-- Init makes a pipe and a child, and closes both ends; the child exits. -/
theorem references_counted_of_a_pipe : ∃ s rs, run step (boot 7)
      [.pipe 0 true (some 3), .fork 0 true true, .close 0 0, .close 0 1, .exit 1] = some (s, rs) ∧
    s.log = life 3 false ∧ Balanced s := by
  have hrun : (run step (boot 7)
      [.pipe 0 true (some 3), .fork 0 true true, .close 0 0, .close 0 1, .exit 1]).map
        (fun r => r.1.log) = some (life 3 false) := by decide +kernel
  obtain ⟨⟨s, rs⟩, hs, hlog⟩ := Option.map_eq_some_iff.mp hrun
  exact ⟨s, rs, hs, hlog, (references_counted hs).1⟩

end Descriptors
end Xv6
