import Xv6.Fs.BufferCache
import Xv6.Fs.GroupIsolated

/-!
# File-system operations over the buffer cache

The processes of `Xv6.Fs.GroupCommit` at work: between and outside of operations they read
blocks into buffers and release them, in an operation they change the contents of a
buffer and pass it to `log_write`, and the committing one copies the blocks of the
transaction to the log and home.  Again the schedule is the input.

* `Cmd`, `code` — the straight-line pieces of `commit`.
* `Proc`, `State` — the buffers a process has, and the system.
* `exec`, `go`, `step` — a step.
-/

namespace Xv6
namespace WriteAhead

open Log BufferCache
open GroupCommit (CommitPc Phase)

/-- A statement of `commit` about buffers, which it names by their blocks. -/
inductive Cmd
  | bread (b : UInt32)
  | memmove (dst src : UInt32)
  /-- `hb->n = log.lh.n; …`, of `write_head`. -/
  | header (b : UInt32)
  | bwrite (b : UInt32)
  | brelse (b : UInt32)
  deriving DecidableEq

/-- What `commit` does at each place, before it goes on to the next one. -/
def code (start : UInt32) (lh : List UInt32) : CommitPc → List Cmd
  | .writeLog tail =>
      match lh[tail]? with
      | some b => [.bread (logBlock start tail), .bread b, .memmove (logBlock start tail) b,
          .bwrite (logBlock start tail), .brelse b, .brelse (logBlock start tail)]
      | none => []
  | .writeHead | .eraseHead => [.bread start, .header start, .bwrite start, .brelse start]
  | .installTrans tail =>
      match lh[tail]? with
      | some b => [.bread (logBlock start tail), .bread b, .memmove b (logBlock start tail),
          .bwrite b, .brelse (logBlock start tail), .brelse b]
      | none => []
  | .entry | .clear | .finish => []

/-- What a process is in the middle of. -/
inductive Busy
  | ready
  /-- In `bread` of the block, at `acquiresleep`. -/
  | waiting (i : ℕ) (b : UInt32)
  /-- Between a change of the buffer and `log_write`. -/
  | modified (i : ℕ)
  /-- In `brelse`, behind `releasesleep`. -/
  | leaving (i : ℕ)
  deriving DecidableEq

/-- A process: the blocks it has read and their buffers, and the rest of a piece of code. -/
structure Proc where
  held : List (UInt32 × ℕ)
  busy : Busy
  todo : List Cmd

/-- The system. -/
structure State (P : Type*) where
  log : GroupCommit.State P
  bcache : Cache P
  proc : P → Proc

/-- What a process may do next, where it has a choice. -/
inductive Action
  | beginOp
  | bread (b : UInt32)
  | modify (b : UInt32) (data : Block)
  | brelse (b : UInt32)
  | endOp
  /-- It goes on with what it is in the middle of. -/
  | go
  deriving DecidableEq

/-- What a step has done. -/
inductive Event (P : Type*)
  | log (e : GroupCommit.Event P)
  /-- The disk block is written. -/
  | write (b : UInt32) (data : Block)
  /-- The cached copy of the block is discarded. -/
  | discard (b : UInt32)
  | other

/-- The event of a call of `iderw`. -/
def Event.ofWrite {P : Type*} : Option (UInt32 × Block) → Event P
  | some (b, data) => .write b data
  | none => .other

/-- The event of a call of `bget`. -/
def Event.ofDiscard {P : Type*} : Option UInt32 → Event P
  | some b => .discard b
  | none => .other

variable {P : Type*} [DecidableEq P]

/-- The process `p` changes. -/
def State.setProc (s : State P) (p : P) (x : Proc) : State P :=
  { s with proc := Function.update s.proc p x }

@[simp] theorem State.setProc_log (s : State P) (p : P) (x : Proc) :
    (s.setProc p x).log = s.log := rfl

@[simp] theorem State.setProc_bcache (s : State P) (p : P) (x : Proc) :
    (s.setProc p x).bcache = s.bcache := rfl

@[simp] theorem State.setProc_proc (s : State P) (p : P) (x : Proc) :
    (s.setProc p x).proc = Function.update s.proc p x := rfl

/-- The buffer that the process has of the block. -/
def Proc.buffer (x : Proc) (b : UInt32) : Option ℕ := x.held.lookup b

/-! ### The code -/

/-- `bread`, up to `acquiresleep`. -/
def startBread (p : P) (b : UInt32) (s : State P) : Option (State P × Event P) :=
  (bget b s.bcache).toOption.map fun (c, i, d) =>
    ({ s with bcache := c }.setProc p { s.proc p with busy := .waiting i b }, .ofDiscard d)

/-- The rest of `bread`. -/
def endBread (p : P) (i : ℕ) (b : UInt32) (s : State P) : Option (State P × Event P) :=
  (bread p i s.bcache).toOption.map fun (c, w) =>
    ({ s with bcache := c }.setProc p
      { s.proc p with held := (b, i) :: (s.proc p).held, busy := .ready }, .ofWrite w)

/-- `brelse`, up to `releasesleep`. -/
def startBrelse (p : P) (b : UInt32) (s : State P) : Option (State P × Event P) :=
  ((s.proc p).buffer b).bind fun i =>
    (releasesleep p i s.bcache).toOption.map fun c =>
      ({ s with bcache := c }.setProc p
        { s.proc p with held := (s.proc p).held.erase (b, i), busy := .leaving i }, .other)

/-- The rest of `brelse`. -/
def endBrelse (p : P) (i : ℕ) (s : State P) : State P × Event P :=
  ({ s with bcache := unref i s.bcache }.setProc p { s.proc p with busy := .ready }, .other)

/-- The contents of a buffer are changed in place. -/
def setData (i : ℕ) (data : Block) (s : State P) : State P :=
  { s with bcache := s.bcache.set i { s.bcache.buf i with data := data } }

/-- A change of the buffer of the block, in an operation; the file system changes no block
of the log. -/
def modify (r : Region) (p : P) (b : UInt32) (data : Block) (s : State P) :
    Option (State P × Event P) :=
  if s.log.phase p = .inOp ∧ r.size ≤ Counter.dist r.start b then
    ((s.proc p).buffer b).map fun i =>
      ((setData i data s).setProc p { s.proc p with busy := .modified i }, .other)
  else none

/-- A step of the process in `struct log`. -/
def logStep (r : Region) (p : P) (a : GroupCommit.Action) (s : State P) :
    Option (State P × Event P) :=
  (GroupCommit.step r.size s.log p a).toOption.map fun (l, e) => ({ s with log := l }, .log e)

/-- `log_write` of the buffer. -/
def write (r : Region) (p : P) (i : ℕ) (s : State P) : Option (State P × Event P) :=
  (s.bcache.buf i).blk.bind fun b =>
    (logStep r p (.logWrite b) s).map fun (s, e) =>
      ({ s with bcache := s.bcache.set i { s.bcache.buf i with dirty := true } }.setProc p
        { s.proc p with busy := .ready }, e)

/-- A statement of `commit`. -/
def exec (p : P) (s : State P) : Cmd → Option (State P × Event P)
  | .bread b => startBread p b s
  | .memmove dst src =>
      ((s.proc p).buffer dst).bind fun i =>
        ((s.proc p).buffer src).map fun j => (setData i (s.bcache.buf j).data s, .other)
  | .header b =>
      ((s.proc p).buffer b).map fun i =>
        (setData i (setHeader (s.bcache.buf i).data s.log.lh) s, .other)
  | .bwrite b =>
      ((s.proc p).buffer b).bind fun i =>
        (bwrite p i s.bcache).toOption.map fun (c, w) => ({ s with bcache := c }, .ofWrite w)
  | .brelse b => startBrelse p b s

/-- The piece of code for the place that the process has come to. -/
def load (r : Region) (p : P) (s : State P) : State P :=
  match s.log.phase p with
  | .committing pc => s.setProc p { s.proc p with todo := code r.start s.log.lh pc }
  | _ => s

/-- `commit`: its next statement, or the way to its next place. -/
def commit (r : Region) (p : P) (s : State P) : Option (State P × Event P) :=
  match (s.proc p).todo with
  | cmd :: todo => exec p (s.setProc p { s.proc p with todo := todo }) cmd
  | [] => (logStep r p .commit s).map fun (s, e) => (load r p s, e)

/-- The process goes on with what it is in the middle of. -/
def go (r : Region) (p : P) (s : State P) : Option (State P × Event P) :=
  match (s.proc p).busy with
  | .waiting i b => endBread p i b s
  | .modified i => write r p i s
  | .leaving i => some (endBrelse p i s)
  | .ready =>
      match s.log.phase p with
      | .committing _ => commit r p s
      | _ => none

/-- The process is outside `commit`, with nothing to go on with. -/
def Free (p : P) (s : State P) : Prop :=
  (s.proc p).busy = .ready ∧ (s.log.phase p = .idle ∨ s.log.phase p = .inOp)

instance (p : P) (s : State P) : Decidable (Free p s) :=
  inferInstanceAs (Decidable (_ ∧ (_ ∨ _)))

/-- The process `p` takes a step. -/
def step (r : Region) (s : State P) : P × Action → Option (State P × Event P)
  | (p, .go) => go r p s
  | (p, .beginOp) => if Free p s then logStep r p .beginOp s else none
  | (p, .bread b) => if Free p s then startBread p b s else none
  | (p, .modify b data) => if Free p s then modify r p b data s else none
  | (p, .brelse b) => if Free p s then startBrelse p b s else none
  | (p, .endOp) =>
    if Free p s then (logStep r p .endOp s).map fun (s, e) => (load r p s, e) else none

end WriteAhead
end Xv6
