import Xv6.Lib.Labelled
import Xv6.User.ShellStrings

/-!
# Running commands

`runcmd` of `sh.c`, with the system calls that it makes.  Its processes take turns in any order,
and any call may fail.

## Main definitions

* `Code`, `runcmd` — the code, as the calls that it makes.
* `Process`, `Process.Step` — a process with its children, and the calls.
* `Job`, `Job.Step` — what a command means: programs that run in parallel or one after the other,
  each with three files.
* `Means` — a process runs a job.

## Main results

* `Means.step` — **every step of a process is a step of its job, or shows nothing.**
* `Means.tidy` — a process that waits or runs a program has no other descriptor.
* `runcmd_means` — **a line is run as what it stands for**, with the same programs on the same
  files.
-/

namespace Xv6
namespace Shell

open Prog Labelled

variable {W : Type}

/-! ### Descriptors -/

/-- What a descriptor stands for. -/
inductive File (W : Type)
  /-- A file that the shell was started with. -/
  | given (n : ℕ)
  | opened (name : W) (mode : ℕ)
  | readEnd (q : ℕ)
  | writeEnd (q : ℕ)

/-- `NOFILE` -/
def nofile : ℕ := 16

/-- `p->ofile` -/
abbrev Fds (W : Type) := ℕ → Option (File W)

/-- `fdalloc`: the lowest descriptor that is free. -/
def fdalloc (f : Fds W) (x : File W) : Option (Fds W × ℕ) :=
  match (List.range nofile).find? fun n => (f n).isNone with
  | some n => some (Function.update f n (some x), n)
  | none => none

/-- `close` -/
def close (f : Fds W) (fd : ℕ) : Fds W := Function.update f fd none

/-- `dup`, where nobody looks at the result. -/
def dup (f : Fds W) (fd : ℕ) : Fds W :=
  match f fd with
  | some x =>
      match fdalloc f x with
      | some (f', _) => f'
      | none => f
  | none => f

/-! ### The code -/

/-- What is printed on descriptor 2. -/
inductive Msg (W : Type)
  | execFailed (file : W)
  | openFailed (file : W)
  | panic (s : String)

/-- The calls that a process makes. -/
inductive Code (W : Type)
  | close (fd : ℕ) (k : Code W)
  | dup (fd : ℕ) (k : Code W)
  | openFile (file : W) (mode : ℕ) (ok failed : Code W)
  | pipe (ok : ℕ → ℕ → Code W) (failed : Code W)
  | fork (child parent failed : Code W)
  | wait (k : Code W)
  | print (m : Msg W) (k : Code W)
  | exec (argv : List W) (failed : Code W)
  /-- `exec` has replaced the shell by a program. -/
  | program
  | exit

/-- `panic` -/
def panic (s : String) : Code W := .print (.panic s) .exit

/-- `fork1` -/
def fork1 (child parent : Code W) : Code W := .fork child parent (panic "fork")

/-- `runcmd` of a pipe, behind the first `fork1`. -/
def pipeRight (right : Code W) (p₀ p₁ : ℕ) : Code W :=
  fork1 (.close 0 (.dup p₀ (.close p₀ (.close p₁ right))))
    (.close p₀ (.close p₁ (.wait (.wait .exit))))

/-- `runcmd` of a pipe, behind `pipe`. -/
def pipeBoth (left right : Code W) (p₀ p₁ : ℕ) : Code W :=
  fork1 (.close 1 (.dup p₁ (.close p₀ (.close p₁ left)))) (pipeRight right p₀ p₁)

/-- `runcmd` -/
def runcmd : Cmd W → Code W
  | .exec [] => .exit
  | .exec (file :: args) => .exec (file :: args) (.print (.execFailed file) .exit)
  | .redir c file mode fd =>
      .close fd (.openFile file mode (runcmd c) (.print (.openFailed file) .exit))
  | .list left right => fork1 (runcmd left) (.wait (runcmd right))
  | .pipe left right => .pipe (pipeBoth (runcmd left) (runcmd right)) (panic "pipe")
  | .back c => fork1 (runcmd c) .exit

/-! ### Processes -/

/-- A process with its children. -/
inductive Process (W : Type)
  | zombie
  | node (code : Code W) (fds : Fds W) (children : List (Process W))

/-- What is seen of a step. -/
inductive Event (W : Type)
  | start (argv : List W) (fds : Fds W)
  | finish
  | say (m : Msg W) (file : Option (File W))
  | opens (file : W) (mode : ℕ)
  | pipe (q : ℕ)

open Process in
/-- A step of a process, or of one below it.  The children of a process that exits are left
behind. -/
inductive Process.Step : Process W → Option (Event W) → Process W → List (Process W) → Prop
  | close (fd : ℕ) (k : Code W) (f : Fds W) (cs : List (Process W)) :
      Step (node (.close fd k) f cs) none (node k (Shell.close f fd) cs) []
  | dup (fd : ℕ) (k : Code W) (f : Fds W) (cs : List (Process W)) :
      Step (node (.dup fd k) f cs) none (node k (Shell.dup f fd) cs) []
  | openFile {file : W} {mode n : ℕ} {ok failed : Code W} {f f' : Fds W} {cs : List (Process W)}
      (h : fdalloc f (.opened file mode) = some (f', n)) :
      Step (node (.openFile file mode ok failed) f cs) (some (.opens file mode)) (node ok f' cs) []
  | openFailed (file : W) (mode : ℕ) (ok failed : Code W) (f : Fds W) (cs : List (Process W)) :
      Step (node (.openFile file mode ok failed) f cs) none (node failed f cs) []
  | pipe {q a b : ℕ} {ok : ℕ → ℕ → Code W} {failed : Code W} {f f₁ f₂ : Fds W}
      {cs : List (Process W)} (h : fdalloc f (.readEnd q) = some (f₁, a))
      (h' : fdalloc f₁ (.writeEnd q) = some (f₂, b)) :
      Step (node (.pipe ok failed) f cs) (some (.pipe q)) (node (ok a b) f₂ cs) []
  | pipeFailed (ok : ℕ → ℕ → Code W) (failed : Code W) (f : Fds W) (cs : List (Process W)) :
      Step (node (.pipe ok failed) f cs) none (node failed f cs) []
  | fork (child parent failed : Code W) (f : Fds W) (cs : List (Process W)) :
      Step (node (.fork child parent failed) f cs) none
        (node parent f (cs ++ [node child f []])) []
  | forkFailed (child parent failed : Code W) (f : Fds W) (cs : List (Process W)) :
      Step (node (.fork child parent failed) f cs) none (node failed f cs) []
  | reap {k : Code W} {f : Fds W} {cs ts us : List (Process W)} (h : cs = ts ++ zombie :: us) :
      Step (node (.wait k) f cs) none (node k f (ts ++ us)) []
  | waitNone (k : Code W) (f : Fds W) : Step (node (.wait k) f []) none (node k f []) []
  | print (m : Msg W) (k : Code W) (f : Fds W) (cs : List (Process W)) :
      Step (node (.print m k) f cs) (some (.say m (f 2))) (node k f cs) []
  | exec (argv : List W) (failed : Code W) (f : Fds W) (cs : List (Process W)) :
      Step (node (.exec argv failed) f cs) (some (.start argv f)) (node .program f cs) []
  | execFailed (argv : List W) (failed : Code W) (f : Fds W) (cs : List (Process W)) :
      Step (node (.exec argv failed) f cs) none (node failed f cs) []
  | finish (f : Fds W) (cs : List (Process W)) :
      Step (node .program f cs) (some .finish) zombie cs
  | exit (f : Fds W) (cs : List (Process W)) : Step (node .exit f cs) none zombie cs
  | child {code : Code W} {f : Fds W} {cs ts us : List (Process W)} {t t' : Process W}
      {l : Option (Event W)} {new : List (Process W)} (h : cs = ts ++ t :: us)
      (hstep : Step t l t' new) : Step (node code f cs) l (node code f (ts ++ t' :: us)) new

/-! ### What commands mean -/

/-- Standard input, output and error output. -/
structure Io (W : Type) where
  stdin : File W
  stdout : File W
  stderr : File W

/-- The three descriptors, and no other. -/
def Io.fds (io : Io W) : Fds W
  | 0 => some io.stdin
  | 1 => some io.stdout
  | 2 => some io.stderr
  | _ => none

/-- `fd` is 0 or 1. -/
def Io.redirect (io : Io W) (fd : ℕ) (x : File W) : Io W :=
  if fd = 0 then { io with stdin := x } else { io with stdout := x }

/-- What runs a command, or some of it. -/
inductive Job (W : Type)
  | cmd (c : Cmd W) (io : Io W)
  | program
  /-- A message, and then nothing. -/
  | say (m : Msg W) (io : Io W)
  /-- A message, and then `a` is left behind. -/
  | sayLeave (m : Msg W) (io : Io W) (a : Job W)
  | leave (a : Job W)
  /-- First `a`, and then a command. -/
  | seq (a : Job W) (c : Cmd W) (io : Io W)
  /-- There is a pipe. -/
  | piping (q : ℕ) (left right : Cmd W) (io : Io W)
  /-- The left side of it runs. -/
  | piped (a : Job W) (q : ℕ) (right : Cmd W) (io : Io W)
  | par (a b : Job W)
  | done

/-- **What commands mean.**  The last argument is what is left behind. -/
inductive Job.Step : Job W → Option (Event W) → Job W → List (Job W) → Prop
  | empty (io : Io W) : Step (.cmd (.exec []) io) none .done []
  | start (file : W) (args : List W) (io : Io W) :
      Step (.cmd (.exec (file :: args)) io) (some (.start (file :: args) io.fds)) .program []
  | noProgram (file : W) (args : List W) (io : Io W) :
      Step (.cmd (.exec (file :: args)) io) none (.say (.execFailed file) io) []
  | finish : Step .program (some .finish) .done []
  | opens (c : Cmd W) (file : W) (mode fd : ℕ) (io : Io W) :
      Step (.cmd (.redir c file mode fd) io) (some (.opens file mode))
        (.cmd c (io.redirect fd (.opened file mode))) []
  | noFile (c : Cmd W) (file : W) (mode fd : ℕ) (io : Io W) :
      Step (.cmd (.redir c file mode fd) io) none (.say (.openFailed file) io) []
  | first (left right : Cmd W) (io : Io W) :
      Step (.cmd (.list left right) io) none (.seq (.cmd left io) right io) []
  | noFirst (left right : Cmd W) (io : Io W) :
      Step (.cmd (.list left right) io) none (.say (.panic "fork") io) []
  | second (c : Cmd W) (io : Io W) : Step (.seq .done c io) none (.cmd c io) []
  | seq {a a' : Job W} {l : Option (Event W)} {new : List (Job W)} (c : Cmd W) (io : Io W)
      (h : Step a l a' new) : Step (.seq a c io) l (.seq a' c io) new
  | pipe (left right : Cmd W) (q : ℕ) (io : Io W) :
      Step (.cmd (.pipe left right) io) (some (.pipe q)) (.piping q left right io) []
  | noPipe (left right : Cmd W) (io : Io W) :
      Step (.cmd (.pipe left right) io) none (.say (.panic "pipe") io) []
  | left (q : ℕ) (left right : Cmd W) (io : Io W) :
      Step (.piping q left right io) none
        (.piped (.cmd left (io.redirect 1 (.writeEnd q))) q right io) []
  | noLeft (q : ℕ) (left right : Cmd W) (io : Io W) :
      Step (.piping q left right io) none (.say (.panic "fork") io) []
  | piped {a a' : Job W} {l : Option (Event W)} {new : List (Job W)} (q : ℕ) (c : Cmd W)
      (io : Io W) (h : Step a l a' new) : Step (.piped a q c io) l (.piped a' q c io) new
  | right (a : Job W) (q : ℕ) (c : Cmd W) (io : Io W) :
      Step (.piped a q c io) none (.par a (.cmd c (io.redirect 0 (.readEnd q)))) []
  | noRight (a : Job W) (q : ℕ) (c : Cmd W) (io : Io W) :
      Step (.piped a q c io) none (.sayLeave (.panic "fork") io a) []
  | parLeft {a a' : Job W} {l : Option (Event W)} {new : List (Job W)} (b : Job W)
      (h : Step a l a' new) : Step (.par a b) l (.par a' b) new
  | parRight {b b' : Job W} {l : Option (Event W)} {new : List (Job W)} (a : Job W)
      (h : Step b l b' new) : Step (.par a b) l (.par a b') new
  | both : Step (.par .done .done) none .done []
  | back (c : Cmd W) (io : Io W) : Step (.cmd (.back c) io) none (.leave (.cmd c io)) []
  | noBack (c : Cmd W) (io : Io W) : Step (.cmd (.back c) io) none (.say (.panic "fork") io) []
  | leaving {a a' : Job W} {l : Option (Event W)} {new : List (Job W)} (h : Step a l a' new) :
      Step (.leave a) l (.leave a') new
  | leave (a : Job W) : Step (.leave a) none .done [a]
  | say (m : Msg W) (io : Io W) : Step (.say m io) (some (.say m (some io.stderr))) .done []
  | sayLeaving {a a' : Job W} {l : Option (Event W)} {new : List (Job W)} (m : Msg W) (io : Io W)
      (h : Step a l a' new) : Step (.sayLeave m io a) l (.sayLeave m io a') new
  | sayLeave (m : Msg W) (io : Io W) (a : Job W) :
      Step (.sayLeave m io a) (some (.say m (some io.stderr))) (.leave a) []

/-! ### Descriptors of a command -/

/-- The redirections are of standard input and output, as the parser makes them. -/
def Cmd.Std : Cmd W → Prop
  | .exec _ => True
  | .redir c _ _ fd => fd < 2 ∧ c.Std
  | .pipe left right | .list left right => left.Std ∧ right.Std
  | .back c => c.Std

/-- `close` and `dup` show nothing: the code behind them, and its descriptors. -/
def settle : Code W → Fds W → Code W × Fds W
  | .close fd k, f => settle k (close f fd)
  | .dup fd k, f => settle k (dup f fd)
  | k, f => (k, f)

/-- The descriptors behind `pipe`. -/
def pipeFds (q : ℕ) (io : Io W) : Fds W :=
  Function.update (Function.update io.fds 3 (some (.readEnd q))) 4 (some (.writeEnd q))

section Descriptors

variable {io : Io W} {f : Fds W} {x : File W}

theorem fdalloc_eq {n : ℕ} (hn : n < nofile) (hfree : f n = none)
    (hlow : ∀ m < n, (f m).isSome) : fdalloc f x = some (Function.update f n (some x), n) := by
  have hfind : (List.range nofile).find? (fun n => (f n).isNone) = some n := by
    rw [List.find?_range_eq_some]
    refine ⟨by rw [hfree]; rfl, List.mem_range.mpr hn, fun m hm => ?_⟩
    rw [Bool.not_eq_true', Option.isNone_eq_false_iff]
    exact hlow m hm
  rw [fdalloc, hfind]

/-- `close` and `open` redirect a descriptor. -/
theorem fdalloc_redirect {fd : ℕ} (hfd : fd < 2) :
    fdalloc (close io.fds fd) x = some ((io.redirect fd x).fds, fd) := by
  have hcases : fd = 0 ∨ fd = 1 := by omega
  have hfree : close io.fds fd fd = none := Function.update_self _ _ _
  rw [fdalloc_eq (by rw [nofile]; omega) hfree fun m hm => ?_]
  · refine congrArg (fun g => some (g, fd)) (funext fun n => ?_)
    rw [close, Function.update_idem]
    rcases hcases with rfl | rfl
    · rcases n with _ | _ | _ | n <;> rfl
    · rcases n with _ | _ | _ | n <;> rfl
  · obtain rfl : fd = 1 := by omega
    obtain rfl : m = 0 := by omega
    rfl

theorem fdalloc_readEnd (q : ℕ) : fdalloc io.fds (.readEnd q) =
    some (Function.update io.fds 3 (some (.readEnd q)), 3) := by
  refine fdalloc_eq (by decide) rfl fun m hm => ?_
  rcases m with _ | _ | _ | m
  · rfl
  · rfl
  · rfl
  · omega

theorem fdalloc_writeEnd (q : ℕ) :
    fdalloc (Function.update io.fds 3 (some (.readEnd q))) (.writeEnd q) =
      some (pipeFds q io, 4) := by
  refine fdalloc_eq (by decide) rfl fun m hm => ?_
  rcases m with _ | _ | _ | _ | m
  · rfl
  · rfl
  · rfl
  · rfl
  · omega

theorem settle_left (k : Code W) (q : ℕ) (io : Io W) :
    settle (.close 1 (.dup 4 (.close 3 (.close 4 k)))) (pipeFds q io) =
      settle k (io.redirect 1 (.writeEnd q)).fds := by
  have hdup : dup (close (pipeFds q io) 1) 4 =
      Function.update (close (pipeFds q io) 1) 1 (some (.writeEnd q)) := by
    rw [dup, show close (pipeFds q io) 1 4 = some (.writeEnd q) from rfl]
    dsimp only
    rw [fdalloc_eq (n := 1) (by decide) rfl fun m hm => by
      obtain rfl : m = 0 := by omega
      rfl]
  rw [settle, settle, settle, settle, hdup]
  refine congrArg (settle k) (funext fun n => ?_)
  rcases n with _ | _ | _ | _ | _ | n <;> rfl

theorem settle_right (k : Code W) (q : ℕ) (io : Io W) :
    settle (.close 0 (.dup 3 (.close 3 (.close 4 k)))) (pipeFds q io) =
      settle k (io.redirect 0 (.readEnd q)).fds := by
  have hdup : dup (close (pipeFds q io) 0) 3 =
      Function.update (close (pipeFds q io) 0) 0 (some (.readEnd q)) := by
    rw [dup, show close (pipeFds q io) 0 3 = some (.readEnd q) from rfl]
    dsimp only
    rw [fdalloc_eq (n := 0) (by decide) rfl fun m hm => by omega]
  rw [settle, settle, settle, settle, hdup]
  refine congrArg (settle k) (funext fun n => ?_)
  rcases n with _ | _ | _ | _ | _ | n <;> rfl

theorem settle_parent (q : ℕ) (io : Io W) :
    settle (.close 3 (.close 4 (.wait (.wait .exit)))) (pipeFds q io) =
      (.wait (.wait .exit), io.fds) := by
  rw [settle, settle]
  refine congrArg (Prod.mk _) (funext fun n => ?_)
  rcases n with _ | _ | _ | _ | _ | n <;> rfl

end Descriptors

/-! ### Processes and jobs -/

/-- **A process runs a job.** -/
inductive Means : Process W → Job W → Prop
  | cmd {k : Code W} {f : Fds W} {c : Cmd W} {io : Io W}
      (h : settle k f = settle (runcmd c) io.fds) (hc : c.Std) : Means (.node k f []) (.cmd c io)
  | program (io : Io W) : Means (.node .program io.fds []) .program
  | say {f : Fds W} {io : Io W} (m : Msg W) (hf : f 2 = some io.stderr) :
      Means (.node (.print m .exit) f []) (.say m io)
  | sayLeave {f : Fds W} {io : Io W} {t : Process W} {a : Job W} (m : Msg W)
      (hf : f 2 = some io.stderr) (h : Means t a) :
      Means (.node (.print m .exit) f [t]) (.sayLeave m io a)
  | leave {t : Process W} {a : Job W} (f : Fds W) (h : Means t a) :
      Means (.node .exit f [t]) (.leave a)
  | seq {t : Process W} {a : Job W} {c : Cmd W} (io : Io W) (h : Means t a) (hc : c.Std) :
      Means (.node (.wait (runcmd c)) io.fds [t]) (.seq a c io)
  | piping {left right : Cmd W} (q : ℕ) (io : Io W) (hl : left.Std) (hr : right.Std) :
      Means (.node (pipeBoth (runcmd left) (runcmd right) 3 4) (pipeFds q io) [])
        (.piping q left right io)
  | piped {right : Cmd W} {t : Process W} {a : Job W} (q : ℕ) (io : Io W) (h : Means t a)
      (hr : right.Std) :
      Means (.node (pipeRight (runcmd right) 3 4) (pipeFds q io) [t]) (.piped a q right io)
  | par {k : Code W} {f : Fds W} {io : Io W} {t u : Process W} {a b : Job W}
      (h : settle k f = (.wait (.wait .exit), io.fds)) (ht : Means t a) (hu : Means u b) :
      Means (.node k f [t, u]) (.par a b)
  | parLeft {u : Process W} {b : Job W} (io : Io W) (hu : Means u b) :
      Means (.node (.wait .exit) io.fds [u]) (.par .done b)
  | parRight {t : Process W} {a : Job W} (io : Io W) (ht : Means t a) :
      Means (.node (.wait .exit) io.fds [t]) (.par a .done)
  | exiting (f : Fds W) : Means (.node .exit f []) .done
  | done : Means .zombie .done

/-- What follows a step of a process. -/
def Means.Next (a : Job W) (l : Option (Event W)) (t' : Process W) (new : List (Process W)) :
    Prop :=
  ∃ a' bs, (Job.Step a l a' bs ∨ (l = none ∧ a' = a ∧ bs = [])) ∧ Means t' a' ∧
    List.Forall₂ Means new bs

section Steps

variable {k : Code W} {f : Fds W} {c : Cmd W} {io : Io W} {t t' u : Process W} {a b : Job W}
  {l : Option (Event W)} {new cs : List (Process W)}

theorem Means.zombie (h : Means .zombie a) : a = .done := by
  cases h
  rfl

/-- A step shows nothing, is made by a child, or is that of a call which is not `close` or
`dup`. -/
theorem Process.Step.settle_cases (h : Process.Step (.node k f cs) l t' new) :
    (∃ k' f', t' = .node k' f' cs ∧ l = none ∧ new = [] ∧ settle k' f' = settle k f) ∨
    (∃ ts t us t₁, cs = ts ++ t :: us ∧ t' = .node k f (ts ++ t₁ :: us) ∧
      Process.Step t l t₁ new) ∨ settle k f = (k, f) := by
  cases h with
  | close fd k => exact .inl ⟨k, _, rfl, rfl, rfl, rfl⟩
  | dup fd k => exact .inl ⟨k, _, rfl, rfl, rfl, rfl⟩
  | child h hstep => exact .inr (.inl ⟨_, _, _, _, h, rfl, hstep⟩)
  | _ => exact .inr (.inr rfl)

/-- A step of a command. -/
theorem Means.step_cmd (h : settle k f = settle (runcmd c) io.fds) (hc : c.Std)
    (hs : Process.Step (.node k f []) l t' new) : Means.Next (.cmd c io) l t' new := by
  rcases hs.settle_cases with ⟨k', f', rfl, rfl, rfl, hsettle⟩ | ⟨ts, t, us, t₁, hcs, -⟩ | hsettle
  · exact ⟨_, [], .inr ⟨rfl, rfl, rfl⟩, .cmd (hsettle.trans h) hc, .nil⟩
  · simp at hcs
  rw [hsettle] at h
  cases c with
  | exec argv =>
    cases argv with
    | nil =>
      obtain ⟨rfl, rfl⟩ := Prod.mk.inj h
      cases hs with
      | exit => exact ⟨_, [], .inl (.empty io), .done, .nil⟩
      | child hcs => simp at hcs
    | cons file args =>
      obtain ⟨rfl, rfl⟩ := Prod.mk.inj h
      cases hs with
      | exec => exact ⟨_, [], .inl (.start file args io), .program io, .nil⟩
      | execFailed => exact ⟨_, [], .inl (.noProgram file args io), .say _ rfl, .nil⟩
      | child hcs => simp at hcs
  | redir c file mode fd =>
    obtain ⟨rfl, rfl⟩ := Prod.mk.inj h
    cases hs with
    | openFile hopen =>
      rw [fdalloc_redirect hc.1, Option.some.injEq, Prod.mk.injEq] at hopen
      obtain ⟨rfl, rfl⟩ := hopen
      exact ⟨_, [], .inl (.opens c file mode _ io), .cmd rfl hc.2, .nil⟩
    | openFailed =>
      refine ⟨_, [], .inl (.noFile c file mode fd io), .say _ ?_, .nil⟩
      have hne : 2 ≠ fd := fun heq => by
        have hlt := hc.1
        omega
      exact Function.update_of_ne hne _ _
    | child hcs => simp at hcs
  | list left right =>
    obtain ⟨rfl, rfl⟩ := Prod.mk.inj h
    cases hs with
    | fork => exact ⟨_, [], .inl (.first left right io), .seq io (.cmd rfl hc.1) hc.2, .nil⟩
    | forkFailed => exact ⟨_, [], .inl (.noFirst left right io), .say _ rfl, .nil⟩
    | child hcs => simp at hcs
  | pipe left right =>
    obtain ⟨rfl, rfl⟩ := Prod.mk.inj h
    cases hs with
    | @pipe q _ _ _ _ _ _ _ _ hread hwrite =>
      rw [fdalloc_readEnd, Option.some.injEq, Prod.mk.injEq] at hread
      obtain ⟨rfl, rfl⟩ := hread
      rw [fdalloc_writeEnd, Option.some.injEq, Prod.mk.injEq] at hwrite
      obtain ⟨rfl, rfl⟩ := hwrite
      exact ⟨_, [], .inl (.pipe left right q io), .piping q io hc.1 hc.2, .nil⟩
    | pipeFailed => exact ⟨_, [], .inl (.noPipe left right io), .say _ rfl, .nil⟩
    | child hcs => simp at hcs
  | back c =>
    obtain ⟨rfl, rfl⟩ := Prod.mk.inj h
    cases hs with
    | fork => exact ⟨_, [], .inl (.back c io), .leave _ (.cmd rfl hc), .nil⟩
    | forkFailed => exact ⟨_, [], .inl (.noBack c io), .say _ rfl, .nil⟩
    | child hcs => simp at hcs

theorem eq_of_singleton {ts us : List (Process W)} (h : [t] = ts ++ u :: us) :
    ts = [] ∧ u = t ∧ us = [] := by
  rcases ts with _ | ⟨v, ts⟩
  · obtain ⟨rfl, rfl⟩ := List.cons.inj h
    exact ⟨rfl, rfl, rfl⟩
  · simp at h

theorem eq_of_pair {ts us : List (Process W)} {v : Process W} (h : [t, u] = ts ++ v :: us) :
    (ts = [] ∧ v = t ∧ us = [u]) ∨ (ts = [t] ∧ v = u ∧ us = []) := by
  rcases ts with _ | ⟨w, ts⟩
  · obtain ⟨rfl, rfl⟩ := List.cons.inj h
    exact .inl ⟨rfl, rfl, rfl⟩
  · obtain ⟨rfl, h'⟩ := List.cons.inj h
    obtain ⟨rfl, rfl, rfl⟩ := eq_of_singleton h'
    exact .inr ⟨rfl, rfl, rfl⟩

/-- A child steps. -/
theorem Means.Next.lift (h : Means.Next a l t' new) (A : Job W → Job W)
    (P : Process W → Process W)
    (hA : ∀ {a' bs}, Job.Step a l a' bs → Job.Step (A a) l (A a') bs)
    (hP : ∀ {t' a'}, Means t' a' → Means (P t') (A a')) : Means.Next (A a) l (P t') new := by
  obtain ⟨a', bs, hstep, hmeans, hnew⟩ := h
  refine ⟨A a', bs, ?_, hP hmeans, hnew⟩
  rcases hstep with hstep | ⟨rfl, rfl, rfl⟩
  · exact .inl (hA hstep)
  · exact .inr ⟨rfl, rfl, rfl⟩

/-- **A step of a process is a step of its job, or shows nothing.** -/
theorem Means.step (h : Means t a) : ∀ {l t' new}, Process.Step t l t' new →
    Means.Next a l t' new := by
  induction h with
  | cmd h hc => exact fun {l t' new} hs => Means.step_cmd h hc hs
  | program io =>
    intro l t' new hs
    cases hs with
    | finish => exact ⟨_, [], .inl .finish, .done, .nil⟩
    | child hcs => simp at hcs
  | @say f io m hf =>
    intro l t' new hs
    cases hs with
    | print => exact ⟨_, [], .inl (hf ▸ .say m io), .exiting f, .nil⟩
    | child hcs => simp at hcs
  | @sayLeave f io t a m hf h ih =>
    intro l t' new hs
    cases hs with
    | print => exact ⟨_, [], .inl (hf ▸ .sayLeave m io a), .leave f h, .nil⟩
    | child hcs hstep =>
      obtain ⟨rfl, rfl, rfl⟩ := eq_of_singleton hcs
      exact (ih hstep).lift (.sayLeave m io) (fun t => .node (.print m .exit) f [t])
        (fun hs => .sayLeaving m io hs) (.sayLeave m hf)
  | @leave t a f h ih =>
    intro l t' new hs
    cases hs with
    | exit => exact ⟨_, [a], .inl (.leave a), .done, .cons h .nil⟩
    | child hcs hstep =>
      obtain ⟨rfl, rfl, rfl⟩ := eq_of_singleton hcs
      exact (ih hstep).lift .leave (fun t => .node .exit f [t]) .leaving (.leave f)
  | @seq t a c io h hc ih =>
    intro l t' new hs
    cases hs with
    | reap hcs =>
      obtain ⟨rfl, rfl, rfl⟩ := eq_of_singleton hcs
      obtain rfl := h.zombie
      exact ⟨_, [], .inl (.second c io), .cmd rfl hc, .nil⟩
    | child hcs hstep =>
      obtain ⟨rfl, rfl, rfl⟩ := eq_of_singleton hcs
      exact (ih hstep).lift (.seq · c io) (fun t => .node (.wait (runcmd c)) io.fds [t])
        (fun hs => .seq c io hs) (.seq io · hc)
  | @piping left right q io hl hr =>
    intro l t' new hs
    cases hs with
    | fork =>
      exact ⟨_, [], .inl (.left q left right io), .piped q io (.cmd (settle_left _ q io) hl) hr,
        .nil⟩
    | forkFailed => exact ⟨_, [], .inl (.noLeft q left right io), .say _ rfl, .nil⟩
    | child hcs => simp at hcs
  | @piped right t a q io h hr ih =>
    intro l t' new hs
    cases hs with
    | fork =>
      exact ⟨_, [], .inl (.right a q right io),
        .par (settle_parent q io) h (.cmd (settle_right _ q io) hr), .nil⟩
    | forkFailed => exact ⟨_, [], .inl (.noRight a q right io), .sayLeave _ rfl h, .nil⟩
    | child hcs hstep =>
      obtain ⟨rfl, rfl, rfl⟩ := eq_of_singleton hcs
      exact (ih hstep).lift (.piped · q right io)
        (fun t => .node (pipeRight (runcmd right) 3 4) (pipeFds q io) [t])
        (fun hs => .piped q right io hs) (.piped q io · hr)
  | @par k f io t u a b h ht hu iht ihu =>
    intro l t' new hs
    have hchild : ∀ {k f ts v us v'}, settle k f = (.wait (.wait .exit), io.fds) →
        [t, u] = ts ++ v :: us → Process.Step v l v' new →
          Means.Next (.par a b) l (.node k f (ts ++ v' :: us)) new := by
      intro k f ts v us v' h hcs hstep
      rcases eq_of_pair hcs with ⟨rfl, rfl, rfl⟩ | ⟨rfl, rfl, rfl⟩
      · exact (iht hstep).lift (.par · b) (fun t => .node k f [t, u]) (fun hs => .parLeft b hs)
          (.par h · hu)
      · exact (ihu hstep).lift (.par a ·) (fun u => .node k f [t, u]) (fun hs => .parRight a hs)
          (.par h ht ·)
    rcases hs.settle_cases with ⟨k', f', rfl, rfl, rfl, hsettle⟩ |
      ⟨ts, v, us, v', hcs, rfl, hstep⟩ | hsettle
    · exact ⟨_, [], .inr ⟨rfl, rfl, rfl⟩, .par (hsettle.trans h) ht hu, .nil⟩
    · exact hchild h hcs hstep
    · rw [hsettle] at h
      obtain ⟨rfl, rfl⟩ := Prod.mk.inj h
      cases hs with
      | reap hcs =>
        rcases eq_of_pair hcs with ⟨rfl, rfl, rfl⟩ | ⟨rfl, rfl, rfl⟩
        · obtain rfl := ht.zombie
          exact ⟨_, [], .inr ⟨rfl, rfl, rfl⟩, .parLeft io hu, .nil⟩
        · obtain rfl := hu.zombie
          exact ⟨_, [], .inr ⟨rfl, rfl, rfl⟩, .parRight io ht, .nil⟩
      | child hcs hstep => exact hchild rfl hcs hstep
  | @parLeft u b io hu ih =>
    intro l t' new hs
    cases hs with
    | reap hcs =>
      obtain ⟨rfl, rfl, rfl⟩ := eq_of_singleton hcs
      obtain rfl := hu.zombie
      exact ⟨_, [], .inl .both, .exiting _, .nil⟩
    | child hcs hstep =>
      obtain ⟨rfl, rfl, rfl⟩ := eq_of_singleton hcs
      exact (ih hstep).lift (.par .done ·) (fun u => .node (.wait .exit) io.fds [u])
        (fun hs => .parRight .done hs) (.parLeft io)
  | @parRight t a io ht ih =>
    intro l t' new hs
    cases hs with
    | reap hcs =>
      obtain ⟨rfl, rfl, rfl⟩ := eq_of_singleton hcs
      obtain rfl := ht.zombie
      exact ⟨_, [], .inl .both, .exiting _, .nil⟩
    | child hcs hstep =>
      obtain ⟨rfl, rfl, rfl⟩ := eq_of_singleton hcs
      exact (ih hstep).lift (.par · .done) (fun t => .node (.wait .exit) io.fds [t])
        (fun hs => .parLeft .done hs) (.parRight io)
  | exiting f =>
    intro l t' new hs
    cases hs with
    | exit => exact ⟨_, [], .inr ⟨rfl, rfl, rfl⟩, .done, .nil⟩
    | child hcs => simp at hcs
  | done => exact fun {l t' new} hs => by cases hs

end Steps

/-! ### Runs -/

section Runs

variable {c : Cmd W} {io : Io W} {es : List (Event W)} {ts : List (Process W)}

/-- **Every run of a command is a run of what it means**, with the same programs on the same files,
and the same messages. -/
theorem runs_job (hc : c.Std) (h : Runs (Pool Process.Step) [.node (runcmd c) io.fds []] es ts) :
    ∃ js, Runs (Pool Job.Step) [.cmd c io] es js ∧ List.Forall₂ Means ts js := by
  refine h.simulates (R := List.Forall₂ Means) (fun hR hs => ?_) (.cons (.cmd rfl hc) .nil)
  exact hs.simulates (fun h hs => h.step hs) hR

/-- The commands that lines stand for. -/
theorem Cmd.Valid.std : ∀ {t : Tree}, t.Valid → t.Std
  | .exec _, _ => trivial
  | .redir _ _ _ _, h => by
    refine ⟨?_, h.1.std⟩
    rcases h.2.2 with ⟨-, rfl⟩ | ⟨-, rfl⟩
    · exact Nat.zero_lt_two
    · exact Nat.one_lt_two
  | .pipe _ _, h => ⟨h.1.std, h.2.std⟩
  | .list _ _, h => ⟨h.1.std, h.2.std⟩
  | .back t, h => Cmd.Valid.std (t := t) h

/-- The process waits, runs a program, or makes a pipe. -/
def Code.Rests : Code W → Prop
  | .wait _ | .program | .pipe _ _ => True
  | _ => False

/-- A process that rests has its three files, and no other descriptor. -/
inductive Process.Tidy : Process W → Prop
  | zombie : Tidy .zombie
  | node {k : Code W} {f : Fds W} {cs : List (Process W)} (h : k.Rests → ∃ io : Io W, f = io.fds)
      (hcs : ∀ t ∈ cs, Tidy t) : Tidy (.node k f cs)

theorem settle_rests (c : Cmd W) (f : Fds W) (h : (settle (runcmd c) f).1.Rests) :
    (settle (runcmd c) f).2 = f := by
  cases c with
  | exec argv =>
    cases argv with
    | nil => exact h.elim
    | cons file args => exact h.elim
  | redir c file mode fd => exact h.elim
  | pipe left right => rfl
  | list left right => exact h.elim
  | back c => exact h.elim

theorem Code.Rests.settle {k : Code W} (h : k.Rests) (f : Fds W) : settle k f = (k, f) := by
  cases k with
  | wait k => rfl
  | program => rfl
  | pipe ok failed => rfl
  | _ => exact h.elim

theorem Means.tidy {t : Process W} {a : Job W} (h : Means t a) : t.Tidy := by
  induction h with
  | @cmd k f c io h hc =>
    refine .node (fun hk => ⟨io, ?_⟩) nofun
    rw [hk.settle] at h
    have hrests := settle_rests c io.fds (h ▸ hk)
    rw [← h] at hrests
    exact hrests
  | program io => exact .node (fun _ => ⟨io, rfl⟩) nofun
  | say m hf => exact .node (fun hk => hk.elim) nofun
  | sayLeave m hf h ih => exact .node (fun hk => hk.elim) (List.forall_mem_singleton.mpr ih)
  | leave f h ih => exact .node (fun hk => hk.elim) (List.forall_mem_singleton.mpr ih)
  | seq io h hc ih => exact .node (fun _ => ⟨io, rfl⟩) (List.forall_mem_singleton.mpr ih)
  | piping q io hl hr => exact .node (fun hk => hk.elim) nofun
  | piped q io h hr ih => exact .node (fun hk => hk.elim) (List.forall_mem_singleton.mpr ih)
  | @par k f io t u a b h ht hu iht ihu =>
    refine .node (fun hk => ⟨io, ?_⟩) (List.forall_mem_cons.mpr ⟨iht,
      List.forall_mem_singleton.mpr ihu⟩)
    rw [hk.settle] at h
    exact (Prod.mk.inj h).2
  | parLeft io hu ih => exact .node (fun _ => ⟨io, rfl⟩) (List.forall_mem_singleton.mpr ih)
  | parRight io ht ih => exact .node (fun _ => ⟨io, rfl⟩) (List.forall_mem_singleton.mpr ih)
  | exiting f => exact .node (fun hk => hk.elim) nofun
  | done => exact .zombie

theorem tidy_of_means {ts : List (Process W)} {js : List (Job W)} (h : List.Forall₂ Means ts js) :
    ∀ t ∈ ts, t.Tidy := by
  induction h with
  | nil => exact nofun
  | cons h _ ih => exact List.forall_mem_cons.mpr ⟨h.tidy, ih⟩

/-- What `parsecmd` returns for a line that stands for a command, with its strings as `nulterminate`
ends them. -/
theorem parsecmd_tree {text : List UInt8} (hzero : 0 ∉ text) {t : Tree}
    (ht : IsLine (lex text) t) :
    ∃ cmd buf, parsecmd text = .ok (cmd, buf) ∧ (cmd.map fun w => cstring buf w.1) = t := by
  obtain ⟨cmd, s', htree, hmap⟩ := exists_of_wp (complete_parsetree hzero ht)
  rcases parsecmd_cases hzero with ⟨msg, -, herr⟩ | ⟨cmd', buf, s'', hok, htree', -, hwords, hend⟩
  · rw [htree] at herr
    cases herr
  · rw [htree] at htree'
    cases htree'
    refine ⟨cmd, buf, hok, ?_⟩
    have hstrings := (hwords.and hend.all).imp (Q := fun w => cstring buf w.1 = textOf text w)
      fun w hw => hend.terminated.cstring_eq hw.1 hw.2
    rw [Cmd.map_congr hstrings, hmap]

/-- **The shell does what its lines say.**  The command that is read from a line is run as what the
line stands for: every run of its processes, in any order and whichever calls fail, is a run of its
job.  No process that waits or runs a program holds a descriptor of a pipe but as one of its three
files. -/
theorem runcmd_means (text : List UInt8) (hzero : 0 ∉ text) (t : Tree)
    (ht : IsLine (lex text) t) :
    ∃ cmd buf, parsecmd text = .ok (cmd, buf) ∧ ∀ (io : Io (List UInt8)) es ts,
      Runs (Pool Process.Step) [.node (runcmd (cmd.map fun w => cstring buf w.1)) io.fds []] es ts →
        (∃ js, Runs (Pool Job.Step) [.cmd t io] es js ∧ List.Forall₂ Means ts js) ∧
          ∀ p ∈ ts, p.Tidy := by
  obtain ⟨cmd, buf, hok, rfl⟩ := parsecmd_tree hzero ht
  refine ⟨cmd, buf, hok, fun io es ts h => ?_⟩
  obtain ⟨js, hruns, hmeans⟩ := runs_job (ht.valid (valid_of_mem_lex text hzero)).std h
  exact ⟨⟨js, hruns, hmeans⟩, tidy_of_means hmeans⟩

/-- The first call of a pipe. -/
theorem runcmd_means_pipe : ∃ js, Runs (Pool Job.Step)
    [.cmd (.pipe (.exec [str "a"]) (.exec [str "b"])) ⟨.given 0, .given 1, .given 2⟩] [.pipe 7]
      js := by
  have hlex : lex (str "a|b") = [.word (str "a"), .sym '|'.toUInt8, .word (str "b")] := by
    decide +kernel
  have hline : IsLine (lex (str "a|b")) (.pipe (.exec [str "a"]) (.exec [str "b"])) := by
    rw [hlex]
    exact .last 0 (.pipe (.exec .nil (.cons .nil .nil) (by decide))
      (.last (.exec .nil (.cons .nil .nil) (by decide))))
  obtain ⟨cmd, buf, hok, h⟩ := runcmd_means (str "a|b") (by decide +kernel) _ hline
  have hparse : parsecmd (str "a|b") =
      .ok (.pipe (.exec [(0, 1)]) (.exec [(2, 3)]), [97, 0, 98, 0]) := by
    decide +kernel
  rw [hparse] at hok
  cases hok
  obtain ⟨⟨js, hruns, -⟩, -⟩ := h ⟨.given 0, .given 1, .given 2⟩ [.pipe 7] _
    (.cons (Pool.head [] (Process.Step.pipe (fdalloc_readEnd 7) (fdalloc_writeEnd 7))) (.nil _))
  exact ⟨js, hruns⟩

end Runs

end Shell
end Xv6
