import Xv6.User.ShellRun

/-!
# What a command starts

The programs of a command are each started once, with their files, and then everything ends.

## Main definitions

* `Cmd.Starts` — the programs of a command, with their files.
* `Job.Starts` — the programs that a job may start, and those that it must start if nothing fails.
* `Code.size`, `Process.size` — the calls that are left.

## Main results

* `Job.Step.starts` — what a step starts and what may be started then, may be started before it.
* `Process.Step.size_lt`, `Process.progress` — every call leaves fewer, and one can be made.
* `runcmd_starts` — **each program is started at most once, and exactly once if every process has
  exited and nothing was printed**, as they do in the end.
-/

namespace Xv6
namespace Shell

open Labelled

variable {W : Type}

/-- A program, with its files. -/
abbrev Start (W : Type) := List W × Fds W

/-- The programs that a step starts. -/
def started : Option (Event W) → Multiset (Start W)
  | some (.start argv f) => {(argv, f)}
  | _ => 0

/-- The programs that are started. -/
def allStarted (es : List (Event W)) : Multiset (Start W) := (es.map fun e => started (some e)).sum

/-- **The programs of a command, with their files.**  The pipes are any. -/
inductive Cmd.Starts : Cmd W → Io W → Multiset (Start W) → Prop
  | empty (io : Io W) : Starts (.exec []) io 0
  | exec (file : W) (args : List W) (io : Io W) :
      Starts (.exec (file :: args)) io {(file :: args, io.fds)}
  | redir {c : Cmd W} {file : W} {mode fd : ℕ} {io : Io W} {M : Multiset (Start W)}
      (h : Starts c (io.redirect fd (.opened file mode)) M) : Starts (.redir c file mode fd) io M
  | list {left right : Cmd W} {io : Io W} {M N : Multiset (Start W)} (hl : Starts left io M)
      (hr : Starts right io N) : Starts (.list left right) io (M + N)
  | pipe {left right : Cmd W} {io : Io W} {M N : Multiset (Start W)} (q : ℕ)
      (hl : Starts left (io.redirect 1 (.writeEnd q)) M)
      (hr : Starts right (io.redirect 0 (.readEnd q)) N) : Starts (.pipe left right) io (M + N)
  | back {c : Cmd W} {io : Io W} {M : Multiset (Start W)} (h : Starts c io M) :
      Starts (.back c) io M

/-- Programs that a job may still start.  If `all` holds, then nothing fails, and it starts them
all. -/
inductive Job.Starts (all : Prop) : Job W → Multiset (Start W) → Prop
  | cmd {c : Cmd W} {io : Io W} {M N : Multiset (Start W)} (h : c.Starts io N) (hle : M ≤ N)
      (hall : all → M = N) : Starts all (.cmd c io) M
  | program : Starts all .program 0
  | say (m : Msg W) (io : Io W) (hnot : ¬all) : Starts all (.say m io) 0
  | sayLeave {a : Job W} {M : Multiset (Start W)} (m : Msg W) (io : Io W) (hnot : ¬all)
      (h : Starts all a M) : Starts all (.sayLeave m io a) M
  | leave {a : Job W} {M : Multiset (Start W)} (h : Starts all a M) : Starts all (.leave a) M
  | seq {a : Job W} {c : Cmd W} {io : Io W} {M N : Multiset (Start W)} (h : Starts all a M)
      (hc : Starts all (.cmd c io) N) : Starts all (.seq a c io) (M + N)
  | piping {left right : Cmd W} {io : Io W} {M N : Multiset (Start W)} (q : ℕ)
      (hl : Starts all (.cmd left (io.redirect 1 (.writeEnd q))) M)
      (hr : Starts all (.cmd right (io.redirect 0 (.readEnd q))) N) :
      Starts all (.piping q left right io) (M + N)
  | piped {a : Job W} {right : Cmd W} {io : Io W} {M N : Multiset (Start W)} (q : ℕ)
      (h : Starts all a M) (hr : Starts all (.cmd right (io.redirect 0 (.readEnd q))) N) :
      Starts all (.piped a q right io) (M + N)
  | par {a b : Job W} {M N : Multiset (Start W)} (ha : Starts all a M) (hb : Starts all b N) :
      Starts all (.par a b) (M + N)
  | done : Starts all .done 0

/-- The programs of jobs side by side. -/
def Job.AllStart (all : Prop) (as : List (Job W)) (M : Multiset (Start W)) : Prop :=
  ∃ Ms, List.Forall₂ (Job.Starts all) as Ms ∧ Ms.sum = M

/-- A message. -/
def Event.IsSay : Event W → Prop
  | .say _ _ => True
  | _ => False

section Starts

variable {all : Prop} {c : Cmd W} {io : Io W} {a a' : Job W} {as bs : List (Job W)}
  {l : Option (Event W)} {M N : Multiset (Start W)}

theorem Cmd.exists_starts : ∀ (c : Cmd W) (io : Io W), ∃ M, c.Starts io M
  | .exec [], io => ⟨0, .empty io⟩
  | .exec (file :: args), io => ⟨_, .exec file args io⟩
  | .redir c file mode fd, io => by
    obtain ⟨M, h⟩ := c.exists_starts (io.redirect fd (.opened file mode))
    exact ⟨M, .redir h⟩
  | .list left right, io => by
    obtain ⟨M, hl⟩ := left.exists_starts io
    obtain ⟨N, hr⟩ := right.exists_starts io
    exact ⟨M + N, .list hl hr⟩
  | .pipe left right, io => by
    obtain ⟨M, hl⟩ := left.exists_starts (io.redirect 1 (.writeEnd 0))
    obtain ⟨N, hr⟩ := right.exists_starts (io.redirect 0 (.readEnd 0))
    exact ⟨M + N, .pipe 0 hl hr⟩
  | .back c, io => by
    obtain ⟨M, h⟩ := c.exists_starts io
    exact ⟨M, .back h⟩

/-- After a failure there may be nothing to start. -/
theorem Job.Starts.cmd_zero (hnot : ¬all) (c : Cmd W) (io : Io W) : Starts all (.cmd c io) 0 := by
  obtain ⟨M, h⟩ := c.exists_starts io
  exact .cmd h (Multiset.zero_le M) fun hall => (hnot hall).elim

theorem Job.starts_zero (hnot : ¬all) : ∀ a : Job W, a.Starts all 0
  | .cmd c io => .cmd_zero hnot c io
  | .program => .program
  | .say m io => .say m io hnot
  | .sayLeave m io a => .sayLeave m io hnot (a.starts_zero hnot)
  | .leave a => .leave (a.starts_zero hnot)
  | .seq a c _ => .seq (M := 0) (N := 0) (a.starts_zero hnot) (.cmd_zero hnot c _)
  | .piping q left right _ =>
    .piping (M := 0) (N := 0) q (.cmd_zero hnot left _) (.cmd_zero hnot right _)
  | .piped a q right _ =>
    .piped (M := 0) (N := 0) q (a.starts_zero hnot) (.cmd_zero hnot right _)
  | .par a b => .par (M := 0) (N := 0) (a.starts_zero hnot) (b.starts_zero hnot)
  | .done => .done

theorem Job.Starts.of_eq (h : a.Starts all M) (heq : M = N) : a.Starts all N := heq ▸ h

theorem Job.AllStart.nil (h : AllStart all ([] : List (Job W)) M) : M = 0 := by
  obtain ⟨_, (_ | _), rfl⟩ := h
  rfl

/-- Nothing is started. -/
theorem Job.Starts.silent (h : a.Starts all M) (hN : AllStart all [] N) :
    a.Starts all (started none + M + N) := by
  rw [hN.nil, add_zero]
  exact h.of_eq (zero_add M).symm

/-- What was started by a step, and what may be started then, may be started before it. -/
theorem Job.Step.starts (h : Job.Step a l a' bs) :
    (all → ∀ e ∈ l, ¬e.IsSay) → ∀ {M N}, a'.Starts all M → AllStart all bs N →
      a.Starts all (started l + M + N) := by
  induction h with
  | empty io =>
    intro _ M N h hN
    cases h
    exact (Starts.cmd (.empty io) le_rfl fun _ => rfl).silent hN
  | start file args io =>
    intro _ M N h hN
    cases h
    rw [hN.nil]
    exact .cmd (.exec file args io) le_rfl fun _ => rfl
  | finish =>
    intro _ M N h hN
    cases h
    rw [hN.nil]
    exact .program
  | opens c file mode fd io =>
    intro _ M N h hN
    cases h with
    | cmd h hle hall =>
      rw [hN.nil]
      exact .cmd (.redir h) (by simpa [started] using hle) fun h => by simpa [started] using hall h
  | first left right io =>
    intro _ M N h hN
    cases h with
    | seq h hc =>
      cases h with
      | cmd h hle hall =>
        cases hc with
        | cmd h' hle' hall' =>
          refine (Starts.cmd (.list h h') (add_le_add hle hle') fun h => ?_).silent hN
          rw [hall h, hall' h]
  | second c io =>
    intro _ M N h hN
    exact ((Starts.seq .done h).of_eq (zero_add M)).silent hN
  | noProgram | noFile | noFirst | noPipe | noBack =>
    intro _ M N h hN
    cases h with
    | say _ _ hnot => exact (Starts.cmd_zero hnot _ _).silent hN
  | seq c io h ih =>
    intro hsay M N h hN
    cases h with
    | seq h hc => exact (Starts.seq (ih hsay h hN) hc).of_eq (by abel)
  | pipe left right q io =>
    intro _ M N h hN
    cases h with
    | piping q h hc =>
      cases h with
      | cmd h hle hall =>
        cases hc with
        | cmd h' hle' hall' =>
          refine (Starts.cmd (.pipe q h h') (add_le_add hle hle') fun h => ?_).silent hN
          rw [hall h, hall' h]
  | left q left right io =>
    intro _ M N h hN
    cases h with
    | piped q h hr => exact (Starts.piping q h hr).silent hN
  | noLeft q left right io =>
    intro _ M N h hN
    cases h with
    | say m io hnot =>
      exact (Starts.piping (M := 0) (N := 0) q (.cmd_zero hnot left _)
        (.cmd_zero hnot right _)).silent hN
  | piped q c io h ih =>
    intro hsay M N h hN
    cases h with
    | piped q h hr => exact (Starts.piped q (ih hsay h hN) hr).of_eq (by abel)
  | right a q c io =>
    intro _ M N h hN
    cases h with
    | par ha hb => exact (Starts.piped q ha hb).silent hN
  | noRight a q c io =>
    intro _ M N h hN
    cases h with
    | sayLeave m io hnot h =>
      exact ((Starts.piped q h (.cmd_zero hnot c _)).of_eq (add_zero M)).silent hN
  | parLeft b h ih =>
    intro hsay M N h hN
    cases h with
    | par ha hb => exact (Starts.par (ih hsay ha hN) hb).of_eq (by abel)
  | parRight a h ih =>
    intro hsay M N h hN
    cases h with
    | par ha hb => exact (Starts.par ha (ih hsay hb hN)).of_eq (by abel)
  | both =>
    intro _ M N h hN
    cases h
    exact (Starts.par (M := 0) (N := 0) .done .done).silent hN
  | back c io =>
    intro _ M N h hN
    cases h with
    | leave h =>
      cases h with
      | cmd h hle hall => exact (Starts.cmd (.back h) hle hall).silent hN
  | leaving h ih =>
    intro hsay M N h hN
    cases h with
    | leave h => exact .leave (ih hsay h hN)
  | leave a =>
    intro _ M N h hN
    cases h
    obtain ⟨_, _ | ⟨h, _ | _⟩, rfl⟩ := hN
    exact (Starts.leave h).of_eq (by simp [started])
  | say m io =>
    intro hsay M N h hN
    cases h
    rw [hN.nil]
    exact .say m io fun hall => hsay hall _ rfl trivial
  | sayLeaving m io h ih =>
    intro hsay M N h hN
    cases h with
    | sayLeave m io hnot h => exact .sayLeave m io hnot (ih hsay h hN)
  | sayLeave m io a =>
    intro hsay M N h hN
    rw [hN.nil]
    cases h with
    | leave h =>
      exact (Starts.sayLeave m io (fun hall => hsay hall _ rfl trivial) h).of_eq
        (by simp [started])

theorem Job.Starts.cons (ha : a.Starts all M) (h : AllStart all as N) :
    AllStart all (a :: as) (M + N) := by
  obtain ⟨Ms, hMs, rfl⟩ := h
  exact ⟨M :: Ms, .cons ha hMs, List.sum_cons⟩

theorem Job.AllStart.of_cons (h : AllStart all (a :: as) M) :
    ∃ N P, a.Starts all N ∧ AllStart all as P ∧ M = N + P := by
  obtain ⟨_, hMs, rfl⟩ := h
  cases hMs with
  | cons ha h => exact ⟨_, _, ha, ⟨_, h, rfl⟩, List.sum_cons⟩

/-- The jobs of a pool, and others. -/
theorem Job.AllStart.of_append (h : AllStart all (as ++ bs) M) :
    ∃ N P, AllStart all as N ∧ AllStart all bs P ∧ M = N + P := by
  induction as generalizing M with
  | nil => exact ⟨0, M, ⟨[], .nil, rfl⟩, h, (zero_add M).symm⟩
  | cons a as ih =>
    obtain ⟨N, M', ha, h', rfl⟩ := h.of_cons
    obtain ⟨N', P, has, hbs, rfl⟩ := ih h'
    exact ⟨N + N', P, ha.cons has, hbs, (add_assoc N N' P).symm⟩

theorem Job.allStart_step {as' : List (Job W)} (h : Pool Job.Step as l as')
    (hsay : all → ∀ e ∈ l, ¬e.IsSay) : ∀ {M}, AllStart all as' M →
      AllStart all as (started l + M) := by
  induction h with
  | head xs hs =>
    intro M hM
    obtain ⟨N, P, hN, hP, rfl⟩ := hM.of_append
    obtain ⟨N, N', hx, hxs, rfl⟩ := hN.of_cons
    have hstart := (hs.starts hsay hx hP).cons hxs
    have heq : ∀ L : Multiset (Start W), L + N + P + N' = L + (N + N' + P) := fun L => by abel
    exact heq _ ▸ hstart
  | tail x h ih =>
    intro M hM
    obtain ⟨N, P, hx, hxs, rfl⟩ := hM.of_cons
    have hstart := hx.cons (ih hsay hxs)
    rw [add_left_comm] at hstart
    exact hstart

theorem Job.allStart_runs {as' : List (Job W)} {es : List (Event W)}
    (h : Runs (Pool Job.Step) as es as') :
    (all → ∀ e ∈ es, ¬e.IsSay) → AllStart all as' M → AllStart all as (allStarted es + M) := by
  induction h with
  | nil s => exact fun _ hM => (zero_add M).symm ▸ hM
  | @cons s s' s'' l es hs _ ih =>
    intro hsay hM
    have hrest := ih (fun hall e he => hsay hall e (List.mem_append_right _ he)) hM
    have hstep := Job.allStart_step hs (fun hall e he => hsay hall e (List.mem_append_left _
      (Option.mem_toList.mpr he))) hrest
    have heq : allStarted (l.toList ++ es) = started l + allStarted es := by
      cases l with
      | none => exact (zero_add _).symm
      | some e => rfl
    rw [heq, add_assoc]
    exact hstep

/-- At the end of a run. -/
theorem Job.allStart_end {ts : List (Process W)} (h : List.Forall₂ Means ts as)
    (hend : all → ∀ t ∈ ts, t = .zombie) : AllStart all as 0 := by
  induction h with
  | nil => exact ⟨[], .nil, rfl⟩
  | @cons t a ts as hmeans _ ih =>
    have ha : a.Starts all 0 := by
      by_cases hall : all
      · obtain rfl := hend hall t List.mem_cons_self
        rw [hmeans.zombie]
        exact .done
      · exact a.starts_zero hall
    exact ha.cons (ih fun hall t ht => hend hall t (List.mem_cons_of_mem _ ht))

end Starts

/-! ### The end -/

/-- The calls that are left, where a pipe is at 3 and 4. -/
def Code.size : Code W → ℕ
  | .close _ k | .dup _ k | .wait k | .print _ k => k.size + 1
  | .openFile _ _ ok failed => ok.size + failed.size + 1
  | .pipe ok failed => (ok 3 4).size + failed.size + 1
  | .fork child parent failed => child.size + parent.size + failed.size + 1
  | .exec _ failed => failed.size + 2
  | .program | .exit => 1

def Process.size : Process W → ℕ
  | .zombie => 0
  | .node k _ cs => k.size + (cs.map size).sum

section Ends

variable {t t' : Process W} {l : Option (Event W)} {new : List (Process W)}

theorem Process.Tidy.of_mem {k : Code W} {f : Fds W} {cs ts us : List (Process W)}
    (h : (Process.node k f cs).Tidy) (hcs : cs = ts ++ t :: us) : t.Tidy := by
  cases h with
  | node _ hall => exact hall t (hcs ▸ List.mem_append_right ts List.mem_cons_self)

theorem Process.size_append (ts us : List (Process W)) : ((ts ++ us).map size).sum =
    (ts.map size).sum + (us.map size).sum := by
  rw [List.map_append, List.sum_append]

theorem Process.size_cons (t : Process W) (us : List (Process W)) : ((t :: us).map size).sum =
    t.size + (us.map size).sum := by
  rw [List.map_cons, List.sum_cons]

/-- Every call leaves fewer. -/
theorem Process.Step.size_lt (h : Process.Step t l t' new) :
    t.Tidy → t'.size + (new.map Process.size).sum < t.size := by
  induction h with
  | pipe hread hwrite =>
    intro hI
    cases hI with
    | node hrests _ =>
      obtain ⟨io, rfl⟩ := hrests trivial
      rw [fdalloc_readEnd, Option.some.injEq, Prod.mk.injEq] at hread
      obtain ⟨rfl, rfl⟩ := hread
      rw [fdalloc_writeEnd, Option.some.injEq, Prod.mk.injEq] at hwrite
      obtain ⟨rfl, rfl⟩ := hwrite
      simp only [Process.size, Code.size, List.map_nil, List.sum_nil]
      omega
  | fork =>
    intro _
    simp only [Process.size, Code.size, Process.size_append, Process.size_cons, List.map_nil,
      List.sum_nil]
    omega
  | reap hcs =>
    intro _
    simp only [Process.size, Code.size, hcs, Process.size_append, Process.size_cons, List.map_nil,
      List.sum_nil]
    omega
  | child hcs _ ih =>
    intro hI
    have hlt := ih (hI.of_mem hcs)
    simp only [Process.size, hcs, Process.size_append, Process.size_cons]
    omega
  | _ =>
    intro _
    simp only [Process.size, Code.size, List.map_nil, List.sum_nil]
    omega

theorem Process.progress : ∀ t : Process W, t = .zombie ∨ ∃ l t' new, Process.Step t l t' new
  | .zombie => .inl rfl
  | .node k f cs => .inr (by
    cases k with
    | close fd k => exact ⟨_, _, _, .close fd k f cs⟩
    | dup fd k => exact ⟨_, _, _, .dup fd k f cs⟩
    | openFile file mode ok failed => exact ⟨_, _, _, .openFailed file mode ok failed f cs⟩
    | pipe ok failed => exact ⟨_, _, _, .pipeFailed ok failed f cs⟩
    | fork child parent failed => exact ⟨_, _, _, .fork child parent failed f cs⟩
    | wait k =>
      cases cs with
      | nil => exact ⟨_, _, _, .waitNone k f⟩
      | cons t cs =>
        rcases progress t with rfl | ⟨l, t', new, hs⟩
        · exact ⟨_, _, _, .reap (show _ = [] ++ Process.zombie :: cs from rfl)⟩
        · exact ⟨_, _, _, .child (show _ = [] ++ t :: cs from rfl) hs⟩
    | print m k => exact ⟨_, _, _, .print m k f cs⟩
    | exec argv failed => exact ⟨_, _, _, .exec argv failed f cs⟩
    | program => exact ⟨_, _, _, .finish f cs⟩
    | exit => exact ⟨_, _, _, .exit f cs⟩)

/-- No pool is stuck. -/
theorem pool_progress (ts : List (Process W)) :
    (∀ t ∈ ts, t = .zombie) ∨ ∃ l ts', Pool Process.Step ts l ts' := by
  induction ts with
  | nil => exact .inl nofun
  | cons t ts ih =>
    rcases t.progress with rfl | ⟨l, t', new, hs⟩
    · rcases ih with hz | ⟨l, ts', hs⟩
      · exact .inl (List.forall_mem_cons.mpr ⟨rfl, hz⟩)
      · exact .inr ⟨l, _, .tail _ hs⟩
    · exact .inr ⟨l, _, .head ts hs⟩

/-- Every run of a command ends. -/
theorem runcmd_ends {c : Cmd W} (hc : c.Std) (io : Io W) :
    Ends (Pool Process.Step) [.node (runcmd c) io.fds []] := by
  refine Ends.of_decreasing (I := fun ts => ∃ js, List.Forall₂ Means ts js)
    (fun ts => (ts.map Process.size).sum) (fun hI hs => ?_) ⟨_, .cons (.cmd rfl hc) .nil⟩
  obtain ⟨js, hmeans⟩ := hI
  obtain ⟨js', -, hmeans'⟩ := hs.simulates (fun h hs => h.step hs) hmeans
  exact ⟨⟨js', hmeans'⟩, hs.decreases Process.size (fun h hs => hs.size_lt h)
    (tidy_of_means hmeans)⟩

end Ends

/-- **Each program is started once, and then everything ends.**  No run goes on for ever, and none
is stuck before every process has exited.  What is started are programs of the command, each at
most once, and on its files; if every process has exited and nothing was printed, then they were
all started. -/
theorem runcmd_starts {c : Cmd W} (hc : c.Std) (io : Io W) :
    Ends (Pool Process.Step) [.node (runcmd c) io.fds []] ∧
    ∀ (es : List (Event W)) (ts : List (Process W)),
      Runs (Pool Process.Step) [.node (runcmd c) io.fds []] es ts →
        ((∀ t ∈ ts, t = .zombie) ∨ ∃ l ts', Pool Process.Step ts l ts') ∧
        ∃ M, c.Starts io M ∧ allStarted es ≤ M ∧
          ((∀ t ∈ ts, t = .zombie) → (∀ e ∈ es, ¬e.IsSay) → allStarted es = M) := by
  refine ⟨runcmd_ends hc io, fun es ts h => ⟨pool_progress ts, ?_⟩⟩
  obtain ⟨js, hruns, hmeans⟩ := runs_job hc h
  have hend : Job.AllStart ((∀ t ∈ ts, t = .zombie) ∧ ∀ e ∈ es, ¬e.IsSay) js 0 :=
    Job.allStart_end hmeans fun hall => hall.1
  obtain ⟨N, P, hN, hP, heq⟩ := (Job.allStart_runs hruns (fun hall => hall.2) hend).of_cons
  rw [hP.nil, add_zero, add_zero] at heq
  rw [heq]
  cases hN with
  | @cmd _ _ _ M h hle hall => exact ⟨M, h, hle, fun hz hq => hall ⟨hz, hq⟩⟩

/-- A program in the background, which is left behind. -/
theorem runcmd_starts_back : (Cmd.back (.exec ["a"])).Starts ⟨.given 0, .given 1, .given 2⟩
    {(["a"], Io.fds ⟨.given 0, .given 1, .given 2⟩)} := by
  obtain ⟨-, h⟩ := runcmd_starts (c := .back (.exec ["a"])) trivial
    ⟨.given 0, .given 1, .given 2⟩
  have hrun := Runs.cons (Pool.head [] (Process.Step.fork (runcmd (.exec ["a"])) .exit
    (panic "fork") (Io.fds ⟨.given 0, .given 1, .given 2⟩) [])) <|
    .cons (Pool.head [] (Process.Step.exit _ _)) <|
    .cons (Pool.tail _ (Pool.head [] (Process.Step.exec _ _ _ _))) <|
    .cons (Pool.tail _ (Pool.head [] (Process.Step.finish _ _))) (.nil _)
  obtain ⟨-, M, hM, -, heq⟩ := h _ _ hrun
  rw [← heq (by simp) (by simp [Event.IsSay])] at hM
  exact hM

end Shell
end Xv6
