import Xv6.Proc.Lifecycle

/-!
# Whom `kill` kills

`kill` looks for the first slot with the pid it is given, whatever the state of the slot.
Slots that are UNUSED have pid 0, or the pid of a `fork` that failed, and nothing clears
the flag of a slot that is taken into use again.

* `KillLaw` — what `kill` should do: mark a process that is there, or fail.
* `killLaw_iff` — it does so unless the pid is one of UNUSED slots only.
* `Targets` — the kills that find a process that `fork` is through with.
* `fresh_step` — as long as there are no others, a slot that no process uses is not marked.
* `kill_live` — **when `kill` kills processes only, and new processes start unkilled.**
-/

namespace Xv6
namespace Lifecycle

open Machine Table

/-- A slot in use has this pid. -/
def InUse (s : State) (pid : UInt32) : Prop :=
  ∃ q, (s.proc q).state ≠ .unused ∧ (s.proc q).pid = pid

instance (s : State) (pid : UInt32) : Decidable (InUse s pid) :=
  inferInstanceAs (Decidable (∃ q, (s.proc q).state ≠ .unused ∧ (s.proc q).pid = pid))

/-- **What `kill` should do.**  If a slot in use has the pid it returns 0, and a slot with
that pid is marked; if not it returns −1, and changes nothing. -/
structure KillLaw (s : State) (pid : UInt32) : Prop where
  hit : InUse s pid → (kill s pid).2 = .killed pid ∧
    ∃ q, (s.proc q).pid = pid ∧ ((kill s pid).1.proc q).killed = true
  miss : ¬InUse s pid → kill s pid = (s, .quiet)

theorem kill_found {s : State} {pid : UInt32} {q : Slot}
    (h : (find fun q => (s.proc q).pid = pid) = some q) :
    kill s pid = (s.set q { s.proc q with
        killed := true
        state := if (s.proc q).state = .sleeping then .runnable else (s.proc q).state },
      .killed pid) := by
  rw [kill, h]

theorem kill_missed {s : State} {pid : UInt32}
    (h : (find fun q => (s.proc q).pid = pid) = none) : kill s pid = (s, .quiet) := by
  rw [kill, h]

/-- A scan that finds nothing. -/
theorem pid_ne_of_missed {s : State} {pid : UInt32}
    (h : (find fun q => (s.proc q).pid = pid) = none) (q : Slot) : (s.proc q).pid ≠ pid := by
  have hall := List.find?_eq_none.mp h q (List.mem_finRange q)
  simpa using hall

/-- **When one call does so.**  The pid must not be one of UNUSED slots only. -/
theorem killLaw_iff (s : State) (pid : UInt32) :
    KillLaw s pid ↔ ((∃ q, (s.proc q).pid = pid) → InUse s pid) := by
  cases hfind : find fun q => (s.proc q).pid = pid with
  | none =>
    have hmiss := kill_missed hfind
    have hno := pid_ne_of_missed hfind
    refine iff_of_true ⟨?_, fun _ => hmiss⟩ ?_
    · rintro ⟨q, -, hq⟩
      exact absurd hq (hno q)
    · rintro ⟨q, hq⟩
      exact absurd hq (hno q)
  | some q =>
    have hhit := kill_found hfind
    have hq : (s.proc q).pid = pid := of_decide_eq_true (find_spec hfind)
    constructor
    · intro h _
      by_contra huse
      have hret := congrArg Prod.snd (h.miss huse)
      rw [hhit] at hret
      cases hret
    · intro h
      refine ⟨fun _ => ⟨by rw [hhit], q, hq, ?_⟩, fun huse => absurd (h ⟨q, hq⟩) huse⟩
      rw [hhit, State.set_proc, if_pos rfl]

/-! ### New processes -/

/-- The slot that `kill` finds, if any, has a process that `fork` is through with. -/
def Targets (s : State) : Action → Prop
  | .kill _ pid => ∀ q ∈ find fun q => (s.proc q).pid = pid,
      (s.proc q).state ≠ .unused ∧ (s.proc q).state ≠ .embryo
  | _ => True

instance (s : State) : ∀ a, Decidable (Targets s a)
  | .kill _ _ => inferInstanceAs (Decidable (∀ _ ∈ find _, _))
  | .fork _ | .forkNext _ _ | .exit _ | .wait _ | .waitNext _ | .sleep _ _ | .wakeup _ | .yield _
  | .run _ => inferInstanceAs (Decidable True)

/-- A slot that no process uses yet is not marked. -/
def Fresh (s : State) : Prop :=
  ∀ q, (s.proc q).state = .unused ∨ (s.proc q).state = .embryo → (s.proc q).killed = false

theorem fresh_boot : Fresh boot := by
  intro q hq
  simp only [boot, Function.update_apply] at hq ⊢
  grind [Proc.blank]

/-- Nothing but `kill` marks a slot. -/
theorem action_of_killed {s s' : State} {a : Action} {pid : UInt32}
    (h : step s a = some (s', .killed pid)) : ∃ p pid', a = .kill p pid' ∧
      kill s pid' = (s', .killed pid) := by
  cases a with
  | kill p pid' =>
    rw [step, Option.ite_none_right_eq_some, Option.some.injEq] at h
    exact ⟨p, pid', rfl, h.2⟩
  | _ =>
    simp only [step, fork, forkNext, forkFail, exit, wait] at h
    grind

/-- **One step** marks no slot that no process uses, if a `kill` finds no such slot. -/
theorem fresh_step {s s' : State} {a : Action} {e : Event} (htree : Tree s.proc) (hs : Fresh s)
    (ha : Targets s a) (h : step s a = some (s', e)) : Fresh s' := by
  unfold Fresh at hs ⊢
  cases step_move h with
  | sched hpid hsame =>
    unfold Same at hsame
    grind
  | killed q =>
    obtain ⟨p, pid, rfl, hkill⟩ := action_of_killed h
    cases hfind : find fun q => (s.proc q).pid = pid with
    | none =>
      rw [kill_missed hfind, Prod.mk.injEq] at hkill
      exact absurd hkill.2 Event.noConfusion
    | some q' =>
      have htarget := ha q' hfind
      rw [kill_found hfind, Prod.mk.injEq] at hkill
      rw [← hkill.1]
      simp only [State.set_proc]
      grind
  | full p => exact hs
  | failed p q st hpc hst =>
    have hembryo := (htree.embryo p q st hpc).1
    simp only [forkFail, State.set_proc]
    grind
  | exited p hrun hpc hne =>
    intro q
    have hexit := exit_proc s p q
    grind
  | allocated p q hrun hpc hfree =>
    simp only [State.set_proc]
    grind
  | advance p q st st' hpc hst hst' =>
    simp only [State.set_proc]
    grind
  | parent p q hpc =>
    simp only [State.set_proc]
    grind
  | forked p q hpc =>
    simp only [State.set_proc]
    grind
  | reaped p q hrun hq hz hpc =>
    simp only [State.set_proc]
    grind
  | waitFailed p hpc hno =>
    simp only [State.set_proc]
    grind
  | waiting p hrun hpc hk =>
    simp only [State.set_proc]
    grind

/-- The child of a `fork` was being made until now. -/
theorem killed_of_forked {s s' : State} {a : Action} {p q : Slot} {pid : UInt32}
    (htree : Tree s.proc) (hs : Fresh s) (h : step s a = some (s', .forked p q pid)) :
    (s'.proc q).killed = false := by
  cases step_move h with
  | forked _ _ hpc =>
    have hembryo := (htree.embryo p q _ hpc).1
    have hne : q ≠ p := by
      rintro rfl
      have hidle := htree.idle q
      grind
    simp only [State.set_proc, if_neg hne]
    exact hs q (.inr hembryo)

/-- **When `kill` kills processes only**, in every state that a run from boot reaches.  A call
does what it should exactly if the pid is not one of UNUSED slots only; and if every `kill` of
the run that finds a slot finds a process that `fork` is through with, the child of a `fork`
starts unkilled. -/
theorem kill_live (is : List Action) (s : State) (os : List Event)
    (hrun : run step boot is = some (s, os)) :
    (∀ pid, KillLaw s pid ↔ ((∃ q, (s.proc q).pid = pid) → InUse s pid)) ∧
      (AlongRun step Targets boot is → ∀ a s' p q pid,
        step s a = some (s', .forked p q pid) → (s'.proc q).killed = false) := by
  refine ⟨killLaw_iff s, fun htargets a s' p q pid hstep => ?_⟩
  have hinv : Tree s.proc ∧ Fresh s :=
    run_invariant (fun s => Tree s.proc ∧ Fresh s) (P := Targets)
      (fun s a r hs ha hr => ⟨hs.1.move (step_move hr), fresh_step hs.1 hs.2 ha hr⟩)
      is boot (s, os) ⟨inv_boot.tree, fresh_boot⟩ htargets hrun
  exact killed_of_forked hinv.1 hinv.2 hstep

/-- A second process is killed after its `fork`, and does not pass this on to a third. -/
def killedChild : List Action :=
  [.run initproc, .fork initproc, .forkNext initproc true, .forkNext initproc true,
    .forkNext initproc true, .forkNext initproc true, .kill initproc 2, .fork initproc,
    .forkNext initproc true, .forkNext initproc true, .forkNext initproc true]

theorem kill_live_killedChild : ∃ s os, run step boot killedChild = some (s, os) ∧
    .killed 2 ∈ os ∧ ∃ s', step s (.forkNext initproc true) = some (s', .forked initproc 2 3) ∧
      (s'.proc 2).killed = false := by
  have hrun : (run step boot killedChild).map Prod.snd = some
      [.quiet, .allocated initproc 1 2, .quiet, .quiet, .quiet, .forked initproc 1 2, .killed 2,
        .allocated initproc 2 3, .quiet, .quiet, .quiet] := by decide +kernel
  have hlast : (run step boot (killedChild ++ [.forkNext initproc true])).map
      (fun r => r.2.getLast?) = some (some (.forked initproc 2 3)) := by decide +kernel
  obtain ⟨⟨s, os⟩, hs, rfl⟩ := Option.map_eq_some_iff.mp hrun
  rw [run_append, hs] at hlast
  refine ⟨s, _, hs, by decide, ?_⟩
  cases hstep : step s (.forkNext initproc true) with
  | none => simp [run, hstep] at hlast
  | some r =>
    have he : r.2 = .forked initproc 2 3 := by simpa [run, hstep] using hlast
    rw [← he]
    refine ⟨r.1, rfl, (kill_live _ s _ hs).2 (by decide +kernel) (.forkNext initproc true) r.1
      initproc 2 3 ?_⟩
    rw [hstep, ← he]

/-- Init kills the process 0 and forks. -/
def killedZero : List Action :=
  [.run initproc, .kill initproc 0, .fork initproc, .forkNext initproc true,
    .forkNext initproc true, .forkNext initproc true]

/-- No process has the pid 0, but `kill` marks the first UNUSED slot, and the child that gets
this slot is killed before it has run. -/
theorem not_kill_live :
    (¬∀ is s os, run step boot is = some (s, os) → ∀ pid, KillLaw s pid) ∧
      ¬∀ is s os, run step boot is = some (s, os) →
        ∀ a s' p q pid, step s a = some (s', .forked p q pid) → (s'.proc q).killed = false := by
  constructor
  · intro hlaw
    have hmiss := (hlaw [] boot [] rfl 0).miss (by decide +kernel)
    have hret : (kill boot 0).2 = .killed 0 := by decide +kernel
    rw [hmiss] at hret
    cases hret
  · intro hfork
    have hrun : ((run step boot killedZero).bind fun r => step r.1 (.forkNext initproc true)).map
        (fun r => (r.2, (r.1.proc 1).killed)) = some (.forked initproc 1 2, true) := by
      decide +kernel
    obtain ⟨⟨s', e⟩, hstep, hlast⟩ := Option.map_eq_some_iff.mp hrun
    obtain ⟨⟨s, os⟩, hs, hstep⟩ := Option.bind_eq_some_iff.mp hstep
    rw [Prod.mk.injEq] at hlast
    obtain ⟨rfl, hkilled⟩ := hlast
    have hno := hfork killedZero s os hs _ s' initproc 1 2 hstep
    rw [hkilled] at hno
    cases hno

end Lifecycle
end Xv6
