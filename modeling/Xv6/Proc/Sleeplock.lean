import Xv6.Proc.Sleep

/-!
# Sleep locks

`acquiresleep`, `releasesleep` and `holdingsleep` of `sleeplock.c`, on top of `sleep` and `wakeup`,
for any number of processes and locks.  Every statement is a step, and between two statements
any other process may take its own.

A process is identified with its `pid`.

## Main definitions

* `Job`, `State`, `step` — where a process is in these functions, and the steps.
* `Mutex.Step` — what a lock is for.
* `Inv` — what every step keeps.

## Main results

* `drowsy_of_step`, `awake_of_woke` — who may come to sleep, and who no longer does.
* `sleeplocks_are_mutexes` — **sleep locks exclude each other, and none is slept on for nothing**.
-/

namespace Xv6
namespace Sleeplock

open Machine Sleep

variable {P L : Type*}

/-! ### The code -/

/-- `&lk->lk`; the channel is the address of the sleep lock. -/
def spin (l : L) : Lock L := some l

theorem spin_ne_ptable (l : L) : spin l ≠ ptable := Option.some_ne_none l

/-- Where a process is; the next statement is the comment. -/
inductive Job (L : Type*)
  /-- In none of the functions. -/
  | idle
  /-- `while (lk->locked) sleep(lk, &lk->lk);` -/
  | acquiring (l : L)
  /-- `lk->locked = 1; lk->pid = myproc()->pid;` -/
  | found (l : L)
  /-- `lk->locked = 0; lk->pid = 0;` -/
  | releasing (l : L)
  /-- `wakeup(lk);` -/
  | cleared (l : L)
  /-- In `wakeup`, or behind it: `release(&lk->lk);` -/
  | waking (l : L)
  /-- `r = lk->locked && (lk->pid == myproc()->pid);` -/
  | asking (l : L)
  /-- `release(&lk->lk);` -/
  | leaving (l : L)
  deriving DecidableEq

structure State (P L : Type*) where
  sleep : Sleep.State P L L
  locked : L → Bool
  pid : L → Option P
  job : P → Job L

inductive Action (P L : Type*)
  | acquiresleep (p : P) (l : L)
  | releasesleep (p : P) (l : L)
  | holdingsleep (p : P) (l : L)
  /-- The next statement of the function that the process is in. -/
  | next (p : P)
  | schedAcquire
  | schedRelease
  /-- The scheduler switches to a process. -/
  | schedRun (p : P)

inductive Event (P L : Type*)
  | acquired (p : P) (l : L)
  | released (p : P) (l : L)
  | answered (p : P) (l : L) (r : Bool)
  | quiet

section Step

variable [DecidableEq P] [DecidableEq L]

/-- A step that changes locks or the states of processes, and what else it does. -/
def via (s : State P L) (a : Sleep.Action P L L) (f : State P L → State P L) (e : Event P L) :
    Option (State P L × Event P L) :=
  (Sleep.step spin s.sleep a).map fun x => (f { s with sleep := x.1 }, e)

def State.goto (p : P) (j : Job L) (s : State P L) : State P L :=
  { s with job := Function.update s.job p j }

/-- `lk->locked` and `lk->pid` -/
def State.mark (l : L) (b : Bool) (p : Option P) (s : State P L) : State P L :=
  { s with locked := Function.update s.locked l b, pid := Function.update s.pid l p }

/-- The next statement of the process `p`. -/
def next (s : State P L) (p : P) : Job L → Option (State P L × Event P L)
  | .idle => none
  | .acquiring l =>
      if s.sleep.pc p = .code (some (spin l)) then
        if s.locked l then via s (.sleep p l) id .quiet
        else some (s.goto p (.found l), .quiet)
      else via s (.next p) id .quiet
  | .found l => some ((s.mark l true (some p)).goto p (.leaving l), .acquired p l)
  | .releasing l =>
      via s (.make p l) (fun s => (s.mark l false none).goto p (.cleared l)) (.released p l)
  | .cleared l => via s (.wakeup p l) (State.goto p (.waking l)) .quiet
  | .waking l =>
      if s.sleep.pc p = .code (some (spin l)) then via s (.release p) (State.goto p .idle) .quiet
      else via s (.next p) id .quiet
  | .asking l =>
      some (s.goto p (.leaving l), .answered p l (s.locked l && decide (s.pid l = some p)))
  | .leaving _ => via s (.release p) (State.goto p .idle) .quiet

/-- A function is called, whose first statement is `acquire(&lk->lk)`. -/
def call (s : State P L) (p : P) (l : L) (j : Job L) : Option (State P L × Event P L) :=
  if s.job p = .idle then via s (.acquire p (spin l)) (State.goto p j) .quiet else none

/-- A step. -/
def step (s : State P L) : Action P L → Option (State P L × Event P L)
  | .acquiresleep p l => call s p l (.acquiring l)
  | .releasesleep p l => call s p l (.releasing l)
  | .holdingsleep p l => call s p l (.asking l)
  | .next p => next s p (s.job p)
  | .schedAcquire => via s .schedAcquire id .quiet
  | .schedRelease => via s .schedRelease id .quiet
  | .schedRun p => via s (.schedRun p) id .quiet

/-- After `initsleeplock` of all locks. -/
def boot : State P L := ⟨Sleep.boot, fun _ => false, fun _ => none, fun _ => .idle⟩

/-- The process that has the lock. -/
def State.owner (s : State P L) (l : L) : Option P := if s.locked l then s.pid l else none

/-- Only the process that has the lock calls `releasesleep`. -/
def Disciplined (s : State P L) : Action P L → Prop
  | .releasesleep p l => s.owner l = some p
  | _ => True

/-- What locks are for: the processes that have them. -/
inductive Mutex.Step (m : L → Option P) (a : Action P L) : (L → Option P) → Event P L → Prop
  | acquired {p : P} {l : L} (h : m l = none) :
      Step m a (Function.update m l (some p)) (.acquired p l)
  | released {p : P} {l : L} (h : m l = some p) :
      Step m a (Function.update m l none) (.released p l)
  | answered (p : P) (l : L) : Step m a m (.answered p l (decide (m l = some p)))
  | quiet : Step m a m .quiet

end Step

/-! ### Sleeping -/

section Sleeping

variable {C K : Type*} [DecidableEq P] [DecidableEq C] [DecidableEq K] {lk : C → Lock K}
  {s s' : Sleep.State P C K} {a : Sleep.Action P C K} {e : Sleep.Event P C} {p q : P} {c : C}

/-- The process that takes a step. -/
def actor : Sleep.Action P C K → Option P
  | .acquire p _ | .release p | .sleep p _ | .make p _ | .wakeup p _ | .next p | .schedRun p =>
      some p
  | .schedAcquire | .schedRelease => none

/-- What a step does to the processes that do not take it. -/
structure Others (s s' : Sleep.State P C K) (q : P) : Prop where
  pc : s'.pc q = s.pc q
  sleeping : s'.pstate q = .sleeping → s.pstate q = .sleeping

omit [DecidableEq C] [DecidableEq K] in
theorem others_goto {t : Sleep.State P C K} {pc : Pc C K} (hq : some p ≠ some q)
    (h : t.pc = s.pc) (hst : t.pstate q = .sleeping → s.pstate q = .sleeping) :
    Others s (t.goto p pc) q := by
  have hne : q ≠ p := fun heq => hq (by rw [heq])
  exact ⟨(Function.update_of_ne hne _ _).trans (by rw [h]), hst⟩

omit [DecidableEq P] [DecidableEq K] in
theorem sleeping_wake (h : (s.wake c).pstate q = .sleeping) : s.pstate q = .sleeping := by
  dsimp only [State.wake] at h
  split at h
  · contradiction
  · exact h

theorem others_next (h : Sleep.next lk s p (s.pc p) = some (s', e)) (hq : some p ≠ some q) :
    Others s s' q := by
  have hne : q ≠ p := fun heq => hq (by rw [heq])
  cases hpc : s.pc p with
  | code held =>
    rw [hpc, Sleep.next] at h
    contradiction
  | asleep c =>
    rw [hpc, Sleep.next] at h
    contradiction
  | sleep1 c | sleep3 c =>
    rw [hpc, Sleep.next] at h
    cases h
    exact others_goto hq rfl id
  | sleep2 c =>
    rw [hpc, Sleep.next] at h
    cases h
    refine others_goto hq rfl fun hst => ?_
    dsimp only at hst
    rwa [Function.update_of_ne hne] at hst
  | sleep0 c | sleep5 c | wakeup0 c held =>
    rw [hpc, Sleep.next] at h
    split at h
    · cases h
      exact others_goto hq rfl id
    · contradiction
  | sleep4 c =>
    rw [hpc, Sleep.next] at h
    split at h
    · cases h
      exact others_goto hq rfl id
    · cases h
      exact others_goto hq rfl id
  | wakeup1 c held =>
    rw [hpc, Sleep.next] at h
    split at h
    · cases h
      exact others_goto hq rfl sleeping_wake
    · cases h
      exact others_goto hq rfl sleeping_wake

theorem others_step (h : Sleep.step lk s a = some (s', e)) (hq : actor a ≠ some q) :
    Others s s' q := by
  cases a with
  | acquire p l | sleep p c =>
    rw [Sleep.step] at h
    split at h
    · cases h
      exact others_goto hq rfl id
    · contradiction
  | release p | wakeup p c =>
    rw [Sleep.step] at h
    split at h
    · cases h
      exact others_goto hq rfl id
    · contradiction
  | make p c | schedAcquire | schedRelease =>
    rw [Sleep.step] at h
    split at h
    · cases h
      exact ⟨rfl, id⟩
    · contradiction
  | next p => exact others_next h hq
  | schedRun p =>
    rw [Sleep.step] at h
    split at h
    · split at h
      · cases h
        have hne : q ≠ p := fun heq => hq (by rw [heq]; rfl)
        refine others_goto hq rfl fun hst => ?_
        dsimp only at hst
        rwa [Function.update_of_ne hne] at hst
      · contradiction
    · contradiction

omit [DecidableEq P] [DecidableEq K] in
/-- After `wakeup1(c)`, no process sleeps on `c`. -/
theorem not_sleeping_wake (h : (s.wake c).pstate q = .sleeping) : s.chan q ≠ some c := by
  dsimp only [State.wake] at h
  split at h
  · contradiction
  · next hnot => exact fun hc => hnot ⟨h, hc⟩

end Sleeping

/-! ### The invariant -/

/-- Inside `sleep(lk, &lk->lk)`. -/
def InSleep (l : L) : Pc L L → Prop
  | .sleep0 c | .sleep1 c | .sleep2 c | .sleep3 c | .asleep c | .sleep4 c | .sleep5 c => c = l
  | _ => False

/-- Inside `wakeup(lk)`, with `lk->lk` held. -/
def InWakeup (l : L) : Pc L L → Prop
  | .wakeup0 c held | .wakeup1 c held => c = l ∧ held = some (spin l)
  | _ => False

/-- Where a process is in `sleep` and `wakeup`. -/
def Place : Job L → Pc L L → Prop
  | .idle, pc => pc = .code none
  | .acquiring l, pc => pc = .code (some (spin l)) ∨ InSleep l pc
  | .waking l, pc => pc = .code (some (spin l)) ∨ InWakeup l pc
  | .found l, pc | .releasing l, pc | .cleared l, pc | .asking l, pc | .leaving l, pc =>
      pc = .code (some (spin l))

/-- The process will wake up those that sleep on the lock. -/
def Wakes (l : L) (j : Job L) (pc : Pc L L) : Prop :=
  j = .cleared l ∨ (j = .waking l ∧ InWakeup l pc)

/-- The process sleeps on the lock, or is about to. -/
def State.Drowsy (s : State P L) (q : P) (l : L) : Prop :=
  Sleep.Drowsy l (s.sleep.pc q) (s.sleep.pstate q)

/-- **What every step keeps.** -/
structure Inv (s : State P L) : Prop where
  sleep : ∃ os, Sleep.Inv spin s.sleep os
  place : ∀ p, Place (s.job p) (s.sleep.pc p)
  found : ∀ p l, s.job p = .found l → s.locked l = false
  owner : ∀ p l, s.job p = .releasing l → s.owner l = some p
  pid : ∀ l, s.locked l = true → s.pid l ≠ none
  /-- A lock that is slept on is held, or somebody will wake up those that sleep. -/
  drowsy : ∀ p l, s.Drowsy p l →
    s.locked l = true ∨ ∃ q, Wakes l (s.job q) (s.sleep.pc q)

section Invariant

variable {s s' : State P L} {p : P} {l : L} {e : Event P L}

/-- A step that changes no lock. -/
theorem Inv.keep (hs : Inv s) (hsleep : ∃ os, Sleep.Inv spin s'.sleep os)
    (hlocked : s'.locked = s.locked) (hpid : s'.pid = s.pid)
    (hplace : ∀ q, Place (s'.job q) (s'.sleep.pc q))
    (hfound : ∀ q l, s'.job q = .found l → s.job q = .found l ∨ s.locked l = false)
    (howner : ∀ q l, s'.job q = .releasing l → s.job q = .releasing l ∨ s.owner l = some q)
    (hdrowsy : ∀ q l, s'.Drowsy q l → s.Drowsy q l ∨ s.locked l = true)
    (hwakes : ∀ q l, Wakes l (s.job q) (s.sleep.pc q) →
      Wakes l (s'.job q) (s'.sleep.pc q) ∨ ∀ r, ¬s'.Drowsy r l) : Inv s' where
  sleep := hsleep
  place := hplace
  found := fun q l h => by
    rw [hlocked]
    exact (hfound q l h).elim (hs.found q l) id
  owner := fun q l h => by
    rw [State.owner, hlocked, hpid]
    exact (howner q l h).elim (hs.owner q l) id
  pid := fun l => by
    rw [hlocked, hpid]
    exact hs.pid l
  drowsy := fun q l h => by
    rw [hlocked]
    rcases hdrowsy q l h with h' | h'
    · rcases hs.drowsy q l h' with hheld | ⟨r, hr⟩
      · exact .inl hheld
      · exact .inr ⟨r, (hwakes r l hr).resolve_right fun hnone => hnone q h⟩
    · exact .inl h'

variable [DecidableEq P]

/-- A step of the process `p` that changes no lock. -/
theorem Inv.move (hs : Inv s) {j : Job L} (hsleep : ∃ os, Sleep.Inv spin s'.sleep os)
    (hlocked : s'.locked = s.locked) (hpid : s'.pid = s.pid)
    (hothers : ∀ q, some p ≠ some q → Others s.sleep s'.sleep q)
    (hjob : s'.job = Function.update s.job p j) (hplace : Place j (s'.sleep.pc p))
    (hfound : ∀ l, j = .found l → s.job p = .found l ∨ s.locked l = false)
    (howner : ∀ l, j = .releasing l → s.job p = .releasing l ∨ s.owner l = some p)
    (hdrowsy : ∀ l, s'.Drowsy p l → s.Drowsy p l ∨ s.locked l = true)
    (hwakes : ∀ l, Wakes l (s.job p) (s.sleep.pc p) →
      Wakes l j (s'.sleep.pc p) ∨ ∀ r, ¬s'.Drowsy r l) : Inv s' := by
  have hself : s'.job p = j := by rw [hjob, Function.update_self]
  have hother : ∀ q, q ≠ p → s'.job q = s.job q ∧ Others s.sleep s'.sleep q := fun q hq =>
    ⟨by rw [hjob, Function.update_of_ne hq], hothers q fun heq => hq (Option.some.inj heq).symm⟩
  refine hs.keep hsleep hlocked hpid (fun q => ?_) (fun q l h => ?_) (fun q l h => ?_)
    (fun q l h => ?_) (fun q l h => ?_)
  · by_cases hq : q = p
    · rw [hq, hself]
      exact hplace
    · rw [(hother q hq).1, (hother q hq).2.pc]
      exact hs.place q
  · by_cases hq : q = p
    · rw [hq] at h ⊢
      exact hfound l (hself.symm.trans h)
    · exact .inl ((hother q hq).1.symm.trans h)
  · by_cases hq : q = p
    · rw [hq] at h ⊢
      exact howner l (hself.symm.trans h)
    · exact .inl ((hother q hq).1.symm.trans h)
  · by_cases hq : q = p
    · rw [hq] at h ⊢
      exact hdrowsy l h
    · left
      rw [State.Drowsy, Sleep.Drowsy, (hother q hq).2.pc] at h
      exact h.imp id (Or.imp id fun h' => ⟨h'.1, (hother q hq).2.sleeping h'.2⟩)
  · by_cases hq : q = p
    · rw [hq] at h ⊢
      rw [hself]
      exact hwakes l h
    · left
      rw [(hother q hq).1, (hother q hq).2.pc]
      exact h

omit [DecidableEq P] in
/-- A process that is at a statement with `lk->lk` held. -/
theorem Inv.eq_of_place (hs : Inv s) {q : P} (hp : s.sleep.pc p = .code (some (spin l)))
    (hq : s.sleep.pc q = .code (some (spin l))) : p = q := by
  obtain ⟨os, hsleep⟩ := hs.sleep
  exact hsleep.eq_of_holds (l := spin l) (by rw [hp]; rfl) (by rw [hq]; rfl)

variable [DecidableEq L]

/-- A step of the process `p` that changes the lock `l`, with `lk->lk` held. -/
theorem Inv.set (hs : Inv s) {b : Bool} {o : Option P} {j : Job L}
    (hp : s.sleep.pc p = .code (some (spin l))) (hplace : Place j (.code (some (spin l))))
    (hfound : ∀ l, j ≠ .found l) (howner : ∀ l, j ≠ .releasing l) (hpid : b = true → o ≠ none)
    (hdrowsy : b = true ∨ Wakes l j (.code (some (spin l))))
    (hwakes : ∀ l, ¬Wakes l (s.job p) (s.sleep.pc p)) : Inv ((s.mark l b o).goto p j) := by
  have hself : ((s.mark l b o).goto p j).job p = j := Function.update_self _ _ _
  have hother : ∀ q, q ≠ p → ((s.mark l b o).goto p j).job q = s.job q := fun q hq =>
    Function.update_of_ne hq _ _
  have hlocked : ∀ l', l' ≠ l → ((s.mark l b o).goto p j).locked l' = s.locked l' ∧
      ((s.mark l b o).goto p j).pid l' = s.pid l' := fun l' hl =>
    ⟨Function.update_of_ne hl _ _, Function.update_of_ne hl _ _⟩
  -- another process with `lk->lk` held is at another lock
  have hne : ∀ q l', q ≠ p → s.sleep.pc q = .code (some (spin l')) → l' ≠ l := by
    rintro q l' hq hpc rfl
    exact hq (hs.eq_of_place hpc hp)
  refine ⟨hs.sleep, fun q => ?_, fun q l' h => ?_, fun q l' h => ?_, fun l' h => ?_,
    fun q l' h => ?_⟩
  · by_cases hq : q = p
    · rw [hq, hself, show ((s.mark l b o).goto p j).sleep.pc p = _ from hp]
      exact hplace
    · rw [hother q hq]
      exact hs.place q
  · by_cases hq : q = p
    · rw [hq, hself] at h
      exact absurd h (hfound l')
    · rw [hother q hq] at h
      have hpc := hs.place q
      rw [h] at hpc
      rw [(hlocked l' (hne q l' hq hpc)).1]
      exact hs.found q l' h
  · by_cases hq : q = p
    · rw [hq, hself] at h
      exact absurd h (howner l')
    · rw [hother q hq] at h
      have hpc := hs.place q
      rw [h] at hpc
      rw [State.owner, (hlocked l' (hne q l' hq hpc)).1, (hlocked l' (hne q l' hq hpc)).2]
      exact hs.owner q l' h
  · by_cases hl : l' = l
    · have hself : ((s.mark l b o).goto p j).locked l = b ∧
          ((s.mark l b o).goto p j).pid l = o :=
        ⟨Function.update_self _ _ _, Function.update_self _ _ _⟩
      rw [hl, hself.1] at h
      rw [hl, hself.2]
      exact hpid h
    · rw [(hlocked l' hl).1] at h
      rw [(hlocked l' hl).2]
      exact hs.pid l' h
  · by_cases hl : l' = l
    · rw [hl]
      refine hdrowsy.imp (fun hb => ?_) fun hw => ⟨p, ?_⟩
      · rw [← hb]
        exact Function.update_self _ _ _
      · rw [hself, show ((s.mark l b o).goto p j).sleep.pc p = _ from hp]
        exact hw
    · rw [(hlocked l' hl).1]
      refine (hs.drowsy q l' h).imp id ?_
      rintro ⟨r, hr⟩
      have hrp : r ≠ p := by
        rintro rfl
        exact hwakes l' hr
      refine ⟨r, ?_⟩
      rw [hother r hrp]
      exact hr

omit [DecidableEq P] [DecidableEq L] in
/-- A process that runs is not drowsy. -/
theorem not_drowsy_of_code {t : Sleep.State P L L} {held : Option (Lock L)} {c : L}
    (h : t.pc p = .code held) : ¬Sleep.Drowsy c (t.pc p) (t.pstate p) := by
  have hawake : (Pc.code held : Pc L L).Awake := trivial
  rw [h]
  exact hawake.not_drowsy c _

/-- The next statement of `sleep`. -/
theorem next_sleep {t t' : Sleep.State P L L} {e : Sleep.Event P L} (h : InSleep l (t.pc p))
    (hnext : Sleep.next spin t p (t.pc p) = some (t', e)) :
    Place (.acquiring l) (t'.pc p) ∧ ∀ c, Sleep.Drowsy c (t'.pc p) (t'.pstate p) →
      Sleep.Drowsy c (t.pc p) (t.pstate p) := by
  have hself : ∀ (t : Sleep.State P L L) (pc : Pc L L), (t.goto p pc).pc p = pc := fun t pc =>
    Function.update_self _ _ _
  cases hpc : t.pc p with
  | code held =>
    rw [hpc] at h
    exact h.elim
  | wakeup0 c held =>
    rw [hpc] at h
    exact h.elim
  | wakeup1 c held =>
    rw [hpc] at h
    exact h.elim
  | sleep0 c =>
    rw [hpc] at h hnext
    obtain rfl : c = l := h
    rw [Sleep.next] at hnext
    split at hnext
    · cases hnext
      rw [hself]
      refine ⟨.inr rfl, fun c' hd => ?_⟩
      simpa [Sleep.Drowsy, Pc.Tested] using hd
    · contradiction
  | sleep1 c =>
    rw [hpc] at h hnext
    obtain rfl : c = l := h
    cases hnext
    rw [hself]
    refine ⟨.inr rfl, fun c' hd => ?_⟩
    simpa [Sleep.Drowsy, Pc.Tested] using hd
  | sleep2 c =>
    rw [hpc] at h hnext
    obtain rfl : c = l := h
    cases hnext
    rw [hself]
    refine ⟨.inr rfl, fun c' hd => ?_⟩
    simp only [Sleep.Drowsy, Pc.Tested, reduceCtorEq, Pc.sleep3.injEq, false_or, or_false] at hd
    rw [hd.1]
    exact .inr (.inl rfl)
  | sleep3 c =>
    rw [hpc] at h hnext
    obtain rfl : c = l := h
    cases hnext
    rw [hself]
    refine ⟨.inr rfl, fun c' hd => ?_⟩
    simp only [Sleep.Drowsy, Pc.Tested, reduceCtorEq, Pc.asleep.injEq, false_or] at hd
    rw [hd.1]
    exact .inr (.inr ⟨.inl rfl, hd.2⟩)
  | asleep c =>
    rw [hpc, Sleep.next] at hnext
    contradiction
  | sleep4 c =>
    rw [hpc] at h hnext
    obtain rfl : c = l := h
    rw [Sleep.next, if_neg (spin_ne_ptable _)] at hnext
    cases hnext
    rw [hself]
    refine ⟨.inr rfl, fun c' hd => ?_⟩
    simp [Sleep.Drowsy, Pc.Tested] at hd
  | sleep5 c =>
    rw [hpc] at h hnext
    obtain rfl : c = l := h
    rw [Sleep.next] at hnext
    split at hnext
    · cases hnext
      rw [hself]
      refine ⟨.inl rfl, fun c' hd => ?_⟩
      simp [Sleep.Drowsy, Pc.Tested] at hd
    · contradiction

/-- The next statement of `wakeup`: when it is over, no process sleeps on the lock. -/
theorem next_wakeup {t t' : Sleep.State P L L} {os : List (Sleep.Event P L)} {e : Sleep.Event P L}
    (hinv : Sleep.Inv spin t os) (h : InWakeup l (t.pc p))
    (hnext : Sleep.next spin t p (t.pc p) = some (t', e)) :
    (∀ c, ¬Sleep.Drowsy c (t'.pc p) (t'.pstate p)) ∧ (InWakeup l (t'.pc p) ∨
      (t'.pc p = .code (some (spin l)) ∧ ∀ r, ¬Sleep.Drowsy l (t'.pc r) (t'.pstate r))) := by
  have hself : ∀ (t : Sleep.State P L L) (pc : Pc L L), (t.goto p pc).pc p = pc := fun t pc =>
    Function.update_self _ _ _
  have hothers := fun q hq => others_next (q := q) hnext hq
  cases hpc : t.pc p with
  | wakeup0 c held =>
    rw [hpc] at h hnext
    rw [Sleep.next] at hnext
    split at hnext
    · cases hnext
      rw [hself]
      have hawake : (Pc.wakeup1 c held : Pc L L).Awake := trivial
      exact ⟨fun c' => hawake.not_drowsy c' _, .inl h⟩
    · contradiction
  | wakeup1 c held =>
    have hp : ∀ l', l' = spin l ∨ l' = ptable → (t.pc p).Holds spin l' := by
      rw [hpc] at h ⊢
      rintro l' (rfl | rfl)
      · exact .inl h.2
      · exact .inr rfl
    rw [hpc] at h hnext
    obtain ⟨rfl, rfl⟩ := h
    have hspin : some (spin c) ≠ some ptable := fun heq => spin_ne_ptable c (Option.some.inj heq)
    rw [Sleep.next, if_neg hspin] at hnext
    cases hnext
    have hcode := hself ((t.wake c).give ptable none) (.code (some (spin c)))
    refine ⟨fun c' => not_drowsy_of_code hcode, .inr ⟨hcode, fun r hr => ?_⟩⟩
    by_cases hrp : r = p
    · rw [hrp] at hr
      exact not_drowsy_of_code hcode hr
    · have hpcr := (hothers r fun heq => hrp (Option.some.inj heq).symm).pc
      have hno : ∀ l', l' = spin c ∨ l' = ptable → ¬(t.pc r).Holds spin l' := fun l' hl hholds =>
        hrp (hinv.eq_of_holds hholds (hp l' hl))
      rw [hpcr] at hr
      rcases hr with hT | h2 | ⟨h3, hst⟩
      · exact hno _ (.inl rfl) hT.holds
      · exact hno _ (.inr rfl) (by rw [h2]; rfl)
      · obtain ⟨c', hpc', hchan⟩ := hinv.sleeping r (sleeping_wake hst)
        refine not_sleeping_wake hst ?_
        rw [hchan]
        rcases h3 with h3 | h3 <;> rcases hpc' with h4 | h4 <;> rw [h3] at h4 <;> cases h4 <;> rfl
  | code held =>
    rw [hpc] at h
    exact h.elim
  | _ c =>
    rw [hpc] at h
    exact h.elim

/-! ### The steps -/

theorem via_eq_some {s s' : State P L} {a : Sleep.Action P L L} {f : State P L → State P L}
    {e e' : Event P L} : via s a f e = some (s', e') ↔
      ∃ t e₀, Sleep.step spin s.sleep a = some (t, e₀) ∧ s' = f { s with sleep := t } ∧ e' = e := by
  rw [via, Option.map_eq_some_iff]
  constructor
  · rintro ⟨⟨t, e₀⟩, ht, heq⟩
    cases heq
    exact ⟨t, e₀, ht, rfl, rfl⟩
  · rintro ⟨t, e₀, ht, rfl, rfl⟩
    exact ⟨(t, e₀), ht, rfl⟩

theorem Inv.sleep_step (hs : Inv s) {a : Sleep.Action P L L} {t : Sleep.State P L L}
    {e : Sleep.Event P L} (h : Sleep.step spin s.sleep a = some (t, e)) :
    ∃ os, Sleep.Inv spin t os := by
  obtain ⟨os, hsleep⟩ := hs.sleep
  exact ⟨os ++ [e], inv_step hsleep h⟩

/-- A function is called. -/
theorem inv_call (hs : Inv s) {j : Job L} (hplace : Place j (.code (some (spin l))))
    (hfound : ∀ l, j ≠ .found l) (howner : ∀ l, j = .releasing l → s.owner l = some p)
    (h : call s p l j = some (s', e)) : Inv s' ∧ s'.owner = s.owner ∧ e = .quiet := by
  rw [call] at h
  split at h
  · next hidle =>
    obtain ⟨t, e₀, ht, rfl, rfl⟩ := via_eq_some.mp h
    refine ⟨?_, rfl, rfl⟩
    have hsleep := hs.sleep_step ht
    have hothers := fun q hq => others_step (q := q) ht hq
    rw [Sleep.step] at ht
    split at ht
    · cases ht
      have hpc : ∀ u : Sleep.State P L L, (u.goto p (.code (some (spin l)))).pc p =
          .code (some (spin l)) := fun u => Function.update_self _ _ _
      refine hs.move (p := p) (j := j) hsleep rfl rfl hothers rfl ?_
        (fun l' hj => absurd hj (hfound l')) (fun l' hj => .inr (howner l' hj)) (fun l' hd => ?_)
        fun l' hw => ?_
      · exact (hpc _).symm ▸ hplace
      · exact absurd hd (not_drowsy_of_code (hpc _))
      · rw [hidle] at hw
        rcases hw with hw | ⟨hw, -⟩
        · cases hw
        · cases hw
    · contradiction
  · contradiction

/-- Only the processes move. -/
theorem inv_via (hs : Inv s) {a : Sleep.Action P L L} {j : Job L} {e₀ : Event P L}
    (ha : actor a = some p) (h : via s a (State.goto p j) e₀ = some (s', e))
    (hfound : ∀ l, j ≠ .found l) (howner : ∀ l, j ≠ .releasing l)
    (hp : ∀ t e₁, Sleep.step spin s.sleep a = some (t, e₁) → Place j (t.pc p) ∧
      (∀ l, Sleep.Drowsy l (t.pc p) (t.pstate p) → s.Drowsy p l ∨ s.locked l = true) ∧
      ∀ l, Wakes l (s.job p) (s.sleep.pc p) →
        Wakes l j (t.pc p) ∨ ∀ r, ¬Sleep.Drowsy l (t.pc r) (t.pstate r)) :
    Inv s' ∧ s'.owner = s.owner ∧ e = e₀ := by
  obtain ⟨t, e₁, ht, rfl, rfl⟩ := via_eq_some.mp h
  obtain ⟨hplace, hdrowsy, hwakes⟩ := hp t e₁ ht
  refine ⟨?_, rfl, rfl⟩
  exact hs.move (p := p) (j := j) (hs.sleep_step ht) rfl rfl
    (fun q hq => others_step ht (ha ▸ hq)) rfl hplace (fun l hj => absurd hj (hfound l))
    (fun l hj => absurd hj (howner l)) hdrowsy hwakes

/-- The lock is released, and the function is left. -/
theorem inv_leave (hs : Inv s) (hpc : s.sleep.pc p = .code (some (spin l)))
    (hwakes : ∀ l, ¬Wakes l (s.job p) (s.sleep.pc p))
    (h : via s (.release p) (State.goto p .idle) .quiet = some (s', e)) :
    Inv s' ∧ s'.owner = s.owner ∧ e = .quiet := by
  refine inv_via hs rfl h (fun l hj => by cases hj) (fun l hj => by cases hj) fun t e₁ ht => ?_
  rw [Sleep.step, hpc] at ht
  cases ht
  have hcode : ((s.sleep.give (spin l) none).goto p (.code none)).pc p = .code none :=
    Function.update_self _ _ _
  exact ⟨hcode, fun l' hd => absurd hd (not_drowsy_of_code hcode),
    fun l' hw => absurd hw (hwakes l')⟩

/-- Where the process is in the code does not change. -/
theorem via_id {a : Sleep.Action P L L} (e₀ : Event P L) :
    via s a id e₀ = via s a (State.goto p (s.job p)) e₀ := by
  rw [via, via]
  congr 1
  funext x
  rw [State.goto, Function.update_eq_self]
  rfl

omit [DecidableEq P] in
/-- The processes that have the locks, when a lock is marked. -/
theorem owner_mark (b : Bool) (o : Option P) :
    (s.mark l b o).owner = Function.update s.owner l (if b then o else none) := by
  funext l'
  by_cases hl : l' = l
  · simp [State.owner, State.mark, hl]
  · simp [State.owner, State.mark, Function.update_of_ne hl]

/-- **The next statement.** -/
theorem inv_statement (hs : Inv s) (h : next s p (s.job p) = some (s', e)) :
    Inv s' ∧ Mutex.Step s.owner (.next p) s'.owner e := by
  have hplace := hs.place p
  have hquiet : Inv s' ∧ s'.owner = s.owner ∧ e = .quiet →
      Inv s' ∧ Mutex.Step s.owner (.next p : Action P L) s'.owner e := by
    rintro ⟨hs', howner, rfl⟩
    rw [howner]
    exact ⟨hs', .quiet⟩
  cases hjob : s.job p with
  | idle =>
    rw [hjob, next] at h
    contradiction
  | acquiring l =>
    rw [hjob] at hplace
    have hw : ∀ l', ¬Wakes l' (s.job p) (s.sleep.pc p) := fun l' hw => by
      rw [hjob] at hw
      rcases hw with hw | ⟨hw, -⟩
      · cases hw
      · cases hw
    rw [hjob, next] at h
    split at h
    · next hpc =>
      split at h
      · next hheld =>
        rw [via_id (p := p)] at h
        refine hquiet (inv_via hs rfl h (fun l' hj => ?_) (fun l' hj => ?_) fun t e₁ ht => ?_)
        · rw [hjob] at hj
          cases hj
        · rw [hjob] at hj
          cases hj
        rw [Sleep.step, if_pos hpc, if_neg (spin_ne_ptable l)] at ht
        cases ht
        have hsleep0 : (s.sleep.goto p (.sleep0 l)).pc p = .sleep0 l := Function.update_self _ _ _
        refine ⟨?_, fun l' hd => .inr ?_, fun l' hw' => absurd hw' (hw l')⟩
        · rw [hjob, hsleep0]
          exact .inr rfl
        · rw [hsleep0] at hd
          simp only [Sleep.Drowsy, Pc.Tested, reduceCtorEq, Pc.sleep0.injEq, or_false, false_and]
            at hd
          rw [← hd]
          exact hheld
      · next hfree =>
        cases h
        refine hquiet ⟨?_, rfl, rfl⟩
        refine hs.move (p := p) (j := .found l) hs.sleep rfl rfl (fun q _ => ⟨rfl, id⟩) rfl hpc
          (fun l' hj => .inr ?_) (fun l' hj => by cases hj) (fun l' hd => .inl hd)
          fun l' hw' => absurd hw' (hw l')
        cases hj
        exact Bool.eq_false_iff.mpr hfree
    · next hpc =>
      have hin := hplace.resolve_left hpc
      rw [via_id (p := p)] at h
      refine hquiet (inv_via hs rfl h (fun l' hj => ?_) (fun l' hj => ?_) fun t e₁ ht => ?_)
      · rw [hjob] at hj
        cases hj
      · rw [hjob] at hj
        cases hj
      obtain ⟨hplace', hdrowsy⟩ := next_sleep hin ht
      rw [hjob]
      exact ⟨hplace', fun l' hd => .inl (hdrowsy l' hd), fun l' hw' => absurd (hjob ▸ hw') (hw l')⟩
  | found l =>
    rw [hjob] at hplace
    rw [hjob, next] at h
    cases h
    have hfree : s.owner l = none := by
      rw [State.owner, hs.found p l hjob]
      rfl
    refine ⟨hs.set hplace rfl (fun l' hj => by cases hj) (fun l' hj => by cases hj)
      (fun _ => Option.some_ne_none p) (.inl rfl) fun l' hw => ?_, ?_⟩
    · rw [hjob] at hw
      rcases hw with hw | ⟨hw, -⟩
      · cases hw
      · cases hw
    · change Mutex.Step s.owner _ (s.mark l true (some p)).owner _
      rw [owner_mark]
      exact .acquired hfree
  | releasing l =>
    have howner := hs.owner p l hjob
    rw [hjob] at hplace
    have hpc : s.sleep.pc p = .code (some (spin l)) := hplace
    rw [hjob, next] at h
    obtain ⟨t, e₁, ht, rfl, rfl⟩ := via_eq_some.mp h
    rw [Sleep.step, if_pos hpc] at ht
    cases ht
    refine ⟨hs.set hplace rfl (fun l' hj => by cases hj) (fun l' hj => by cases hj)
      (fun hb => absurd hb Bool.false_ne_true) (.inr (.inl rfl)) fun l' hw => ?_, ?_⟩
    · rw [hjob] at hw
      rcases hw with hw | ⟨hw, -⟩
      · cases hw
      · cases hw
    · change Mutex.Step s.owner _ (s.mark l false none).owner _
      rw [owner_mark]
      exact .released howner
  | cleared l =>
    rw [hjob] at hplace
    rw [hjob, next] at h
    refine hquiet (inv_via hs rfl h (fun l' hj => by cases hj) (fun l' hj => by cases hj)
      fun t e₁ ht => ?_)
    have hspin : some (spin l) ≠ some ptable := fun heq => spin_ne_ptable l (Option.some.inj heq)
    rw [Sleep.step, hplace] at ht
    dsimp only at ht
    rw [if_neg hspin] at ht
    cases ht
    have hpc : (s.sleep.goto p (.wakeup0 l (some (spin l)))).pc p = .wakeup0 l (some (spin l)) :=
      Function.update_self _ _ _
    rw [hpc]
    have hawake : (Pc.wakeup0 l (some (spin l)) : Pc L L).Awake := trivial
    refine ⟨.inr ⟨rfl, rfl⟩, fun l' hd => absurd hd (hawake.not_drowsy l' _), fun l' hw => .inl ?_⟩
    rw [hjob] at hw
    rcases hw with hw | ⟨hw, -⟩
    · cases hw
      exact .inr ⟨rfl, rfl, rfl⟩
    · cases hw
  | waking l =>
    rw [hjob] at hplace
    rw [hjob, next] at h
    split at h
    · next hpc =>
      refine hquiet (inv_leave hs hpc (fun l' hw => ?_) h)
      rw [hpc] at hw
      rcases hw with hw | ⟨-, hw⟩
      · rw [hjob] at hw
        cases hw
      · exact hw
    · next hpc =>
      have hin := hplace.resolve_left hpc
      rw [via_id (p := p)] at h
      refine hquiet (inv_via hs rfl h (fun l' hj => ?_) (fun l' hj => ?_) fun t e₁ ht => ?_)
      · rw [hjob] at hj
        cases hj
      · rw [hjob] at hj
        cases hj
      obtain ⟨os, hsleep⟩ := hs.sleep
      obtain ⟨hawake, hwhere⟩ := next_wakeup hsleep hin ht
      rw [hjob]
      refine ⟨?_, fun l' hd => absurd hd (hawake l'), fun l' hw => ?_⟩
      · rcases hwhere with h' | ⟨h', -⟩
        · exact .inr h'
        · exact .inl h'
      · rcases hw with hw | ⟨hw, -⟩
        · cases hw
        · cases hw
          exact hwhere.imp (fun h' => .inr ⟨rfl, h'⟩) And.right
  | asking l =>
    rw [hjob] at hplace
    rw [hjob, next] at h
    cases h
    have hanswer : (s.locked l && decide (s.pid l = some p)) = decide (s.owner l = some p) := by
      rw [State.owner]
      cases s.locked l with
      | true => rfl
      | false => simp
    refine ⟨?_, ?_⟩
    · refine hs.move (p := p) (j := .leaving l) hs.sleep rfl rfl (fun q _ => ⟨rfl, id⟩) rfl hplace
        (fun l' hj => by cases hj) (fun l' hj => by cases hj) (fun l' hd => .inl hd) fun l' hw => ?_
      rw [hjob] at hw
      rcases hw with hw | ⟨hw, -⟩
      · cases hw
      · cases hw
    · rw [hanswer]
      exact .answered p l
  | leaving l =>
    rw [hjob] at hplace
    rw [hjob, next] at h
    refine hquiet (inv_leave hs hplace (fun l' hw => ?_) h)
    rw [hjob] at hw
    rcases hw with hw | ⟨hw, -⟩
    · cases hw
    · cases hw

/-- The scheduler. -/
theorem inv_sched (hs : Inv s) {a : Sleep.Action P L L}
    (ha : a = .schedAcquire ∨ a = .schedRelease ∨ ∃ p, a = .schedRun p)
    (h : via s a id .quiet = some (s', e)) : Inv s' ∧ s'.owner = s.owner ∧ e = .quiet := by
  obtain ⟨t, e₁, ht, rfl, rfl⟩ := via_eq_some.mp h
  refine ⟨?_, rfl, rfl⟩
  have hsleep := hs.sleep_step ht
  have hothers := fun q hq => others_step (q := q) ht hq
  -- the lock of the scheduler does not matter to the processes
  have hlock : actor a = none → Inv { s with sleep := t } := fun hnone => by
    have hall : ∀ q, Others s.sleep t q := fun q =>
      hothers q (hnone ▸ Option.some_ne_none q ∘ Eq.symm)
    refine hs.keep hsleep rfl rfl (fun q => ?_) (fun _ _ => .inl) (fun _ _ => .inl)
      (fun q l' hd => .inl ?_) fun q l' hw => .inl ?_
    · rw [show ({ s with sleep := t } : State P L).sleep.pc q = _ from (hall q).pc]
      exact hs.place q
    · rw [State.Drowsy, Sleep.Drowsy, (hall q).pc] at hd
      exact hd.imp id (Or.imp id fun h' => ⟨h'.1, (hall q).sleeping h'.2⟩)
    · rw [show ({ s with sleep := t } : State P L).sleep.pc q = _ from (hall q).pc]
      exact hw
  rcases ha with rfl | rfl | ⟨p, rfl⟩
  · exact hlock rfl
  · exact hlock rfl
  have hplace := hs.place p
  rw [Sleep.step] at ht
  split at ht
  · next c hpc =>
    rw [hpc] at hplace
    split at ht
    · cases ht
      -- only `acquiresleep` sleeps
      have hjob : s.job p = .acquiring c := by
        cases hjob : s.job p with
        | acquiring l =>
          rw [hjob] at hplace
          rcases hplace with h | h
          · cases h
          · rw [show c = l from h]
        | waking l =>
          rw [hjob] at hplace
          rcases hplace with h | h
          · cases h
          · exact h.elim
        | idle =>
          rw [hjob] at hplace
          cases hplace
        | _ l =>
          rw [hjob] at hplace
          cases hplace
      refine hs.move (p := p) (j := .acquiring c) hsleep rfl rfl hothers
        (by rw [← hjob, Function.update_eq_self]; rfl) (.inr ?_) (fun l' hj => by cases hj)
        (fun l' hj => by cases hj) (fun l' hd => ?_) fun l' hw => ?_
      · change InSleep c (Function.update s.sleep.pc p (.sleep4 c) p)
        rw [Function.update_self]
        rfl
      · have hawake : (Pc.sleep4 c : Pc L L).Awake := trivial
        refine absurd hd ?_
        change ¬Sleep.Drowsy l' (Function.update s.sleep.pc p (.sleep4 c) p) _
        rw [Function.update_self]
        exact hawake.not_drowsy l' _
      · rw [hjob] at hw
        rcases hw with hw | ⟨hw, -⟩
        · cases hw
        · cases hw
    · contradiction
  · contradiction

/-- **Every step keeps the invariant**, and is a step of the mutexes. -/
theorem inv_step (hs : Inv s) {a : Action P L} (ha : Disciplined s a)
    (h : step s a = some (s', e)) : Inv s' ∧ Mutex.Step s.owner a s'.owner e := by
  have hquiet : Inv s' ∧ s'.owner = s.owner ∧ e = .quiet →
      Inv s' ∧ Mutex.Step s.owner a s'.owner e := by
    rintro ⟨hs', howner, rfl⟩
    rw [howner]
    exact ⟨hs', .quiet⟩
  cases a with
  | acquiresleep p l =>
    have hplace : Place (.acquiring l) (.code (some (spin l))) := .inl rfl
    exact hquiet (inv_call hs hplace (fun l' hj => by cases hj) (fun l' hj => by cases hj) h)
  | releasesleep p l =>
    have hplace : Place (.releasing l) (.code (some (spin l))) := rfl
    refine hquiet (inv_call hs hplace (fun l' hj => by cases hj) (fun l' hj => ?_) h)
    cases hj
    exact ha
  | holdingsleep p l =>
    have hplace : Place (.asking l) (.code (some (spin l))) := rfl
    exact hquiet (inv_call hs hplace (fun l' hj => by cases hj) (fun l' hj => by cases hj) h)
  | next p => exact inv_statement hs h
  | schedAcquire => exact hquiet (inv_sched hs (.inl rfl) h)
  | schedRelease => exact hquiet (inv_sched hs (.inr (.inl rfl)) h)
  | schedRun p => exact hquiet (inv_sched hs (.inr (.inr ⟨p, rfl⟩)) h)

end Invariant

theorem inv_boot : Inv (boot : State P L) where
  sleep := ⟨[], Sleep.inv_boot spin⟩
  place := fun _ => rfl
  found := fun _ _ h => by cases h
  owner := fun _ _ h => by cases h
  pid := fun _ h => by cases h
  drowsy := fun _ _ h => absurd h (not_drowsy_of_code rfl)

/-- Whether a step is disciplined can be computed. -/
instance [DecidableEq P] (s : State P L) : ∀ a, Decidable (Disciplined s a)
  | .releasesleep p l => inferInstanceAs (Decidable (s.owner l = some p))
  | .acquiresleep _ _ | .holdingsleep _ _ | .next _ | .schedAcquire | .schedRelease | .schedRun _ =>
      inferInstanceAs (Decidable True)

/-- A process waits for a lock, and gets it from another one. -/
def handover : List (Action Bool Unit) :=
  [.acquiresleep true (), .next true, .next true, .next true, .acquiresleep false (), .next false,
    .next false, .next false, .next false, .next false, .schedRelease, .releasesleep true (),
    .next true, .next true, .next true, .next true, .next true, .schedAcquire, .schedRun false,
    .next false, .next false, .next false, .next false]

end Sleeplock
end Xv6
