import Xv6.Lib.Machine

/-!
# Sleep and wakeup

`sleep` and `wakeup` of `proc.c`, at the steps where locks change hands, for any number of
processes, channels and locks.  The condition that a channel stands for is protected by one
lock, which may be `ptable.lock` itself; `sleep` is called with this lock held, after the
condition was tested.

A process that sleeps gives `ptable.lock` to the scheduler, and gets it back from there.

## Main definitions

* `Pc`, `State`, `Event` — where a process is in its code, the locks, and what a step does.
* `step` — the steps.
* `Mark` — a process has made the condition true, or calls `wakeup`, with the lock held.

## Main results

* `inv_step` — what every step keeps: who holds which lock, and what a process that is about
  to sleep has missed.
* `no_lost_wakeup` — **no process sleeps through a wakeup**.
-/

namespace Xv6
namespace Sleep

open Machine

variable {P C K : Type*}

/-- `ptable.lock`, or another lock. -/
abbrev Lock (K : Type*) := Option K

/-- `&ptable.lock` -/
abbrev ptable : Lock K := none

/-- Where a process is.  The places in `sleep(c, lk)` and in `wakeup(c)` have the next
statement as their comment; `held` is the critical section that `wakeup` is called in. -/
inductive Pc (C K : Type*)
  /-- Without a lock (`none`), or inside the critical section of a lock. -/
  | code (held : Option (Lock K))
  /-- `acquire(&ptable.lock)` -/
  | sleep0 (c : C)
  /-- `release(lk)` -/
  | sleep1 (c : C)
  /-- `p->chan = chan; p->state = SLEEPING` -/
  | sleep2 (c : C)
  /-- `sched()` -/
  | sleep3 (c : C)
  /-- It has left the processor. -/
  | asleep (c : C)
  /-- `p->chan = 0` -/
  | sleep4 (c : C)
  /-- `acquire(lk)` -/
  | sleep5 (c : C)
  /-- `acquire(&ptable.lock)` -/
  | wakeup0 (c : C) (held : Option (Lock K))
  /-- `wakeup1(chan)`, and `release(&ptable.lock)` -/
  | wakeup1 (c : C) (held : Option (Lock K))
  deriving DecidableEq

inductive Procstate
  | running
  | sleeping
  | runnable
  deriving DecidableEq

/-- Who holds a lock. -/
inductive Agent (P : Type*)
  | proc (p : P)
  | scheduler
  deriving DecidableEq

structure State (P C K : Type*) where
  holder : Lock K → Option (Agent P)
  pstate : P → Procstate
  chan : P → Option C
  pc : P → Pc C K

inductive Action (P C K : Type*)
  | acquire (p : P) (l : Lock K)
  | release (p : P)
  /-- The condition of the channel is tested, it is false, and `sleep` is called. -/
  | sleep (p : P) (c : C)
  /-- The condition of the channel is made true. -/
  | make (p : P) (c : C)
  /-- `wakeup` is called; `wakeup1` with `ptable.lock` held. -/
  | wakeup (p : P) (c : C)
  /-- The next statement of `sleep` or `wakeup`. -/
  | next (p : P)
  | schedAcquire
  | schedRelease
  /-- The scheduler switches to a process. -/
  | schedRun (p : P)

inductive Event (P C : Type*)
  | tested (p : P) (c : C)
  | made (p : P) (c : C)
  /-- `wakeup` is called, with the lock of the condition held or not. -/
  | called (p : P) (c : C) (held : Bool)
  /-- `wakeup` has done its work. -/
  | woke (p : P) (c : C)
  | quiet

section Step

variable [DecidableEq P] [DecidableEq C] [DecidableEq K]

/-- The process `p` goes to another place. -/
def State.goto (s : State P C K) (p : P) (pc : Pc C K) : State P C K :=
  { s with pc := Function.update s.pc p pc }

/-- The lock `l` changes hands. -/
def State.give (s : State P C K) (l : Lock K) (a : Option (Agent P)) : State P C K :=
  { s with holder := Function.update s.holder l a }

/-- `wakeup1(c)` -/
def State.wake (s : State P C K) (c : C) : State P C K :=
  { s with pstate := fun q =>
      if s.pstate q = .sleeping ∧ s.chan q = some c then .runnable else s.pstate q }

/-- The next statement of the process `p` in `sleep` or `wakeup`; `lk` is the lock of each
condition. -/
def next (lk : C → Lock K) (s : State P C K) (p : P) :
    Pc C K → Option (State P C K × Event P C)
  | .code _ => none
  | .sleep0 c =>
      if s.holder ptable = none then
        some ((s.give ptable (some (.proc p))).goto p (.sleep1 c), .quiet)
      else none
  | .sleep1 c => some ((s.give (lk c) none).goto p (.sleep2 c), .quiet)
  | .sleep2 c =>
      some ({ s with
        chan := Function.update s.chan p (some c)
        pstate := Function.update s.pstate p .sleeping }.goto p (.sleep3 c), .quiet)
  | .sleep3 c => some ((s.give ptable (some .scheduler)).goto p (.asleep c), .quiet)
  | .asleep _ => none
  | .sleep4 c =>
      let s := { s with chan := Function.update s.chan p none }
      if lk c = ptable then some (s.goto p (.code (some ptable)), .quiet)
      else some ((s.give ptable none).goto p (.sleep5 c), .quiet)
  | .sleep5 c =>
      if s.holder (lk c) = none then
        some ((s.give (lk c) (some (.proc p))).goto p (.code (some (lk c))), .quiet)
      else none
  | .wakeup0 c held =>
      if s.holder ptable = none then
        some ((s.give ptable (some (.proc p))).goto p (.wakeup1 c held), .quiet)
      else none
  | .wakeup1 c held =>
      if held = some ptable then some ((s.wake c).goto p (.code held), .woke p c)
      else some (((s.wake c).give ptable none).goto p (.code held), .woke p c)

/-- A step. -/
def step (lk : C → Lock K) (s : State P C K) : Action P C K → Option (State P C K × Event P C)
  | .acquire p l =>
      if s.pc p = .code none ∧ s.holder l = none then
        some ((s.give l (some (.proc p))).goto p (.code (some l)), .quiet)
      else none
  | .release p =>
      match s.pc p with
      | .code (some l) => some ((s.give l none).goto p (.code none), .quiet)
      | _ => none
  | .sleep p c =>
      if s.pc p = .code (some (lk c)) then
        some (s.goto p (if lk c = ptable then .sleep2 c else .sleep0 c), .tested p c)
      else none
  | .make p c => if s.pc p = .code (some (lk c)) then some (s, .made p c) else none
  | .wakeup p c =>
      match s.pc p with
      | .code held =>
          some (s.goto p (if held = some ptable then .wakeup1 c held else .wakeup0 c held),
            .called p c (held = some (lk c)))
      | _ => none
  | .next p => next lk s p (s.pc p)
  | .schedAcquire =>
      if s.holder ptable = none then some (s.give ptable (some .scheduler), .quiet) else none
  | .schedRelease =>
      if s.holder ptable = some .scheduler then some (s.give ptable none, .quiet) else none
  | .schedRun p =>
      match s.pc p with
      | .asleep c =>
          if s.holder ptable = some .scheduler ∧ s.pstate p = .runnable then
            some ({ s.give ptable (some (.proc p)) with
              pstate := Function.update s.pstate p .running }.goto p (.sleep4 c), .quiet)
          else none
      | _ => none

/-- No process is in a critical section. -/
def boot : State P C K := ⟨fun _ => none, fun _ => .running, fun _ => none, fun _ => .code none⟩

end Step

/-! ### What a step does to a process -/

/-- The locks that a process holds at a place. -/
def Pc.Holds (lk : C → Lock K) (l : Lock K) : Pc C K → Prop
  | .code held => held = some l
  | .sleep0 c => l = lk c
  | .sleep1 c => l = lk c ∨ l = ptable
  | .sleep2 _ => l = ptable
  | .sleep3 _ => l = ptable
  | .asleep _ => False
  | .sleep4 _ => l = ptable
  | .sleep5 _ => False
  | .wakeup0 _ held => held = some l
  | .wakeup1 _ held => held = some l ∨ l = ptable

/-- The process has tested the condition of `c`, and has not released its lock. -/
def Pc.Tested (c : C) (pc : Pc C K) : Prop := pc = .sleep0 c ∨ pc = .sleep1 c

/-- The process is on its way to sleep on `c`, or it sleeps. -/
def Drowsy (c : C) (pc : Pc C K) (st : Procstate) : Prop :=
  pc.Tested c ∨ pc = .sleep2 c ∨ (pc = .sleep3 c ∨ pc = .asleep c) ∧ st = .sleeping

/-- The condition of `c` is made true, or `wakeup(c)` is called, by `q`, with the lock of the
condition held. -/
def Mark (q : P) (c : C) (e : Event P C) : Prop := e = .made q c ∨ e = .called q c true

/-- After every mark by `q` on `c` at which `R` holds of the rest of the history, `p` has
tested the condition. -/
def TestedAfter (p : P) (c : C) (R : P → List (Event P C) → Prop) (os : List (Event P C)) : Prop :=
  ∀ os₁ e os₂ q, os = os₁ ++ e :: os₂ → Mark q c e → R q os₂ → .tested p c ∈ os₂

section Histories

variable {p : P} {c : C} {os : List (Event P C)} {e : Event P C}

theorem TestedAfter.mono {R R' : P → List (Event P C) → Prop} (h : TestedAfter p c R os)
    (hR : ∀ q os₂, R' q os₂ → R q os₂) : TestedAfter p c R' os :=
  fun os₁ e os₂ q hos hmark hR' => h os₁ e os₂ q hos hmark (hR q os₂ hR')

/-- The test itself comes after every mark. -/
theorem testedAfter_tested (R : P → List (Event P C) → Prop) :
    TestedAfter p c R (os ++ [.tested p c]) := by
  intro os₁ e₁ os₂ q hos hmark _
  rcases concat_split hos with ⟨-, -, rfl⟩ | ⟨os₃, rfl, -⟩
  · rcases hmark with h | h
    · cases h
    · cases h
  · exact List.mem_append_right _ (List.mem_singleton_self _)

/-- There is no mark since the test, and none is added. -/
theorem TestedAfter.concat_of_not_mark (h : TestedAfter p c (fun _ _ => True) os)
    (he : ∀ q, ¬Mark q c e) : TestedAfter p c (fun _ _ => True) (os ++ [e]) := by
  intro os₁ e₁ os₂ q hos hmark _
  rcases concat_split hos with ⟨-, -, rfl⟩ | ⟨os₃, rfl, hos'⟩
  · exact absurd hmark (he q)
  · exact List.mem_append_left _ (h os₁ e₁ os₃ q hos' hmark trivial)

/-- No `wakeup` that counts is finished by the event. -/
theorem TestedAfter.concat_of_not_woke (h : TestedAfter p c (fun q os₂ => .woke q c ∈ os₂) os)
    (he : ∀ q, e ≠ .woke q c) :
    TestedAfter p c (fun q os₂ => .woke q c ∈ os₂) (os ++ [e]) := by
  intro os₁ e₁ os₂ q hos hmark hwoke
  rcases concat_split hos with ⟨rfl, -, -⟩ | ⟨os₃, rfl, hos'⟩
  · cases hwoke
  · have hwoke' : .woke q c ∈ os₃ := by
      rcases List.mem_append.mp hwoke with hmem | hmem
      · exact hmem
      · exact absurd (List.mem_singleton.mp hmem).symm (he q)
    exact List.mem_append_left _ (h os₁ e₁ os₃ q hos' hmark hwoke')

end Histories

/-! ### The invariant -/

/-- Who holds which lock, and what a process that is about to sleep has missed. -/
structure Inv (lk : C → Lock K) (s : State P C K) (os : List (Event P C)) : Prop where
  holds : ∀ p l, (s.pc p).Holds lk l → s.holder l = some (.proc p)
  apart : ∀ p c, (s.pc p).Tested c → lk c ≠ ptable
  sleeping : ∀ p, s.pstate p = .sleeping →
    ∃ c, (s.pc p = .sleep3 c ∨ s.pc p = .asleep c) ∧ s.chan p = some c
  tested : ∀ p c, (s.pc p).Tested c → TestedAfter p c (fun _ _ => True) os
  drowsy : ∀ p c, Drowsy c (s.pc p) (s.pstate p) →
    TestedAfter p c (fun q os₂ => .woke q c ∈ os₂) os

section Invariant

variable {lk : C → Lock K} {s s' : State P C K} {os : List (Event P C)} {e : Event P C}

/-- A lock is held by one process at most. -/
theorem Inv.eq_of_holds (hs : Inv lk s os) {p q : P} {l : Lock K} (hp : (s.pc p).Holds lk l)
    (hq : (s.pc q).Holds lk l) : p = q := by
  have h := (hs.holds p l hp).symm.trans (hs.holds q l hq)
  rw [Option.some.injEq, Agent.proc.injEq] at h
  exact h

theorem Inv.not_holds (hs : Inv lk s os) {p : P} {l : Lock K}
    (h : s.holder l = none ∨ s.holder l = some .scheduler) : ¬(s.pc p).Holds lk l := by
  intro hp
  rw [hs.holds p l hp] at h
  simp at h

theorem Pc.Tested.holds {pc : Pc C K} {c : C} (h : pc.Tested c) : pc.Holds lk (lk c) := by
  rcases h with rfl | rfl
  · rfl
  · exact .inl rfl

/-- **What a step of the process `p` other than a test means for the histories.**  A mark is
made with the lock held, and `wakeup` leaves none asleep on its channel. -/
theorem Inv.history (hs : Inv lk s os) {p : P} (hpc : ∀ q, q ≠ p → s'.pc q = s.pc q)
    (hst : ∀ q, q ≠ p → s'.pstate q = .sleeping → s.pstate q = .sleeping)
    (hT : ∀ c, (s'.pc p).Tested c → (s.pc p).Tested c)
    (hD : ∀ c, Drowsy c (s'.pc p) (s'.pstate p) → Drowsy c (s.pc p) (s.pstate p))
    (hmark : ∀ q c, Mark q c e → s.pc p = .code (some (lk c)))
    (hwoke : ∀ q c, e = .woke q c → (∃ held, s.pc p = .wakeup1 c held) ∧
      (¬∃ c', Drowsy c' (s'.pc p) (s'.pstate p)) ∧
      ∀ q, q ≠ p → s'.pstate q = .sleeping → s.chan q ≠ some c) :
    (∀ q c, (s'.pc q).Tested c → TestedAfter q c (fun _ _ => True) (os ++ [e])) ∧
      ∀ q c, Drowsy c (s'.pc q) (s'.pstate q) →
        TestedAfter q c (fun q' os₂ => .woke q' c ∈ os₂) (os ++ [e]) := by
  have htested : ∀ q c, (s'.pc q).Tested c → (s.pc q).Tested c := fun q c h => by
    by_cases hq : q = p
    · rw [hq] at h ⊢
      exact hT c h
    · rwa [hpc q hq] at h
  have hkeep : ∀ q c, (s'.pc q).Tested c →
      TestedAfter q c (fun _ _ => True) (os ++ [e]) := fun q c h => by
    have hq := htested q c h
    refine (hs.tested q c hq).concat_of_not_mark fun q' hm => ?_
    -- the process that makes the mark holds the lock of the condition, and so does `q`
    have hp := hmark q' c hm
    obtain rfl : q = p := hs.eq_of_holds hq.holds (by rw [hp]; rfl)
    rw [hp] at hq
    rcases hq with h | h
    · cases h
    · cases h
  refine ⟨hkeep, fun q c h => ?_⟩
  have hbefore : Drowsy c (s.pc q) (s.pstate q) := by
    by_cases hq : q = p
    · rw [hq] at h ⊢
      exact hD c h
    · rw [hpc q hq] at h
      exact h.imp id (Or.imp id fun h' => ⟨h'.1, hst q hq h'.2⟩)
  by_cases hw : ∃ q', e = .woke q' c
  · obtain ⟨q', hw⟩ := hw
    obtain ⟨⟨held, hp⟩, hnot, hchan⟩ := hwoke q' c hw
    have hqp : q ≠ p := fun heq => hnot ⟨c, heq ▸ h⟩
    have hholds : (s.pc p).Holds lk ptable := by
      rw [hp]
      exact .inr rfl
    have hno : ¬(s.pc q).Holds lk ptable := fun hq => hqp (hs.eq_of_holds hq hholds)
    rcases h with h | h | ⟨-, hsleep⟩
    · exact (hkeep q c h).mono fun _ _ _ => trivial
    · rw [hpc q hqp] at h
      exact absurd (by rw [h]; rfl) hno
    · -- a process that still sleeps does not do so on `c`
      obtain ⟨c', hpc', hch⟩ := hs.sleeping q (hst q hqp hsleep)
      have hne := hchan q hqp hsleep
      rw [hch] at hne
      rcases hbefore with h | h | ⟨h, -⟩
      · rcases hpc' with h' | h' <;> rcases h with h | h <;> rw [h'] at h <;> cases h
      · rcases hpc' with h' | h' <;> rw [h'] at h <;> cases h
      · rcases hpc' with h' | h' <;> rcases h with h | h <;> rw [h'] at h <;> cases h
        · exact absurd rfl hne
        · exact absurd rfl hne
  · exact (hs.drowsy q c hbefore).concat_of_not_woke fun q' hw' => hw ⟨q', hw'⟩

/-- A process sleeps at two places only. -/
theorem Inv.not_sleeping (hs : Inv lk s os) {p : P} (h : ∀ c, s.pc p ≠ .sleep3 c)
    (h' : ∀ c, s.pc p ≠ .asleep c) : s.pstate p ≠ .sleeping := fun hsleep => by
  obtain ⟨c, hc | hc, -⟩ := hs.sleeping p hsleep
  · exact h c hc
  · exact h' c hc

variable [DecidableEq P]

/-- The process `p` goes on, and the locks stay where they are. -/
theorem Inv.holds_goto (hs : Inv lk s os) {p : P} {pc' : Pc C K}
    (h : ∀ l, pc'.Holds lk l → (s.pc p).Holds lk l) (q : P) (l : Lock K)
    (hq : (Function.update s.pc p pc' q).Holds lk l) : s.holder l = some (.proc q) := by
  by_cases hqp : q = p
  · subst hqp
    rw [Function.update_self] at hq
    exact hs.holds q l (h l hq)
  · rw [Function.update_of_ne hqp] at hq
    exact hs.holds q l hq

/-- The process `p` goes on, and one lock, which no other process holds, changes hands. -/
theorem Inv.holds_give [DecidableEq K] (hs : Inv lk s os) {p : P} {l : Lock K}
    {a : Option (Agent P)} {pc' : Pc C K} (hfree : ∀ q, q ≠ p → ¬(s.pc q).Holds lk l)
    (hp : ∀ l', pc'.Holds lk l' →
      l' = l ∧ a = some (.proc p) ∨ l' ≠ l ∧ (s.pc p).Holds lk l') (q : P) (l' : Lock K)
    (hq : (Function.update s.pc p pc' q).Holds lk l') :
    Function.update s.holder l a l' = some (.proc q) := by
  by_cases hqp : q = p
  · subst hqp
    rw [Function.update_self] at hq
    rcases hp l' hq with ⟨rfl, rfl⟩ | ⟨hne, hold⟩
    · exact Function.update_self _ _ _
    · rw [Function.update_of_ne hne]
      exact hs.holds q l' hold
  · rw [Function.update_of_ne hqp] at hq
    have hne : l' ≠ l := fun heq => hfree q hqp (heq ▸ hq)
    rw [Function.update_of_ne hne]
    exact hs.holds q l' hq

/-- **A step of the process `p` other than a test keeps the invariant.** -/
theorem Inv.move (hs : Inv lk s os) {p : P} {pc' : Pc C K}
    (hpc : s'.pc = Function.update s.pc p pc')
    (hchan : ∀ q, q ≠ p → s'.chan q = s.chan q)
    (hst : ∀ q, q ≠ p → s'.pstate q = .sleeping → s.pstate q = .sleeping)
    (hholds : ∀ q l, (Function.update s.pc p pc' q).Holds lk l → s'.holder l = some (.proc q))
    (hsleep : s'.pstate p = .sleeping →
      ∃ c, (pc' = .sleep3 c ∨ pc' = .asleep c) ∧ s'.chan p = some c)
    (hT : ∀ c, pc'.Tested c → (s.pc p).Tested c)
    (hD : ∀ c, Drowsy c pc' (s'.pstate p) → Drowsy c (s.pc p) (s.pstate p))
    (hmark : ∀ q c, Mark q c e → s.pc p = .code (some (lk c)))
    (hwoke : ∀ q c, e = .woke q c → (∃ held, s.pc p = .wakeup1 c held) ∧
      (¬∃ c', Drowsy c' pc' (s'.pstate p)) ∧
      ∀ q, q ≠ p → s'.pstate q = .sleeping → s.chan q ≠ some c) :
    Inv lk s' (os ++ [e]) := by
  have hself : s'.pc p = pc' := by rw [hpc, Function.update_self]
  have hother : ∀ q, q ≠ p → s'.pc q = s.pc q := fun q hq => by
    rw [hpc, Function.update_of_ne hq]
  obtain ⟨htested, hdrowsy⟩ := hs.history (e := e) hother hst (hself.symm ▸ hT)
    (hself.symm ▸ hD) hmark (hself.symm ▸ hwoke)
  refine ⟨hpc ▸ hholds, fun q c h => ?_, fun q h => ?_, htested, hdrowsy⟩
  · by_cases hq : q = p
    · rw [hq, hself] at h
      exact hs.apart p c (hT c h)
    · rw [hother q hq] at h
      exact hs.apart q c h
  · by_cases hq : q = p
    · rw [hq] at h ⊢
      rw [hself]
      exact hsleep h
    · rw [hother q hq, hchan q hq]
      exact hs.sleeping q (hst q hq h)

/-- The same for a step without an event. -/
theorem Inv.quiet (hs : Inv lk s os) {p : P} {pc' : Pc C K}
    (hpc : s'.pc = Function.update s.pc p pc')
    (hchan : ∀ q, q ≠ p → s'.chan q = s.chan q)
    (hst : ∀ q, q ≠ p → s'.pstate q = .sleeping → s.pstate q = .sleeping)
    (hholds : ∀ q l, (Function.update s.pc p pc' q).Holds lk l → s'.holder l = some (.proc q))
    (hsleep : s'.pstate p = .sleeping →
      ∃ c, (pc' = .sleep3 c ∨ pc' = .asleep c) ∧ s'.chan p = some c)
    (hT : ∀ c, pc'.Tested c → (s.pc p).Tested c)
    (hD : ∀ c, Drowsy c pc' (s'.pstate p) → Drowsy c (s.pc p) (s.pstate p)) :
    Inv lk s' (os ++ [.quiet]) := by
  refine hs.move hpc hchan hst hholds hsleep hT hD (fun q c h => ?_) fun q c h => ?_
  · rcases h with h | h
    · cases h
    · cases h
  · cases h

/-- The places at which a process runs, and does not intend to sleep. -/
def Pc.Awake : Pc C K → Prop
  | .code _ | .sleep4 _ | .sleep5 _ | .wakeup0 _ _ | .wakeup1 _ _ => True
  | _ => False

theorem Pc.Awake.not_tested {pc : Pc C K} (h : pc.Awake) (c : C) : ¬pc.Tested c := by
  intro hT
  rcases hT with rfl | rfl
  · exact h
  · exact h

theorem Pc.Awake.not_drowsy {pc : Pc C K} (h : pc.Awake) (c : C) (st : Procstate) :
    ¬Drowsy c pc st := by
  intro hD
  rcases hD with hT | rfl | ⟨rfl | rfl, -⟩
  · exact h.not_tested c hT
  · exact h
  · exact h
  · exact h

omit [DecidableEq P] in
theorem Inv.running_of_awake (hs : Inv lk s os) {p : P} (h : (s.pc p).Awake) :
    s.pstate p ≠ .sleeping := by
  apply hs.not_sleeping
  · intro c hc
    rw [hc] at h
    exact h
  · intro c hc
    rw [hc] at h
    exact h

/-- A step of a process that runs, to a place where it still runs: only the locks matter. -/
theorem Inv.stay (hs : Inv lk s os) {p : P} {pc' : Pc C K}
    (hpc : s'.pc = Function.update s.pc p pc') (hp : s.pstate p ≠ .sleeping) (hp' : pc'.Awake)
    (hchan : ∀ q, q ≠ p → s'.chan q = s.chan q) (hst : s'.pstate = s.pstate)
    (hholds : ∀ q l, (Function.update s.pc p pc' q).Holds lk l → s'.holder l = some (.proc q)) :
    Inv lk s' (os ++ [.quiet]) := by
  refine hs.quiet hpc hchan (fun q _ h => hst ▸ h) hholds (fun h => ?_) (fun c h => ?_)
    fun c h => ?_
  · rw [hst] at h
    exact absurd h hp
  · exact absurd h (hp'.not_tested c)
  · exact absurd h (hp'.not_drowsy c _)

variable [DecidableEq C] [DecidableEq K]

/-- **The next statement of `sleep` or `wakeup` keeps the invariant.** -/
theorem inv_next (hs : Inv lk s os) {p : P} (h : next lk s p (s.pc p) = some (s', e)) :
    Inv lk s' (os ++ [e]) := by
  cases hpc : s.pc p with
  | code held =>
    rw [hpc, next] at h
    contradiction
  | sleep0 c =>
    rw [hpc, next] at h
    split at h
    · next hfree =>
      cases h
      have hst : s.pstate p ≠ .sleeping := hs.not_sleeping (by simp [hpc]) (by simp [hpc])
      have hT : (s.pc p).Tested c := .inl hpc
      refine hs.quiet rfl (fun _ _ => rfl) (fun _ _ => id)
        (hs.holds_give (fun q _ => hs.not_holds (.inl hfree)) fun l hl => ?_)
        (fun h => absurd h hst) (fun c' h => ?_) (fun c' h => ?_)
      · rcases hl with rfl | rfl
        · exact .inr ⟨hs.apart p c hT, by rw [hpc]; rfl⟩
        · exact .inl ⟨rfl, rfl⟩
      · simp only [Pc.Tested, reduceCtorEq, Pc.sleep1.injEq, false_or] at h
        exact h ▸ hT
      · simp only [Drowsy, Pc.Tested, reduceCtorEq, Pc.sleep1.injEq, false_or, false_and,
          or_false] at h
        exact .inl (h ▸ hT)
    · contradiction
  | sleep1 c =>
    rw [hpc, next] at h
    cases h
    have hst : s.pstate p ≠ .sleeping := hs.not_sleeping (by simp [hpc]) (by simp [hpc])
    have hT : (s.pc p).Tested c := .inr hpc
    refine hs.quiet rfl (fun _ _ => rfl) (fun _ _ => id)
      (hs.holds_give (fun q hq hl => hq (hs.eq_of_holds hl hT.holds)) fun l hl => ?_)
      (fun h => absurd h hst) (fun c' h => ?_) (fun c' h => ?_)
    · obtain rfl : l = ptable := hl
      exact .inr ⟨(hs.apart p c hT).symm, by rw [hpc]; exact .inr rfl⟩
    · simp [Pc.Tested] at h
    · simp only [Drowsy, Pc.Tested, reduceCtorEq, Pc.sleep2.injEq, false_or, false_and,
        or_false] at h
      exact .inl (h ▸ hT)
  | sleep2 c =>
    rw [hpc, next] at h
    cases h
    refine hs.quiet rfl (fun q hq => Function.update_of_ne hq _ _) (fun q hq h => ?_)
      (hs.holds_goto fun l hl => by rw [hpc]; exact hl)
      (fun _ => ⟨c, .inl rfl, Function.update_self _ _ _⟩) (fun c' h => ?_) (fun c' h => ?_)
    · dsimp only [State.goto] at h
      rwa [Function.update_of_ne hq] at h
    · simp [Pc.Tested] at h
    · simp only [Drowsy, Pc.Tested, reduceCtorEq, Pc.sleep3.injEq, false_or, or_false] at h
      exact .inr (.inl (by rw [hpc, h.1]))
  | sleep3 c =>
    rw [hpc, next] at h
    cases h
    have hp : (s.pc p).Holds lk ptable := by rw [hpc]; rfl
    refine hs.quiet rfl (fun _ _ => rfl) (fun _ _ => id)
      (hs.holds_give (fun q hq hl => hq (hs.eq_of_holds hl hp)) fun l hl => hl.elim)
      (fun h => ?_) (fun c' h => ?_) (fun c' h => ?_)
    · obtain ⟨c', hc' | hc', hchan⟩ := hs.sleeping p h
      · rw [hpc, Pc.sleep3.injEq] at hc'
        exact ⟨c, .inr rfl, hc' ▸ hchan⟩
      · rw [hpc] at hc'
        contradiction
    · simp [Pc.Tested] at h
    · simp only [Drowsy, Pc.Tested, reduceCtorEq, Pc.asleep.injEq, false_or] at h
      exact .inr (.inr ⟨.inl (by rw [hpc, h.1]), h.2⟩)
  | asleep c =>
    rw [hpc, next] at h
    contradiction
  | sleep4 c =>
    rw [hpc, next] at h
    have hst : s.pstate p ≠ .sleeping := hs.running_of_awake (by rw [hpc]; trivial)
    have hp : (s.pc p).Holds lk ptable := by rw [hpc]; rfl
    have hchan : ∀ q, q ≠ p → Function.update s.chan p none q = s.chan q :=
      fun q hq => Function.update_of_ne hq _ _
    split at h
    · -- the lock of the condition is `ptable.lock`, and is kept
      cases h
      refine hs.stay rfl hst trivial hchan rfl (hs.holds_goto fun l hl => ?_)
      obtain rfl : ptable = l := Option.some.inj hl
      exact hp
    · cases h
      exact hs.stay rfl hst trivial hchan rfl
        (hs.holds_give (fun q hq hl => hq (hs.eq_of_holds hl hp)) fun l hl => hl.elim)
  | sleep5 c =>
    rw [hpc, next] at h
    split at h
    · next hfree =>
      cases h
      have hst : s.pstate p ≠ .sleeping := hs.running_of_awake (by rw [hpc]; trivial)
      refine hs.stay rfl hst trivial (fun _ _ => rfl) rfl
        (hs.holds_give (fun q _ => hs.not_holds (.inl hfree)) fun l hl => ?_)
      exact .inl ⟨(Option.some.inj hl).symm, rfl⟩
    · contradiction
  | wakeup0 c held =>
    rw [hpc, next] at h
    split at h
    · next hfree =>
      cases h
      have hst : s.pstate p ≠ .sleeping := hs.running_of_awake (by rw [hpc]; trivial)
      refine hs.stay rfl hst trivial (fun _ _ => rfl) rfl
        (hs.holds_give (fun q _ => hs.not_holds (.inl hfree)) fun l hl => ?_)
      rcases hl with hl | rfl
      · have hp : (s.pc p).Holds lk l := by rw [hpc]; exact hl
        refine .inr ⟨fun heq => ?_, hp⟩
        exact hs.not_holds (.inl hfree) (heq ▸ hp)
      · exact .inl ⟨rfl, rfl⟩
    · contradiction
  | wakeup1 c held =>
    rw [hpc, next] at h
    have hp : (s.pc p).Holds lk ptable := by rw [hpc]; exact .inr rfl
    have hst : s.pstate p ≠ .sleeping := hs.running_of_awake (by rw [hpc]; trivial)
    have hwake : ∀ q, (s.wake c).pstate q = .sleeping →
        s.pstate q = .sleeping ∧ s.chan q ≠ some c := fun q h => by
      dsimp only [State.wake] at h
      split at h
      · contradiction
      · next hnot => exact ⟨h, fun hc => hnot ⟨h, hc⟩⟩
    have hawake : (Pc.code held : Pc C K).Awake := trivial
    split at h
    · next hheld =>
      cases h
      refine hs.move rfl (fun _ _ => rfl) (fun q _ h => (hwake q h).1)
        (hs.holds_goto fun l hl => by rw [hpc]; exact .inl hl)
        (fun h => absurd (hwake p h).1 hst) (fun c' h => ?_) (fun c' h => ?_) (fun q c' h => ?_)
        fun q c' h => ?_
      · exact absurd h (hawake.not_tested c')
      · exact absurd h (hawake.not_drowsy c' _)
      · simp [Mark] at h
      · cases h
        exact ⟨⟨held, hpc⟩, fun ⟨c', h⟩ => hawake.not_drowsy c' _ h, fun q _ h => (hwake q h).2⟩
    · next hheld =>
      cases h
      refine hs.move rfl (fun _ _ => rfl) (fun q _ h => (hwake q h).1)
        (hs.holds_give (fun q hq hl => hq (hs.eq_of_holds hl hp)) fun l hl => ?_)
        (fun h => absurd (hwake p h).1 hst) (fun c' h => ?_) (fun c' h => ?_) (fun q c' h => ?_)
        fun q c' h => ?_
      · refine .inr ⟨fun heq => hheld (heq ▸ hl), by rw [hpc]; exact .inl hl⟩
      · exact absurd h (hawake.not_tested c')
      · exact absurd h (hawake.not_drowsy c' _)
      · simp [Mark] at h
      · cases h
        exact ⟨⟨held, hpc⟩, fun ⟨c', h⟩ => hawake.not_drowsy c' _ h, fun q _ h => (hwake q h).2⟩

omit [DecidableEq C] [DecidableEq K] in
/-- A test, and the call of `sleep`. -/
theorem inv_sleep (hs : Inv lk s os) {p : P} {c : C} (hpc : s.pc p = .code (some (lk c))) :
    Inv lk (s.goto p (if lk c = ptable then .sleep2 c else .sleep0 c)) (os ++ [.tested p c]) := by
  have hst : s.pstate p ≠ .sleeping := hs.not_sleeping (by simp [hpc]) (by simp [hpc])
  have hp : (s.pc p).Holds lk (lk c) := by rw [hpc]; rfl
  generalize hpc' : (if lk c = ptable then Pc.sleep2 c else Pc.sleep0 c : Pc C K) = pc'
  have hself : (s.goto p pc').pc p = pc' := Function.update_self _ _ _
  have hother : ∀ q, q ≠ p → (s.goto p pc').pc q = s.pc q := fun q hq =>
    Function.update_of_ne hq _ _
  have hdrowsy : ∀ c', pc'.Tested c' ∨ Drowsy c' pc' (s.pstate p) → c' = c := fun c' h => by
    rw [← hpc'] at h
    split at h
    · simpa [Drowsy, Pc.Tested, eq_comm] using h
    · simpa [Drowsy, Pc.Tested, eq_comm] using h
  refine ⟨hs.holds_goto fun l hl => ?_, fun q c' h => ?_, fun q h => ?_, fun q c' h => ?_,
    fun q c' h => ?_⟩
  · rw [← hpc'] at hl
    split at hl
    · next heq =>
      rw [heq] at hp
      exact (show l = ptable from hl) ▸ hp
    · exact (show l = lk c from hl) ▸ hp
  · by_cases hq : q = p
    · rw [hq, hself] at h
      obtain rfl := hdrowsy c' (.inl h)
      rw [← hpc'] at h
      split at h
      · simp [Pc.Tested] at h
      · next hne => exact hne
    · rw [hother q hq] at h
      exact hs.apart q c' h
  · have hq : q ≠ p := fun heq => hst (heq ▸ h)
    rw [hother q hq]
    exact hs.sleeping q h
  · by_cases hq : q = p
    · rw [hq, hself] at h
      rw [hq, hdrowsy c' (.inl h)]
      exact testedAfter_tested _
    · rw [hother q hq] at h
      exact (hs.tested q c' h).concat_of_not_mark fun q' hm => by simp [Mark] at hm
  · by_cases hq : q = p
    · rw [hq, hself] at h
      rw [hq, hdrowsy c' (.inr h)]
      exact testedAfter_tested _
    · rw [hother q hq] at h
      exact (hs.drowsy q c' h).concat_of_not_woke fun q' hw => by cases hw

omit [DecidableEq P] [DecidableEq C] in
/-- The scheduler takes `ptable.lock`, or lets go of it. -/
theorem inv_sched (hs : Inv lk s os) {a : Option (Agent P)}
    (hfree : s.holder ptable = none ∨ s.holder ptable = some .scheduler) :
    Inv lk (s.give ptable a) (os ++ [.quiet]) where
  holds := fun q l hl => by
    have hne : l ≠ ptable := fun heq => hs.not_holds hfree (heq ▸ hl)
    dsimp only [State.give]
    rw [Function.update_of_ne hne]
    exact hs.holds q l hl
  apart := hs.apart
  sleeping := hs.sleeping
  tested := fun q c h =>
    (hs.tested q c h).concat_of_not_mark fun q' hm => by simp [Mark] at hm
  drowsy := fun q c h => (hs.drowsy q c h).concat_of_not_woke fun q' hw => by cases hw

/-- **Every step keeps the invariant.** -/
theorem inv_step (hs : Inv lk s os) {a : Action P C K} (h : step lk s a = some (s', e)) :
    Inv lk s' (os ++ [e]) := by
  cases a with
  | acquire p l =>
    rw [step] at h
    split at h
    · next hif =>
      obtain ⟨hpc, hfree⟩ := hif
      cases h
      have hst : s.pstate p ≠ .sleeping := hs.running_of_awake (by rw [hpc]; trivial)
      refine hs.stay rfl hst trivial (fun _ _ => rfl) rfl
        (hs.holds_give (fun q _ => hs.not_holds (.inl hfree)) fun l' hl => ?_)
      exact .inl ⟨(Option.some.inj hl).symm, rfl⟩
    · contradiction
  | release p =>
    rw [step] at h
    split at h
    · next l hpc =>
      cases h
      have hst : s.pstate p ≠ .sleeping := hs.running_of_awake (by rw [hpc]; trivial)
      have hp : (s.pc p).Holds lk l := by rw [hpc]; rfl
      refine hs.stay rfl hst trivial (fun _ _ => rfl) rfl
        (hs.holds_give (fun q hq hl => hq (hs.eq_of_holds hl hp)) fun l' hl => ?_)
      cases hl
    · contradiction
  | sleep p c =>
    rw [step] at h
    split at h
    · next hpc =>
      cases h
      exact inv_sleep hs hpc
    · contradiction
  | make p c =>
    rw [step] at h
    split at h
    · next hpc =>
      cases h
      have hst : s.pstate p ≠ .sleeping := hs.running_of_awake (by rw [hpc]; trivial)
      refine hs.move (Function.update_eq_self _ _).symm (fun _ _ => rfl) (fun _ _ => id)
        (hs.holds_goto fun l hl => hl) (fun h => absurd h hst) (fun _ => id) (fun _ => id)
        (fun q c' hm => ?_) fun q c' hw => ?_
      · rcases hm with hm | hm
        · cases hm
          exact hpc
        · cases hm
      · cases hw
    · contradiction
  | wakeup p c =>
    rw [step] at h
    split at h
    · next held hpc =>
      cases h
      have hst : s.pstate p ≠ .sleeping := hs.running_of_awake (by rw [hpc]; trivial)
      have hawake : (if held = some ptable then Pc.wakeup1 c held else .wakeup0 c held).Awake := by
        split
        · trivial
        · trivial
      refine hs.move rfl (fun _ _ => rfl) (fun _ _ => id) (hs.holds_goto fun l hl => ?_)
        (fun h => absurd h hst) (fun c' h => ?_) (fun c' h => ?_) (fun q c' hm => ?_)
        fun q c' hw => ?_
      · rw [hpc]
        split at hl
        · next hheld =>
          rcases hl with hl | rfl
          · exact hl
          · exact hheld
        · exact hl
      · exact absurd h (hawake.not_tested c')
      · exact absurd h (hawake.not_drowsy c' _)
      · rcases hm with hm | hm
        · cases hm
        · rw [Event.called.injEq, decide_eq_true_iff] at hm
          rw [hpc, hm.2.2, hm.2.1]
      · cases hw
    · contradiction
  | next p => exact inv_next hs h
  | schedAcquire =>
    rw [step] at h
    split at h
    · next hfree =>
      cases h
      exact inv_sched hs (.inl hfree)
    · contradiction
  | schedRelease =>
    rw [step] at h
    split at h
    · next hfree =>
      cases h
      exact inv_sched hs (.inr hfree)
    · contradiction
  | schedRun p =>
    rw [step] at h
    split at h
    · next c hpc =>
      split at h
      · next hif =>
        cases h
        have hawake : (Pc.sleep4 c : Pc C K).Awake := trivial
        refine hs.quiet rfl (fun _ _ => rfl) (fun q hq h => ?_)
          (hs.holds_give (fun q _ => hs.not_holds (.inr hif.1)) fun l hl => .inl ⟨hl, rfl⟩)
          (fun h => ?_) (fun c' h => ?_) (fun c' h => ?_)
        · dsimp only [State.goto] at h
          rwa [Function.update_of_ne hq] at h
        · dsimp only [State.goto] at h
          rw [Function.update_self] at h
          contradiction
        · exact absurd h (hawake.not_tested c')
        · exact absurd h (hawake.not_drowsy c' _)
      · contradiction
    · contradiction

omit [DecidableEq P] [DecidableEq C] [DecidableEq K] in
theorem inv_boot (lk : C → Lock K) : Inv lk (boot : State P C K) [] where
  holds := fun p l hl => by cases hl
  apart := fun p c h => by simp [boot, Pc.Tested] at h
  sleeping := fun p h => by cases h
  tested := fun p c h => by simp [boot, Pc.Tested] at h
  drowsy := fun p c h => by simp [boot, Drowsy, Pc.Tested] at h

/-- **No process sleeps through a wakeup.**  In every state that can be reached, a process
that sleeps on a channel has tested the condition after every call of `wakeup` on it that
has completed, if the call was made with the lock of the condition held; and however the call
was made, after its caller made the condition true. -/
theorem no_lost_wakeup {lk : C → Lock K} {as : List (Action P C K)} {s : State P C K}
    {os : List (Event P C)} (h : run (step lk) boot as = some (s, os)) {p : P} {c : C}
    (hsleep : s.pstate p = .sleeping) (hchan : s.chan p = some c) {os₁ os₂ : List (Event P C)}
    {e : Event P C} {q : P} (hos : os = os₁ ++ e :: os₂)
    (hmark : e = .called q c true ∨ e = .made q c) (hwoke : .woke q c ∈ os₂) :
    .tested p c ∈ os₂ := by
  have hs : Inv lk s os := run_history_invariant (Inv lk)
    (fun _ _ _ _ hinv hstep => inv_step hinv hstep) as boot [] (s, os) (inv_boot lk) h
  obtain ⟨c', hpc, hc'⟩ := hs.sleeping p hsleep
  rw [hchan, Option.some.injEq] at hc'
  subst hc'
  exact hs.drowsy p c (.inr (.inr ⟨hpc, hsleep⟩)) os₁ e os₂ q hos hmark.symm hwoke

/-- The steps of two processes: one makes a condition true and wakes its channel, and the other
one tests the condition after that, and sleeps. -/
def twoProcesses : List (Action Bool Unit Unit) :=
  [.acquire false (some ()), .make false (), .wakeup false (), .next false, .next false,
    .release false, .acquire true (some ()), .sleep true (), .next true, .next true, .next true,
    .next true]

theorem no_lost_wakeup_two_processes :
    ∃ s os₂, run (step fun _ => some ()) boot twoProcesses =
        some (s, [.quiet, .made false ()] ++ .called false () true :: os₂) ∧
      s.pstate true = .sleeping ∧ .woke false () ∈ os₂ ∧ .tested true () ∈ os₂ := by
  obtain ⟨s, hrun, hsleep, hchan⟩ : ∃ s, run (step fun _ => some ()) boot twoProcesses =
      some (s, [.quiet, .made false ()] ++ .called false () true :: [.quiet, .woke false (), .quiet,
        .quiet, .tested true (), .quiet, .quiet, .quiet, .quiet]) ∧
      s.pstate true = .sleeping ∧ s.chan true = some () := ⟨_, rfl, rfl, rfl⟩
  have hwoke : Event.woke false () ∈ [.quiet, .woke false (), .quiet, .quiet, .tested true (),
      .quiet, .quiet, .quiet, .quiet] := List.mem_cons_of_mem _ List.mem_cons_self
  exact ⟨s, _, hrun, hsleep, hwoke, no_lost_wakeup hrun hsleep hchan rfl (.inl rfl) hwoke⟩

end Invariant

end Sleep
end Xv6
