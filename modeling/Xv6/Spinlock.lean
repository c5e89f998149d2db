import Mathlib

/-!
# Spin locks

`acquire` and `release` of `spinlock.c`, with the interrupt bookkeeping they rest on, as
one processor runs them.  A call stops the machine with a panic, or spins for ever on a
lock that another processor holds.

* `Cpu`, `Lock` — the processor's part in the interrupt bookkeeping, and `struct spinlock`.
* `pushcli`, `popcli`, `holding`, `acquire`, `release` — the functions.
* `acquire_of_free`, `release_of_held`, `release_of_free` — what they do to a lock that
  is free, and to one that the processor holds.
-/

namespace Xv6
namespace Spinlock

/-- What keeps a call from returning. -/
inductive Stop
  | panic (msg : String)
  /-- The loop around `xchg` never ends. -/
  | spin
  deriving DecidableEq

/-- The processor: `FL_IF` of its flags, and `ncli` and `intena` of its `struct cpu`. -/
structure Cpu where
  id : ℕ
  intr : Bool
  ncli : ℕ
  intena : Bool
  deriving DecidableEq

/-- `struct spinlock`, without what is kept for debugging only. -/
structure Lock where
  locked : Bool
  cpu : Option ℕ
  deriving DecidableEq

/-- `pushcli`. -/
def pushcli (c : Cpu) : Cpu :=
  { c with
    intr := false
    intena := if c.ncli = 0 then c.intr else c.intena
    ncli := c.ncli + 1 }

/-- `popcli`. -/
def popcli (c : Cpu) : Except Stop Cpu :=
  if c.intr then .error (.panic "popcli - interruptible")
  else if c.ncli = 0 then .error (.panic "popcli")
  else .ok { c with ncli := c.ncli - 1, intr := c.ncli = 1 ∧ c.intena }

/-- `holding`. -/
def holding (l : Lock) (c : Cpu) : Except Stop (Bool × Cpu) := do
  let c ← popcli (pushcli c)
  return (l.locked && l.cpu == some c.id, c)

/-- `acquire`. -/
def acquire (l : Lock) (c : Cpu) : Except Stop (Lock × Cpu) := do
  let (held, c) ← holding l (pushcli c)
  if held then throw (.panic "acquire")
  if l.locked then throw .spin
  return (⟨true, some c.id⟩, c)

/-- `release`. -/
def release (l : Lock) (c : Cpu) : Except Stop (Lock × Cpu) := do
  let (held, c) ← holding l c
  if !held then throw (.panic "release")
  let c ← popcli c
  return (⟨false, none⟩, c)

/-- Nobody holds the lock. -/
def Free (l : Lock) : Prop := l.locked = false

/-- The processor holds the lock, with interrupts off. -/
structure Held (l : Lock) (c : Cpu) : Prop where
  locked : l = ⟨true, some c.id⟩
  off : c.intr = false
  pushed : 0 < c.ncli

/-- Inside `pushcli`, asking who holds a lock changes nothing. -/
theorem holding_pushed (l : Lock) {c : Cpu} (hoff : c.intr = false) (hpos : 0 < c.ncli) :
    holding l c = .ok (l.locked && l.cpu == some c.id, c) := by
  have hpop : popcli (pushcli c) = .ok c := by
    obtain ⟨id, intr, ncli, intena⟩ := c
    simp only at hoff hpos
    subst hoff
    simp [popcli, pushcli, hpos.ne']
  rw [holding, hpop]
  rfl

/-- A free lock is held after `acquire`. -/
theorem acquire_of_free {l : Lock} (h : Free l) (c : Cpu) :
    ∃ l' c', acquire l c = .ok (l', c') ∧ Held l' c' := by
  refine ⟨⟨true, some c.id⟩, pushcli c, ?_, rfl, rfl, Nat.succ_pos _⟩
  rw [acquire, holding_pushed l rfl (Nat.succ_pos _), show l.locked = false from h]
  rfl

/-- A lock that is held is free after `release`. -/
theorem release_of_held {l : Lock} {c : Cpu} (h : Held l c) :
    ∃ l' c', release l c = .ok (l', c') ∧ Free l' := by
  obtain ⟨rfl, hoff, hpos⟩ := h
  rw [release, holding_pushed _ hoff hpos]
  refine ⟨⟨false, none⟩, { c with ncli := c.ncli - 1, intr := c.ncli = 1 ∧ c.intena }, ?_, rfl⟩
  simp [popcli, hoff, hpos.ne', bind, Except.bind, pure, Except.pure]

/-- Releasing a free lock is a panic. -/
theorem release_of_free {l : Lock} (h : Free l) (c : Cpu) :
    release l c = .error (.panic "release") := by
  have hheld : l.locked = false := h
  have hpop : ∃ c', popcli (pushcli c) = .ok c' := by simp [popcli, pushcli]
  obtain ⟨c', hc'⟩ := hpop
  rw [release, holding, hc', hheld]
  rfl

end Spinlock
end Xv6
