import Xv6.Console.Discipline
import Xv6.Lib.Machine

/-!
# Readers of the console

`consoleread`, which every version of the console shares, and the system of the
console's driver and the processes that read from it.  A call of `consoleread`
holds `cons.lock` until it returns or goes to sleep, and again from each wake-up
on; one such stretch is a *pass*, and between two passes anything may happen.

* `consoleread` — one pass of a call.
* `Sys`, `Event`, `Sys.step` — the system, over the `consoleintr` of a version.
* `ok_consoleread`, `ok_step` — a pass keeps the index invariant, and a step does
  if the version's `consoleintr` does.
-/

namespace Xv6
namespace Console

/-- A call of `consoleread` in progress: `target`, the bytes still wanted, and the
bytes copied out so far. -/
structure Reader where
  target : ℕ
  n : ℕ
  dst : List UInt8
  deriving DecidableEq

/-- How a pass ends. -/
inductive Outcome
  /-- The call returns a value, with these bytes copied out. -/
  | ret (val : ℤ) (dst : List UInt8)
  /-- The call sleeps on `&input.r`. -/
  | sleep (rd : Reader)
  deriving DecidableEq

/-- The loop of `consoleread`, with `n` bytes still wanted. -/
def readLoop (target : ℕ) (killed : Bool) : ℕ → List UInt8 → Input → Input × Outcome
  | 0, dst, g => (g, .ret target dst)
  | n + 1, dst, g =>
      if g.r = g.w then
        if killed then (g, .ret (-1) dst) else (g, .sleep ⟨target, n + 1, dst⟩)
      else
        let c := g.get g.r
        let g' := g.take
        if c = 0x04 then
          -- save ^D for next time, to make sure the caller gets a 0-byte result
          (if n + 1 < target then g'.untake else g', .ret (target - (n + 1 : ℕ)) dst)
        else if c = 0x0A then (g', .ret (target - n) (dst ++ [c]))
        else readLoop target killed n (dst ++ [c]) g'

/-- One pass of a call of `consoleread`, by a process that is or is not killed. -/
def consoleread (g : Input) (rd : Reader) (killed : Bool) : Input × Outcome :=
  readLoop rd.target killed rd.n rd.dst g

/-! ### The system -/

/-- The console and the processes reading from it. -/
structure Sys (κ : Type) where
  input : Input
  dev : κ
  readers : ℕ → Option Reader

/-- What happens to the system. -/
inductive Event
  /-- An interrupt: `consoleintr` drains these codes. -/
  | intr (codes : List ℕ)
  /-- A process calls `consoleread` for `n` bytes. -/
  | call (p n : ℕ)
  /-- A process in `consoleread` is scheduled and makes a pass. -/
  | pass (p : ℕ) (killed : Bool)
  deriving DecidableEq

/-- What the system answers: its output, and the call that returns. -/
structure Answer where
  out : List Out := []
  ret : Option (ℕ × ℤ × List UInt8) := none

/-- One step of the system, over the `consoleintr` of a version, which works on the
ring and on the version's own variables, and may be undefined. -/
def Sys.step {κ : Type} (intr : Input → κ → List ℕ → Option (Input × κ × List Out))
    (s : Sys κ) : Event → Option (Sys κ × Answer)
  | .intr cs =>
      (intr s.input s.dev cs).map fun p =>
        ({ s with input := p.1, dev := p.2.1 }, { out := p.2.2 })
  | .call p n =>
      match s.readers p with
      | some _ => some (s, {})
      | none => some ({ s with readers := Function.update s.readers p (some ⟨n, n, []⟩) }, {})
  | .pass p killed =>
      match s.readers p with
      | none => some (s, {})
      | some rd =>
        match consoleread s.input rd killed with
        | (g, .ret val dst) =>
            some ({ s with input := g, readers := Function.update s.readers p none },
              { ret := some (p, val, dst) })
        | (g, .sleep rd') =>
            some ({ s with input := g, readers := Function.update s.readers p (some rd') }, {})

/-- The system at boot. -/
def Sys.boot {κ : Type} (dev : κ) : Sys κ := ⟨Input.boot, dev, fun _ => none⟩

section Step

variable {κ : Type} {intr : Input → κ → List ℕ → Option (Input × κ × List Out)} {s : Sys κ}
  {p : ℕ} {rd : Reader} {g : Input}

theorem Sys.step_intr {cs : List ℕ} {q : Input × κ × List Out}
    (h : intr s.input s.dev cs = some q) :
    s.step intr (.intr cs) = some ({ s with input := q.1, dev := q.2.1 }, { out := q.2.2 }) := by
  rw [Sys.step, h]
  rfl

theorem Sys.step_call_busy {n : ℕ} (h : s.readers p = some rd) :
    s.step intr (.call p n) = some (s, {}) := by
  simp only [Sys.step, h]

theorem Sys.step_call_free {n : ℕ} (h : s.readers p = none) :
    s.step intr (.call p n) =
      some ({ s with readers := Function.update s.readers p (some ⟨n, n, []⟩) }, {}) := by
  simp only [Sys.step, h]

theorem Sys.step_pass_none {killed : Bool} (h : s.readers p = none) :
    s.step intr (.pass p killed) = some (s, {}) := by
  simp only [Sys.step, h]

theorem Sys.step_pass_ret {killed : Bool} {val : ℤ} {dst : List UInt8}
    (h : s.readers p = some rd) (hread : consoleread s.input rd killed = (g, .ret val dst)) :
    s.step intr (.pass p killed) =
      some ({ s with input := g, readers := Function.update s.readers p none },
        { ret := some (p, val, dst) }) := by
  simp only [Sys.step, h, hread]

theorem Sys.step_pass_sleep {killed : Bool} {rd' : Reader} (h : s.readers p = some rd)
    (hread : consoleread s.input rd killed = (g, .sleep rd')) :
    s.step intr (.pass p killed) =
      some ({ s with input := g, readers := Function.update s.readers p (some rd') }, {}) := by
  simp only [Sys.step, h, hread]

end Step

/-! ### The index invariant -/

theorem ok_readLoop (target : ℕ) (killed : Bool) :
    ∀ (n : ℕ) (dst : List UInt8) {g : Input}, g.Ok → (readLoop target killed n dst g).1.Ok := by
  intro n
  induction n with
  | zero => intro dst g h; exact h
  | succ n ih =>
    intro dst g h
    unfold readLoop
    split
    · split <;> exact h
    · next hne =>
      have htake : g.take.Ok := h.take hne
      dsimp only
      split
      · rw [Input.untake_take]
        dsimp only
        split
        · exact h
        · exact htake
      · split
        · exact htake
        · exact ih _ htake

theorem ok_consoleread {g : Input} (h : g.Ok) (rd : Reader) (killed : Bool) :
    (consoleread g rd killed).1.Ok := ok_readLoop _ _ _ _ h

/-- A step keeps the index invariant if the version's `consoleintr` does. -/
theorem ok_step {κ : Type} {intr : Input → κ → List ℕ → Option (Input × κ × List Out)}
    {s : Sys κ} {ev : Event} {p : Sys κ × Answer} (h : s.input.Ok)
    (hintr : ∀ cs q, ev = .intr cs → intr s.input s.dev cs = some q → q.1.Ok)
    (hp : s.step intr ev = some p) : p.1.input.Ok := by
  cases ev with
  | intr cs =>
    obtain ⟨q, hq, rfl⟩ := Option.map_eq_some_iff.mp hp
    exact hintr cs q rfl hq
  | call p' n =>
    cases hrd : s.readers p' with
    | none => rw [Sys.step_call_free hrd] at hp; cases hp; exact h
    | some rd => rw [Sys.step_call_busy hrd] at hp; cases hp; exact h
  | pass p' killed =>
    cases hrd : s.readers p' with
    | none => rw [Sys.step_pass_none hrd] at hp; cases hp; exact h
    | some rd =>
      have hok := ok_consoleread h rd killed
      rcases hread : consoleread s.input rd killed with ⟨g, ⟨val, dst⟩ | rd'⟩
      · rw [Sys.step_pass_ret hrd hread] at hp
        cases hp
        rw [hread] at hok
        exact hok
      · rw [Sys.step_pass_sleep hrd hread] at hp
        cases hp
        rw [hread] at hok
        exact hok

end Console
end Xv6
