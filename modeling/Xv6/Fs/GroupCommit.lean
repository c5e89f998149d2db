import Xv6.Fs.Log
import Xv6.Lib.Machine

/-!
# Group commit

The log of `log.c` is shared: any number of processes run file-system operations, each
between `begin_op` and `end_op`, and the last one to end commits for all of them.  The
schedule is the input: it says which process takes its next step, and which step when the
process has a choice.

* `CommitPc`, `Phase`, `State` — where a process is, and what `struct log` holds.
* `beginOp`, `endOp`, `commit`, `step` — the functions, a step at a time.
* `step_cases`, `step_eq_panic` — all that a step can do, and when it panics.
* `Inv`, `inv_step` — **the invariant**, kept by every step.
-/

namespace Xv6
namespace GroupCommit

open Log

/-- `MAXOPBLOCKS`. -/
def maxOpBlocks : ℕ := 10

/-- Where a process is in `commit` and in the end of `end_op`; a loop is at its `tail`. -/
inductive CommitPc
  | entry
  | writeLog (tail : ℕ)
  | writeHead
  | installTrans (tail : ℕ)
  | clear
  | eraseHead
  | finish
  deriving DecidableEq

/-- Where a process is: outside, between `begin_op` and `end_op`, or committing. -/
inductive Phase
  | idle
  | inOp
  | committing (pc : CommitPc)
  deriving DecidableEq

/-- `struct log`, and where the processes are. -/
structure State (P : Type*) where
  outstanding : ℕ
  committing : Bool
  lh : List UInt32
  phase : P → Phase

/-- What a process may do next. -/
inductive Action
  | beginOp
  | logWrite (b : UInt32)
  | endOp
  | commit
  deriving DecidableEq

/-- What a step has done. -/
inductive Event (P : Type*)
  /-- `begin_op` went to sleep. -/
  | slept (p : P)
  | begun (p : P)
  | logged (p : P) (b : UInt32)
  | ended (p : P)
  /-- `write_head`. -/
  | head (bs : List UInt32)
  /-- Another step of `commit`. -/
  | commit
  deriving DecidableEq

/-- Why a step is not taken. -/
inductive Stop
  | panic (msg : String)
  /-- The process is at another place of its code. -/
  | elsewhere
  deriving DecidableEq

variable {P : Type*} [DecidableEq P]

/-- The process `p` goes to another place. -/
def State.goto (s : State P) (p : P) (φ : Phase) : State P :=
  { s with phase := Function.update s.phase p φ }

@[simp] theorem State.goto_outstanding (s : State P) (p : P) (φ : Phase) :
    (s.goto p φ).outstanding = s.outstanding := rfl

@[simp] theorem State.goto_committing (s : State P) (p : P) (φ : Phase) :
    (s.goto p φ).committing = s.committing := rfl

@[simp] theorem State.goto_lh (s : State P) (p : P) (φ : Phase) : (s.goto p φ).lh = s.lh := rfl

@[simp] theorem State.goto_phase_self (s : State P) (p : P) (φ : Phase) :
    (s.goto p φ).phase p = φ := Function.update_self _ _ _

theorem State.goto_phase_of_ne (s : State P) {p q : P} (φ : Phase) (h : q ≠ p) :
    (s.goto p φ).phase q = s.phase q := Function.update_of_ne h _ _

/-! ### The code -/

/-- `begin_op`, once around its loop. -/
def beginOp (p : P) (s : State P) : State P × Event P :=
  if s.committing then (s, .slept p)
  else if logSize < s.lh.length + (s.outstanding + 1) * maxOpBlocks then (s, .slept p)
  else ({ s with outstanding := s.outstanding + 1 }.goto p .inOp, .begun p)

/-- `end_op`, up to `commit`. -/
def endOp (p : P) (s : State P) : Except Stop (State P × Event P) :=
  if s.committing then .error (.panic "log.committing")
  else if s.outstanding - 1 = 0 then
    .ok ({ s with outstanding := 0, committing := true }.goto p (.committing .entry), .ended p)
  else .ok ({ s with outstanding := s.outstanding - 1 }.goto p .idle, .ended p)

/-- `log_write`. -/
def write (size : ℕ) (p : P) (b : UInt32) (s : State P) : Except Stop (State P × Event P) :=
  match logWrite size s.outstanding s.lh b with
  | .error msg => .error (.panic msg)
  | .ok bs => .ok ({ s with lh := bs }, .logged p b)

/-- `commit` and the end of `end_op`, a step at a time. -/
def commit (p : P) (s : State P) : CommitPc → State P × Event P
  | .entry =>
      (s.goto p (.committing (if 0 < s.lh.length then .writeLog 0 else .finish)), .commit)
  | .writeLog tail =>
      (s.goto p (.committing (if tail < s.lh.length then .writeLog (tail + 1) else .writeHead)),
        .commit)
  | .writeHead => (s.goto p (.committing (.installTrans 0)), .head s.lh)
  | .installTrans tail =>
      (s.goto p (.committing (if tail < s.lh.length then .installTrans (tail + 1) else .clear)),
        .commit)
  | .clear => ({ s with lh := [] }.goto p (.committing .eraseHead), .commit)
  | .eraseHead => (s.goto p (.committing .finish), .head s.lh)
  | .finish => ({ s with committing := false }.goto p .idle, .commit)

/-- The process `p` takes a step. -/
def step (size : ℕ) (s : State P) (p : P) : Action → Except Stop (State P × Event P)
  | .beginOp => if s.phase p = .idle then .ok (beginOp p s) else .error .elsewhere
  | .logWrite b => if s.phase p = .inOp then write size p b s else .error .elsewhere
  | .endOp => if s.phase p = .inOp then endOp p s else .error .elsewhere
  | .commit =>
      match s.phase p with
      | .committing pc => .ok (commit p s pc)
      | _ => .error .elsewhere

/-- The step as part of a run. -/
def next (size : ℕ) (s : State P) (i : P × Action) : Option (State P × Event P) :=
  (step size s i.1 i.2).toOption

/-- The log after `initlog`. -/
def boot : State P := ⟨0, false, [], fun _ => .idle⟩

theorem toOption_eq_some {ε α : Type*} {x : Except ε α} {a : α} :
    x.toOption = some a ↔ x = .ok a := by
  cases x with
  | error e => simp [Except.toOption]
  | ok b => simp [Except.toOption]

theorem next_eq_some {size : ℕ} {s : State P} {i : P × Action} {r : State P × Event P} :
    next size s i = some r ↔ step size s i.1 i.2 = .ok r :=
  toOption_eq_some

/-! ### What a step does -/

/-- `begin_op` sleeps, or starts an operation. -/
theorem beginOp_cases (p : P) (s : State P) :
    beginOp p s = (s, .slept p) ∨
      (s.committing = false ∧
        beginOp p s = ({ s with outstanding := s.outstanding + 1 }.goto p .inOp, .begun p)) := by
  rw [beginOp]
  cases hc : s.committing with
  | true => exact .inl rfl
  | false =>
    rw [if_neg Bool.false_ne_true]
    split
    · exact .inl rfl
    · exact .inr ⟨rfl, rfl⟩

omit [DecidableEq P] in
/-- `log_write` adds the block, where it does not panic. -/
theorem write_eq_ok {size : ℕ} {p : P} {b : UInt32} {s : State P} {r : State P × Event P} :
    write size p b s = .ok r ↔
      s.lh.length < logSize ∧ (s.lh.length : ℤ) < (size : ℤ) - 1 ∧ 1 ≤ s.outstanding ∧
        r = ({ s with lh := if b ∈ s.lh then s.lh else s.lh ++ [b] }, .logged p b) := by
  rw [write, logWrite]
  by_cases hroom : logSize ≤ s.lh.length ∨ (size : ℤ) - 1 ≤ s.lh.length
  · rw [if_pos hroom]
    simp only [reduceCtorEq, false_iff]
    omega
  · rw [if_neg hroom]
    by_cases hout : s.outstanding < 1
    · rw [if_pos hout]
      simp only [reduceCtorEq, false_iff]
      omega
    · rw [if_neg hout]
      simp only [Except.ok.injEq]
      constructor
      · rintro rfl
        exact ⟨by omega, by omega, by omega, rfl⟩
      · rintro ⟨-, -, -, rfl⟩
        rfl

/-- `end_op` ends the operation, and starts a commit if it was the last. -/
theorem endOp_cases {p : P} {s : State P} {r : State P × Event P} (h : endOp p s = .ok r) :
    s.committing = false ∧
      ((s.outstanding - 1 = 0 ∧ r = ({ s with outstanding := 0, committing := true }.goto p
          (.committing .entry), .ended p)) ∨
        r = ({ s with outstanding := s.outstanding - 1 }.goto p .idle, .ended p)) := by
  rw [endOp] at h
  cases hc : s.committing with
  | true =>
    rw [hc, if_pos rfl] at h
    contradiction
  | false =>
    rw [hc, if_neg Bool.false_ne_true] at h
    split at h
    · next hlast => exact ⟨rfl, .inl ⟨hlast, (Except.ok.inj h).symm⟩⟩
    · exact ⟨rfl, .inr (Except.ok.inj h).symm⟩

omit [DecidableEq P] in
/-- When `log_write` panics. -/
theorem write_eq_panic {size : ℕ} {p : P} {b : UInt32} {s : State P} {msg : String} :
    write size p b s = .error (.panic msg) ↔
      ((logSize ≤ s.lh.length ∨ (size : ℤ) - 1 ≤ s.lh.length) ∧ msg = "too big a transaction") ∨
        (¬ (logSize ≤ s.lh.length ∨ (size : ℤ) - 1 ≤ s.lh.length) ∧ s.outstanding < 1 ∧
          msg = "log_write outside of trans") := by
  rw [write, logWrite]
  by_cases hfull : logSize ≤ s.lh.length ∨ (size : ℤ) - 1 ≤ s.lh.length
  · rw [if_pos hfull]
    simp only [hfull, not_true_eq_false, false_and, or_false, true_and, Except.error.injEq,
      Stop.panic.injEq]
    exact eq_comm
  · rw [if_neg hfull]
    by_cases hout : s.outstanding < 1
    · rw [if_pos hout]
      simp only [hfull, hout, not_false_eq_true, false_and, false_or, true_and,
        Except.error.injEq, Stop.panic.injEq]
      exact eq_comm
    · rw [if_neg hout]
      simp only [hfull, hout, false_and, and_false, or_self, reduceCtorEq]

/-- **Where a step panics**: in `log_write`, or in `end_op` during a commit. -/
theorem step_eq_panic {size : ℕ} {s : State P} {p : P} {a : Action} {msg : String} :
    step size s p a = .error (.panic msg) ↔ s.phase p = .inOp ∧
      ((∃ b, a = .logWrite b ∧ write size p b s = .error (.panic msg)) ∨
        (a = .endOp ∧ s.committing = true ∧ msg = "log.committing")) := by
  cases a with
  | beginOp =>
    rw [step]
    split <;> simp
  | logWrite b =>
    rw [step]
    split <;> simp [*]
  | endOp =>
    rw [step, endOp]
    split
    · next hp =>
      cases s.committing with
      | true => simp [hp, eq_comm]
      | false =>
        rw [if_neg Bool.false_ne_true]
        split <;> simp
    · next hp => simp [hp]
  | commit =>
    rw [step]
    split <;> simp

/-- **What a step does**: all that it can do, with where the process is. -/
theorem step_cases {size : ℕ} {s : State P} {p : P} {a : Action} {r : State P × Event P}
    (h : step size s p a = .ok r) :
    r = (s, .slept p) ∨
      (s.phase p = .idle ∧ s.committing = false ∧
        r = ({ s with outstanding := s.outstanding + 1 }.goto p .inOp, .begun p)) ∨
      (∃ b, s.phase p = .inOp ∧ a = .logWrite b ∧ write size p b s = .ok r) ∨
      (s.phase p = .inOp ∧ s.committing = false ∧ s.outstanding - 1 = 0 ∧
        r = ({ s with outstanding := 0, committing := true }.goto p (.committing .entry),
          .ended p)) ∨
      (s.phase p = .inOp ∧ s.committing = false ∧
        r = ({ s with outstanding := s.outstanding - 1 }.goto p .idle, .ended p)) ∨
      ∃ pc, s.phase p = .committing pc ∧ r = commit p s pc := by
  cases a with
  | beginOp =>
    rw [step] at h
    split at h
    · next hphase =>
      obtain rfl := Except.ok.inj h
      exact (beginOp_cases p s).imp id fun hbegun => .inl ⟨hphase, hbegun⟩
    · contradiction
  | logWrite b =>
    rw [step] at h
    split at h
    · next hphase => exact .inr (.inr (.inl ⟨b, hphase, rfl, h⟩))
    · contradiction
  | endOp =>
    rw [step] at h
    split at h
    · next hphase =>
      obtain ⟨hc, ⟨hlast, hr⟩ | hr⟩ := endOp_cases h
      · exact .inr (.inr (.inr (.inl ⟨hphase, hc, hlast, hr⟩)))
      · exact .inr (.inr (.inr (.inr (.inl ⟨hphase, hc, hr⟩))))
    · contradiction
  | commit =>
    rw [step] at h
    split at h
    · next pc hphase =>
      exact .inr (.inr (.inr (.inr (.inr ⟨pc, hphase, (Except.ok.inj h).symm⟩))))
    · contradiction

/-! ### The invariant -/

section Invariant

variable [Fintype P]

/-- The processes that are in an operation. -/
def State.ops (s : State P) : Finset P := Finset.univ.filter fun p => s.phase p = .inOp

omit [DecidableEq P] in
theorem State.mem_ops {s : State P} {p : P} : p ∈ s.ops ↔ s.phase p = .inOp := by
  simp [State.ops]

theorem State.ops_goto_inOp (s : State P) (p : P) :
    (s.goto p .inOp).ops = insert p s.ops := by
  ext q
  rw [Finset.mem_insert, State.mem_ops, State.mem_ops]
  rcases eq_or_ne q p with rfl | hne
  · simp
  · rw [State.goto_phase_of_ne _ _ hne]
    simp [hne]

theorem State.ops_goto (s : State P) (p : P) {φ : Phase} (h : φ ≠ .inOp) :
    (s.goto p φ).ops = s.ops.erase p := by
  ext q
  rw [Finset.mem_erase, State.mem_ops, State.mem_ops]
  rcases eq_or_ne q p with rfl | hne
  · simp [h]
  · rw [State.goto_phase_of_ne _ _ hne]
    simp [hne]

/-- **The invariant.**  `outstanding` counts the operations; a commit runs alone, and
exactly while `committing` is set; the logged blocks differ and fit in the log. -/
structure Inv (size : ℕ) (s : State P) : Prop where
  outstanding : s.outstanding = s.ops.card
  alone : s.committing = true → s.outstanding = 0
  running : ∀ p pc, s.phase p = .committing pc → s.committing = true
  unique : ∀ p q pc pc', s.phase p = .committing pc → s.phase q = .committing pc' → p = q
  nodup : s.lh.Nodup
  length_le : s.lh.length ≤ logSize
  fits : ∀ tail < s.lh.length, tail + 1 < size
  cleared : ∀ p, s.phase p = .committing .eraseHead ∨ s.phase p = .committing .finish → s.lh = []

omit [DecidableEq P] in
/-- In an operation there is no commit. -/
theorem Inv.not_committing {size : ℕ} {s : State P} (h : Inv size s) {p : P}
    (hp : s.phase p = .inOp) : s.committing = false := by
  cases hc : s.committing with
  | false => rfl
  | true =>
    have hcard := h.outstanding
    rw [h.alone hc] at hcard
    exact absurd (State.mem_ops.mpr hp) (Finset.card_eq_zero.mp hcard.symm ▸ Finset.notMem_empty p)

omit [DecidableEq P] in
/-- Nor is any process in `commit`. -/
theorem Inv.not_running {size : ℕ} {s : State P} (h : Inv size s)
    (hc : s.committing = false) (q : P) (pc : CommitPc) : s.phase q ≠ .committing pc := by
  intro hq
  rw [h.running q pc hq] at hc
  contradiction

omit [DecidableEq P] in
theorem inv_boot (size : ℕ) : Inv size (boot : State P) where
  outstanding := by simp [boot, State.ops]
  alone := by simp [boot]
  running := by simp [boot]
  unique := by simp [boot]
  nodup := List.nodup_nil
  length_le := Nat.zero_le _
  fits := by simp [boot]
  cleared := by simp [boot]

omit [DecidableEq P] in
/-- A state in which no process commits keeps the rest of the invariant. -/
theorem inv_of_not_running {size : ℕ} {s : State P} (hrun : ∀ p pc, s.phase p ≠ .committing pc)
    (hout : s.outstanding = s.ops.card) (halone : s.committing = true → s.outstanding = 0)
    (hnodup : s.lh.Nodup) (hlen : s.lh.length ≤ logSize)
    (hfits : ∀ tail < s.lh.length, tail + 1 < size) : Inv size s where
  outstanding := hout
  alone := halone
  running p pc hp := absurd hp (hrun p pc)
  unique p _ pc _ hp := absurd hp (hrun p pc)
  nodup := hnodup
  length_le := hlen
  fits := hfits
  cleared p hp := (hp.elim (hrun p _) (hrun p _)).elim

omit [Fintype P] in
/-- A process that goes elsewhere than to `commit` leaves no other one there. -/
theorem not_running_goto {s : State P} {p : P}
    (hrun : ∀ q, q ≠ p → ∀ pc, s.phase q ≠ .committing pc)
    {φ : Phase} (hφ : ∀ pc, φ ≠ .committing pc) (q : P) (pc : CommitPc) :
    (s.goto p φ).phase q ≠ .committing pc := by
  rcases eq_or_ne q p with rfl | hne
  · rw [State.goto_phase_self]
    exact hφ pc
  · rw [State.goto_phase_of_ne _ _ hne]
    exact hrun q hne pc

theorem inv_begun {size : ℕ} {s : State P} (h : Inv size s) {p : P} (hp : s.phase p = .idle)
    (hc : s.committing = false) :
    Inv size ({ s with outstanding := s.outstanding + 1 }.goto p .inOp) := by
  refine inv_of_not_running (not_running_goto (fun q _ => h.not_running hc q) (by simp)) ?_
    (by simp [hc]) h.nodup h.length_le h.fits
  have hmem : p ∉ s.ops := fun hmem => by
    rw [State.mem_ops.mp hmem] at hp
    contradiction
  rw [State.ops_goto_inOp]
  exact (congrArg (· + 1) h.outstanding).trans (Finset.card_insert_of_notMem hmem).symm

omit [DecidableEq P] in
theorem inv_write {size : ℕ} {s : State P} (h : Inv size s) {p : P} (hp : s.phase p = .inOp)
    {b : UInt32} {r : State P × Event P} (hr : write size p b s = .ok r) : Inv size r.1 := by
  obtain ⟨hlog, hsize, -, rfl⟩ := write_eq_ok.mp hr
  have hrun := h.not_running (h.not_committing hp)
  by_cases hmem : b ∈ s.lh
  · simp only [hmem, if_true]
    exact h
  · simp only [hmem, if_false]
    refine ⟨h.outstanding, h.alone, h.running, h.unique, ?_, ?_, ?_,
      fun q hq => (hq.elim (hrun q _) (hrun q _)).elim⟩
    · rw [List.nodup_append]
      refine ⟨h.nodup, List.nodup_singleton b, fun a ha a' ha' heq => hmem ?_⟩
      rw [← List.mem_singleton.mp ha', ← heq]
      exact ha
    · rw [List.length_append, List.length_singleton]
      exact hlog
    · intro tail htail
      rw [List.length_append, List.length_singleton] at htail
      omega

/-- An operation less. -/
theorem card_ops_ended {size : ℕ} {s : State P} (h : Inv size s) {p : P}
    (hp : s.phase p = .inOp) {φ : Phase} (hφ : φ ≠ .inOp) :
    (s.goto p φ).ops.card = s.outstanding - 1 := by
  rw [State.ops_goto _ _ hφ, Finset.card_erase_of_mem (State.mem_ops.mpr hp), h.outstanding]

theorem inv_ended {size : ℕ} {s : State P} (h : Inv size s) {p : P} (hp : s.phase p = .inOp)
    (hc : s.committing = false) :
    Inv size ({ s with outstanding := s.outstanding - 1 }.goto p .idle) :=
  inv_of_not_running (not_running_goto (fun q _ => h.not_running hc q) (by simp))
    (card_ops_ended h hp (by simp)).symm (by simp [hc]) h.nodup h.length_le h.fits

theorem inv_entry {size : ℕ} {s : State P} (h : Inv size s) {p : P} (hp : s.phase p = .inOp)
    (hc : s.committing = false) (hlast : s.outstanding - 1 = 0) :
    Inv size ({ s with outstanding := 0, committing := true }.goto p (.committing .entry)) := by
  have hphase : ∀ q pc, ({ s with outstanding := 0, committing := true }.goto p
      (.committing .entry)).phase q = .committing pc → q = p ∧ pc = .entry := by
    intro q pc hq
    rcases eq_or_ne q p with rfl | hne
    · rw [State.goto_phase_self] at hq
      cases hq
      exact ⟨rfl, rfl⟩
    · rw [State.goto_phase_of_ne _ _ hne] at hq
      exact absurd hq (h.not_running hc q pc)
  refine ⟨?_, fun _ => rfl, fun _ _ _ => rfl,
    fun q q' pc pc' hq hq' => (hphase q pc hq).1.trans (hphase q' pc' hq').1.symm,
    h.nodup, h.length_le, h.fits, ?_⟩
  · exact (hlast.symm.trans (card_ops_ended h hp (by simp)).symm)
  · rintro q (hq | hq) <;> cases (hphase q _ hq).2

/-- The committing process goes on. -/
theorem inv_goto {size : ℕ} {s : State P} (h : Inv size s) {p : P} {pc pc' : CommitPc}
    (hp : s.phase p = .committing pc)
    (hclear : pc' = .eraseHead ∨ pc' = .finish → s.lh = []) :
    Inv size (s.goto p (.committing pc')) := by
  have hphase : ∀ q pc, (s.goto p (.committing pc')).phase q = .committing pc →
      q = p ∧ pc = pc' := by
    intro q pc₁ hq
    rcases eq_or_ne q p with rfl | hne
    · rw [State.goto_phase_self] at hq
      cases hq
      exact ⟨rfl, rfl⟩
    · rw [State.goto_phase_of_ne _ _ hne] at hq
      exact absurd (h.unique q p pc₁ pc hq hp) hne
  refine ⟨?_, h.alone, fun q pc₁ _ => h.running p pc hp,
    fun q q' pc₁ pc₂ hq hq' => (hphase q pc₁ hq).1.trans (hphase q' pc₂ hq').1.symm,
    h.nodup, h.length_le, h.fits, ?_⟩
  · rw [State.ops_goto _ _ (by simp), Finset.erase_eq_of_notMem]
    · exact h.outstanding
    · exact fun hmem => by rw [State.mem_ops.mp hmem] at hp; contradiction
  · rintro q (hq | hq)
    · exact hclear (.inl (hphase q _ hq).2.symm)
    · exact hclear (.inr (hphase q _ hq).2.symm)

theorem inv_commit {size : ℕ} {s : State P} (h : Inv size s) {p : P} {pc : CommitPc}
    (hp : s.phase p = .committing pc) : Inv size (commit p s pc).1 := by
  cases pc with
  | entry =>
    rw [commit]
    split
    · exact inv_goto h hp (by simp)
    · next hlen => exact inv_goto h hp fun _ => List.eq_nil_of_length_eq_zero (by omega)
  | writeLog tail =>
    rw [commit]
    split <;> exact inv_goto h hp (by simp)
  | writeHead => exact inv_goto h hp (by simp)
  | installTrans tail =>
    rw [commit]
    split <;> exact inv_goto h hp (by simp)
  | clear =>
    have hclear : Inv size { s with lh := [] } :=
      ⟨h.outstanding, h.alone, h.running, h.unique, List.nodup_nil, Nat.zero_le _, by simp,
        fun _ _ => rfl⟩
    exact inv_goto hclear hp fun _ => rfl
  | eraseHead => exact inv_goto h hp fun _ => h.cleared p (.inl hp)
  | finish =>
    have hother : ∀ q, q ≠ p → ∀ pc, s.phase q ≠ .committing pc := fun q hne pc hq =>
      hne (h.unique q p pc _ hq hp)
    rw [commit]
    refine inv_of_not_running (not_running_goto hother (by simp)) ?_ (by simp)
      h.nodup h.length_le h.fits
    rw [State.ops_goto _ _ (by simp), Finset.erase_eq_of_notMem]
    · exact h.outstanding
    · intro hmem
      have hop : s.phase p = .inOp := State.mem_ops.mp hmem
      rw [hop] at hp
      contradiction

/-- **Every step keeps the invariant.** -/
theorem inv_step {size : ℕ} {s : State P} (h : Inv size s) {p : P} {a : Action}
    {r : State P × Event P} (hr : step size s p a = .ok r) : Inv size r.1 := by
  obtain rfl | ⟨hp, hc, rfl⟩ | ⟨b, hp, -, hw⟩ | ⟨hp, hc, hlast, rfl⟩ | ⟨hp, hc, rfl⟩ |
    ⟨pc, hp, rfl⟩ := step_cases hr
  · exact h
  · exact inv_begun h hp hc
  · exact inv_write h hp hw
  · exact inv_entry h hp hc hlast
  · exact inv_ended h hp hc
  · exact inv_commit h hp

/-- The states of a running system: those that some schedule leads to. -/
theorem inv_run {size : ℕ} {is : List (P × Action)} {r : State P × List (Event P)}
    (hr : Machine.run (next size) boot is = some r) : Inv size r.1 :=
  Machine.run_invariant (Inv size) (P := fun _ _ => True)
    (fun _ _ _ h _ hs => inv_step h (next_eq_some.mp hs)) is boot r (inv_boot size)
    (Machine.AlongRun.of_forall _ fun _ _ _ => trivial) hr

end Invariant

end GroupCommit
end Xv6
