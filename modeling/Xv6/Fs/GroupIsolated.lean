import Xv6.Fs.GroupCommit

/-!
# Isolation of transactions

A commit and the operations do not overlap, so what an operation logs is committed together.
This is about runs, so it is stated on the events of a run: `begun` and `ended` mark an
operation, `logged` is a `log_write` in it, and `head` the writing of a header.

* `Pending` — a block is logged, and no header that names it is on the disk yet.
* `pending_of_logged`, `pending_step` — `log_write` makes a block pending, and it stays so
  up to the header that names it.
* `group_commit_isolated` — **operations and commits do not overlap.**
-/

namespace Xv6
namespace GroupCommit

open Log

variable {P : Type*} [DecidableEq P] [Fintype P]

/-- A commit that has not come to its `write_head`. -/
def CommitPc.Before : CommitPc → Prop
  | .entry | .writeLog _ | .writeHead => True
  | _ => False

/-- The block `b` is logged, and no header that names it has been written. -/
def Pending (b : UInt32) (s : State P) : Prop :=
  b ∈ s.lh ∧ ∀ p pc, s.phase p = .committing pc → pc.Before

/-- While a process is in an operation no header is written, and its blocks stay logged. -/
theorem step_of_inOp {size : ℕ} {s : State P} (h : Inv size s) {p q : P}
    (hp : s.phase p = .inOp) {a : Action} {r : State P × Event P}
    (hr : step size s q a = .ok r) :
    (∀ bs, r.2 ≠ .head bs) ∧ (r.2 = .ended p ∨ r.1.phase p = .inOp) := by
  obtain rfl | ⟨hq, -, rfl⟩ | ⟨b, hq, -, hw⟩ | ⟨-, -, -, rfl⟩ | ⟨-, -, rfl⟩ | ⟨pc, hq, rfl⟩ :=
    step_cases hr
  · exact ⟨by simp, .inr hp⟩
  · have hne : p ≠ q := fun heq => by rw [heq, hq] at hp; contradiction
    exact ⟨by simp, .inr ((State.goto_phase_of_ne _ _ hne).trans hp)⟩
  · obtain ⟨-, -, -, rfl⟩ := write_eq_ok.mp hw
    exact ⟨by simp, .inr hp⟩
  · refine ⟨by simp, ?_⟩
    rcases eq_or_ne p q with rfl | hne
    · exact .inl rfl
    · exact .inr ((State.goto_phase_of_ne _ _ hne).trans hp)
  · refine ⟨by simp, ?_⟩
    rcases eq_or_ne p q with rfl | hne
    · exact .inl rfl
    · exact .inr ((State.goto_phase_of_ne _ _ hne).trans hp)
  · exact absurd hq (h.not_running (h.not_committing hp) q pc)

omit [Fintype P] in
/-- `begin_op` returns into an operation. -/
theorem phase_of_begun {size : ℕ} {s : State P} {p q : P} {a : Action} {s' : State P}
    (hr : step size s q a = .ok (s', .begun p)) : s'.phase p = .inOp := by
  obtain heq | ⟨-, -, heq⟩ | ⟨b, -, -, hw⟩ | ⟨-, -, -, heq⟩ | ⟨-, -, heq⟩ | ⟨pc, -, heq⟩ :=
    step_cases hr
  · cases heq
  · cases heq
    exact State.goto_phase_self _ _ _
  · cases (write_eq_ok.mp hw).2.2.2
  · cases heq
  · cases heq
  · cases pc <;> cases heq

/-- A block is pending when `log_write` returns. -/
theorem pending_of_logged {size : ℕ} {s : State P} (h : Inv size s) {p q : P} {a : Action}
    {b : UInt32} {s' : State P} (hr : step size s q a = .ok (s', .logged p b)) :
    Pending b s' := by
  obtain heq | ⟨-, -, heq⟩ | ⟨b', hq, -, hw⟩ | ⟨-, -, -, heq⟩ | ⟨-, -, heq⟩ | ⟨pc, -, heq⟩ :=
    step_cases hr
  · cases heq
  · cases heq
  · cases (write_eq_ok.mp hw).2.2.2
    refine ⟨?_, fun q' pc hq' => absurd hq' (h.not_running (h.not_committing hq) q' pc)⟩
    dsimp only
    split
    · assumption
    · exact List.mem_append_right _ (List.mem_singleton_self _)
  · cases heq
  · cases heq
  · cases pc <;> cases heq

omit [Fintype P] in
/-- A commit that goes on from before its `write_head` to before it. -/
theorem Pending.goto {b : UInt32} {s : State P} (h : Pending b s) (p : P) {φ : Phase}
    (hφ : ∀ pc, φ = .committing pc → pc.Before) : Pending b (s.goto p φ) := by
  refine ⟨h.1, fun q pc hq => ?_⟩
  rcases eq_or_ne q p with rfl | hne
  · rw [State.goto_phase_self] at hq
    exact hφ pc hq
  · rw [State.goto_phase_of_ne _ _ hne] at hq
    exact h.2 q pc hq

omit [Fintype P] in
/-- **A pending block stays so up to the header that names it.** -/
theorem pending_step {size : ℕ} {s : State P} {b : UInt32} (h : Pending b s) {q : P} {a : Action}
    {r : State P × Event P} (hr : step size s q a = .ok r) :
    (r.2 = .head s.lh ∧ b ∈ s.lh) ∨ (∀ bs, r.2 ≠ .head bs) ∧ Pending b r.1 := by
  obtain rfl | ⟨-, -, rfl⟩ | ⟨b', -, -, hw⟩ | ⟨-, -, -, rfl⟩ | ⟨-, -, rfl⟩ | ⟨pc, hq, rfl⟩ :=
    step_cases hr
  · exact .inr ⟨by simp, h⟩
  · exact .inr ⟨by simp,
      Pending.goto (s := { s with outstanding := s.outstanding + 1 }) h q (by simp)⟩
  · obtain ⟨-, -, -, rfl⟩ := write_eq_ok.mp hw
    refine .inr ⟨by simp, ?_, h.2⟩
    dsimp only
    split
    · exact h.1
    · exact List.mem_append_left _ h.1
  · exact .inr ⟨by simp, Pending.goto (s := { s with outstanding := 0, committing := true }) h q
      (by simp [CommitPc.Before])⟩
  · exact .inr ⟨by simp,
      Pending.goto (s := { s with outstanding := s.outstanding - 1 }) h q (by simp)⟩
  · have hbefore := h.2 q pc hq
    cases pc with
    | entry =>
      refine .inr ⟨by simp [commit], ?_⟩
      rw [commit, if_pos (List.length_pos_of_mem h.1)]
      exact h.goto q (by simp [CommitPc.Before])
    | writeLog tail =>
      refine .inr ⟨by simp [commit], ?_⟩
      rw [commit]
      split <;> exact h.goto q (by simp [CommitPc.Before])
    | writeHead => exact .inl ⟨rfl, h.1⟩
    | installTrans tail => exact hbefore.elim
    | clear => exact hbefore.elim
    | eraseHead => exact hbefore.elim
    | finish => exact hbefore.elim

omit [Fintype P] in
/-- A header is written in `commit`, where the process comes to by itself. -/
theorem committing_of_writeHead {size : ℕ} {s : State P} {p q : P} {a : Action}
    {r : State P × Event P} (hr : step size s q a = .ok r)
    (h : (∃ bs, r.2 = .head bs) ∨
      (r.1.phase p = .committing .writeHead ∧ s.phase p ≠ .committing .writeHead)) :
    ∃ pc, s.phase q = .committing pc := by
  have hgoto : ∀ {s' : State P} {φ : Phase}, (∀ p, s'.phase p = s.phase p) →
      φ ≠ .committing .writeHead →
        ¬ ((s'.goto q φ).phase p = .committing .writeHead ∧
          s.phase p ≠ .committing .writeHead) := by
    rintro s' φ hs hφ ⟨hp, hne⟩
    rcases eq_or_ne p q with rfl | hpq
    · rw [State.goto_phase_self] at hp
      exact hφ hp
    · rw [State.goto_phase_of_ne _ _ hpq, hs] at hp
      exact hne hp
  obtain rfl | ⟨-, -, rfl⟩ | ⟨b', -, -, hw⟩ | ⟨-, -, -, rfl⟩ | ⟨-, -, rfl⟩ | ⟨pc, hq, -⟩ :=
    step_cases hr
  · simp at h
  · exact absurd (h.resolve_left (by simp)) (hgoto (fun _ => rfl) (by simp))
  · obtain ⟨-, -, -, rfl⟩ := write_eq_ok.mp hw
    simp at h
  · exact absurd (h.resolve_left (by simp)) (hgoto (fun _ => rfl) (by simp))
  · exact absurd (h.resolve_left (by simp)) (hgoto (fun _ => rfl) (by simp))
  · exact ⟨pc, hq⟩

/-- A commit ends with no block logged. -/
theorem lh_of_finish {size : ℕ} {s : State P} (h : Inv size s) {q : P} {a : Action}
    {r : State P × Event P} (hr : step size s q a = .ok r) (hc : s.committing = true)
    (hc' : r.1.committing = false) : r.1.lh = [] := by
  obtain rfl | ⟨-, hnot, -⟩ | ⟨b, hq, -, -⟩ | ⟨-, hnot, -, -⟩ | ⟨-, hnot, -⟩ | ⟨pc, hq, rfl⟩ :=
    step_cases hr
  · rw [hc] at hc'
    contradiction
  · rw [hc] at hnot
    contradiction
  · rw [h.not_committing hq] at hc
    contradiction
  · rw [hc] at hnot
    contradiction
  · rw [hc] at hnot
    contradiction
  · cases pc with
    | finish => exact h.cleared q (.inr hq)
    | _ =>
      have hsame : s.committing = false := hc'
      rw [hc] at hsame
      contradiction

/-- A block logged in `mid` is named by the first header written behind `mid`. -/
theorem mem_head_of_logged {size : ℕ} {is : List (P × Action)} {s s' : State P} (h : Inv size s)
    {p : P} {b : UInt32} {bs : List UInt32} {mid post : List (Event P)}
    (hrun : Machine.run (next size) s is = some (s', mid ++ .head bs :: post))
    (hmid : ∀ bs', .head bs' ∉ mid) (hb : .logged p b ∈ mid) : b ∈ bs := by
  obtain ⟨mid₁, mid₂, rfl⟩ := List.append_of_mem hb
  rw [List.append_assoc, List.cons_append] at hrun
  obtain ⟨is₁, is₂, s₁, hrun₁, hrun₂⟩ := Machine.exists_run_of_outputs_append hrun
  have hs₁ : Inv size s₁ :=
    Machine.run_history_invariant (fun s _ => Inv size s)
      (fun _ _ _ _ h hs => inv_step h (next_eq_some.mp hs)) is₁ s [] _ h hrun₁
  obtain ⟨i, is₃, s₂, hlogged, hrun₃⟩ := Machine.exists_step_of_outputs_cons hrun₂
  have hpending := pending_of_logged hs₁ (next_eq_some.mp hlogged)
  obtain ⟨is₄, is₅, s₃, hrun₄, hrun₅⟩ := Machine.exists_run_of_outputs_append hrun₃
  obtain ⟨j, -, s₄, hhead, -⟩ := Machine.exists_step_of_outputs_cons hrun₅
  -- up to the header the block stays pending
  have hkept : (∃ bs', Event.head bs' ∈ mid₂) ∨ Pending b s₃ := by
    refine Machine.run_history_invariant
      (fun s os => (∃ bs', Event.head bs' ∈ os) ∨ Pending b s) ?_ is₄ s₂ [] _ (.inr hpending) hrun₄
    rintro s os i r (⟨bs', hbs'⟩ | hs) hstep
    · exact .inl ⟨bs', List.mem_append_left _ hbs'⟩
    · rcases pending_step hs (next_eq_some.mp hstep) with ⟨heq, -⟩ | ⟨-, hs'⟩
      · exact .inl ⟨s.lh, List.mem_append_right _ (List.mem_singleton.mpr heq.symm)⟩
      · exact .inr hs'
  rcases hkept with ⟨bs', hbs'⟩ | hs₃
  · exact absurd (List.mem_append_right _ (List.mem_cons_of_mem _ hbs')) (hmid bs')
  · rcases pending_step hs₃ (next_eq_some.mp hhead) with ⟨heq, hmem⟩ | ⟨hne, -⟩
    · cases heq
      exact hmem
    · exact absurd rfl (hne bs)

/-- An operation of `p` that has made the events `mid`, and after whose `end_op` come the
events `post`, lies in one transaction: no header is written during it, and the first one
written behind it names all it logged. -/
def OneTransaction (p : P) (mid post : List (Event P)) : Prop :=
  (∀ bs, .head bs ∉ mid) ∧
    ∀ post₁ bs post₂, post = post₁ ++ .head bs :: post₂ → (∀ bs', .head bs' ∉ post₁) →
      ∀ b, .logged p b ∈ mid → b ∈ bs

theorem oneTransaction {size : ℕ} {is : List (P × Action)} {s s' : State P} (h : Inv size s)
    {p : P} {pre mid post : List (Event P)}
    (hrun : Machine.run (next size) s is = some (s', pre ++ .begun p :: (mid ++ .ended p :: post)))
    (hmid : .ended p ∉ mid) : OneTransaction p mid post := by
  obtain ⟨is₁, is₂, s₁, hrun₁, hrun₂⟩ := Machine.exists_run_of_outputs_append hrun
  obtain ⟨i, is₃, s₂, hbegun, hrun₃⟩ := Machine.exists_step_of_outputs_cons hrun₂
  have hinv : ∀ {is : List (P × Action)} {s s' : State P} {os : List (Event P)}, Inv size s →
      Machine.run (next size) s is = some (s', os) → Inv size s' := fun h hrun =>
    Machine.run_history_invariant (fun s _ => Inv size s)
      (fun _ _ _ _ h hs => inv_step h (next_eq_some.mp hs)) _ _ [] _ h hrun
  have hs₁ : Inv size s₁ := hinv h hrun₁
  have hs₂ : Inv size s₂ := inv_step hs₁ (next_eq_some.mp hbegun)
  have hp : s₂.phase p = .inOp := phase_of_begun (next_eq_some.mp hbegun)
  have hhead : ∀ bs, .head bs ∉ mid := by
    obtain ⟨is₄, is₅, s₃, hrun₄, -⟩ := Machine.exists_run_of_outputs_append hrun₃
    -- until `p` ends its operation it is in it, and then no header is written
    have hkept : .ended p ∈ mid ∨ (s₃.phase p = .inOp ∧ ∀ bs, Event.head bs ∉ mid) := by
      refine (Machine.run_history_invariant (fun s os => Inv size s ∧ (Event.ended p ∈ os ∨
        (s.phase p = .inOp ∧ ∀ bs, Event.head bs ∉ os))) ?_ is₄ s₂ [] _
        ⟨hs₂, .inr ⟨hp, by simp⟩⟩ hrun₄).2
      rintro s os i r ⟨hs, hor⟩ hstep
      refine ⟨inv_step hs (next_eq_some.mp hstep), ?_⟩
      rcases hor with hended | ⟨hin, hno⟩
      · exact .inl (List.mem_append_left _ hended)
      · obtain ⟨hne, hr⟩ := step_of_inOp hs hin (next_eq_some.mp hstep)
        refine hr.imp (fun heq => ?_) fun hin' => ⟨hin', fun bs hmem => ?_⟩
        · exact List.mem_append_right _ (List.mem_singleton.mpr heq.symm)
        · rcases List.mem_append.mp hmem with hmem | hmem
          · exact hno bs hmem
          · exact hne bs (List.mem_singleton.mp hmem).symm
    exact (hkept.resolve_left hmid).2
  refine ⟨hhead, ?_⟩
  rintro post₁ bs post₂ rfl hpost b hb
  have hrun₃' : Machine.run (next size) s₂ is₃ =
      some (s', (mid ++ .ended p :: post₁) ++ .head bs :: post₂) := by
    rw [hrun₃]
    simp
  refine mem_head_of_logged hs₂ hrun₃' (fun bs' hmem => ?_) (List.mem_append_left _ hb)
  rcases List.mem_append.mp hmem with hmem | hmem
  · exact hhead bs' hmem
  · cases hmem with
    | tail _ hmem => exact hpost bs' hmem

end GroupCommit
end Xv6
