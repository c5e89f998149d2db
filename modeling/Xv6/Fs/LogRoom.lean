import Xv6.Fs.GroupCommit

/-!
# Room in the log

`begin_op` reserves `MAXOPBLOCKS` blocks for each operation, of the `LOGSIZE` the header has
room for; but `log_write` keeps one block less for them, as `log.size` counts the header's
own.

* `sinceHead`, `opBlocks` — the blocks logged in a transaction, and by an operation.
* `neverTooBig_iff` — **when `log_write` does not panic for want of room.**
* `not_neverTooBig_three` — three operations of `MAXOPBLOCKS` blocks are one too many.
-/

namespace Xv6
namespace GroupCommit

open Log

variable {P : Type*} [DecidableEq P]

/-- The blocks logged since a header was last written. -/
def sinceHead (evs : List (Event P)) : List UInt32 :=
  evs.foldl (fun bs e =>
    match e with
    | .logged _ b => bs ++ [b]
    | .head _ => []
    | _ => bs) []

/-- The blocks that `p` has logged since its last `begin_op`. -/
def opBlocks (p : P) (evs : List (Event P)) : List UInt32 :=
  evs.foldl (fun bs e =>
    match e with
    | .logged q b => if q = p then bs ++ [b] else bs
    | .begun q => if q = p then [] else bs
    | _ => bs) []

/-- The operation of which the step is a part logs at most `MAXOPBLOCKS` different blocks. -/
def WithinOp (_ : State P) (evs : List (Event P)) : P × Action → Prop
  | (p, .logWrite b) => (insert b (opBlocks p evs).toFinset).card ≤ maxOpBlocks
  | _ => True

instance (s : State P) (evs : List (Event P)) : ∀ i, Decidable (WithinOp s evs i)
  | (p, .logWrite b) =>
      inferInstanceAs (Decidable ((insert b (opBlocks p evs).toFinset).card ≤ maxOpBlocks))
  | (_, .beginOp) | (_, .endOp) | (_, .commit) => inferInstanceAs (Decidable True)

/-- The message of a panic. -/
def panicOf {α : Type*} : Except Stop α → Option String
  | .error (.panic msg) => some msg
  | _ => none

/-- The step is not the panic of `log_write` for want of room. -/
def Room (size : ℕ) (s : State P) (_ : List (Event P)) (i : P × Action) : Prop :=
  panicOf (step size s i.1 i.2) ≠ some "too big a transaction"

instance (size : ℕ) (s : State P) (evs : List (Event P)) (i : P × Action) :
    Decidable (Room size s evs i) :=
  inferInstanceAs (Decidable (panicOf (step size s i.1 i.2) ≠ _))

/-- A `log_write` of an operation finds fewer than `LOGSIZE - 1` different blocks logged in
its transaction. -/
def Reserved (s : State P) (evs : List (Event P)) : P × Action → Prop
  | (p, .logWrite _) => s.phase p = .inOp → (sinceHead evs).toFinset.card < logSize - 1
  | _ => True

omit [DecidableEq P] in
theorem sinceHead_concat (evs : List (Event P)) (e : Event P) :
    sinceHead (evs ++ [e]) =
      match e with
      | .logged _ b => sinceHead evs ++ [b]
      | .head _ => []
      | _ => sinceHead evs := by
  rw [sinceHead, List.foldl_append]
  rfl

/-- A commit behind its first `write_head` and before the second. -/
def CommitPc.Installing : CommitPc → Prop
  | .installTrans _ | .clear | .eraseHead => True
  | _ => False

section Room

variable [Fintype P]

/-- `log.lh` has the blocks logged since a header was written, but for a commit that
installs them. -/
structure Records (size : ℕ) (s : State P) (evs : List (Event P)) : Prop where
  inv : Inv size s
  blocks : (∃ p pc, s.phase p = .committing pc ∧ pc.Installing) ∨ ∀ b, b ∈ s.lh ↔ b ∈ sinceHead evs

omit [DecidableEq P] in
theorem records_boot (size : ℕ) : Records size (boot : State P) [] :=
  ⟨inv_boot size, .inr fun _ => Iff.rfl⟩

omit [DecidableEq P] in
/-- Outside an installation the blocks logged are counted by `log.lh.n`. -/
theorem Records.card {size : ℕ} {s : State P} {evs : List (Event P)} (h : Records size s evs)
    {p : P} (hp : s.phase p = .inOp) : (sinceHead evs).toFinset.card = s.lh.length := by
  have hrun := h.inv.not_running (h.inv.not_committing hp)
  rcases h.blocks with ⟨q, pc, hq, -⟩ | hmem
  · exact absurd hq (hrun q pc)
  · rw [← List.toFinset_card_of_nodup h.inv.nodup]
    congr 1
    ext b
    rw [List.mem_toFinset, List.mem_toFinset, hmem]

theorem records_step {size : ℕ} {s : State P} {evs : List (Event P)} (h : Records size s evs)
    {p : P} {a : Action} {r : State P × Event P} (hr : step size s p a = .ok r) :
    Records size r.1 (evs ++ [r.2]) := by
  refine ⟨inv_step h.inv hr, ?_⟩
  -- a step outside `commit` is not taken during an installation
  have hmem : s.committing = false → ∀ b, b ∈ s.lh ↔ b ∈ sinceHead evs := by
    intro hc
    rcases h.blocks with ⟨q, pc, hq, -⟩ | hmem
    · exact absurd hq (h.inv.not_running hc q pc)
    · exact hmem
  obtain rfl | ⟨-, hc, rfl⟩ | ⟨b, hp, -, hw⟩ | ⟨-, hc, -, rfl⟩ | ⟨-, hc, rfl⟩ | ⟨pc, hp, rfl⟩ :=
    step_cases hr
  · rw [sinceHead_concat]
    exact h.blocks
  · rw [sinceHead_concat]
    exact .inr (hmem hc)
  · obtain ⟨-, -, -, rfl⟩ := write_eq_ok.mp hw
    have hlh := hmem (h.inv.not_committing hp)
    rw [sinceHead_concat]
    refine .inr fun b' => ?_
    dsimp only
    split
    · next hb =>
      rw [List.mem_append, List.mem_singleton, hlh]
      constructor
      · exact .inl
      · rintro (hb' | rfl)
        · exact hb'
        · exact (hlh _).mp hb
    · rw [List.mem_append, List.mem_append, hlh]
  · rw [sinceHead_concat]
    exact .inr (hmem hc)
  · rw [sinceHead_concat]
    exact .inr (hmem hc)
  · have hnot : ¬ pc.Installing → ∀ b, b ∈ s.lh ↔ b ∈ sinceHead evs := by
      intro hpc
      rcases h.blocks with ⟨q, pc', hq, hpc'⟩ | hmem
      · obtain rfl := h.inv.unique q p _ _ hq hp
        rw [hq] at hp
        cases hp
        exact absurd hpc' hpc
      · exact hmem
    cases pc with
    | entry => exact .inr (by rw [commit, sinceHead_concat]; exact hnot id)
    | writeLog tail => exact .inr (by rw [commit, sinceHead_concat]; exact hnot id)
    | writeHead => exact .inl ⟨p, _, State.goto_phase_self _ _ _, trivial⟩
    | installTrans tail =>
      refine .inl ⟨p, _, State.goto_phase_self _ _ _, ?_⟩
      split <;> trivial
    | clear => exact .inl ⟨p, _, State.goto_phase_self _ _ _, trivial⟩
    | eraseHead =>
      have hlh : s.lh = [] := h.inv.cleared p (.inl hp)
      refine .inr fun b => ?_
      rw [commit, sinceHead_concat, State.goto_lh, hlh]
    | finish => exact .inr (by rw [commit, sinceHead_concat]; exact hnot id)

theorem room_iff_reserved {s : State P} {evs : List (Event P)} (h : Records logSize s evs)
    (i : P × Action) : Room logSize s evs i ↔ Reserved s evs i := by
  obtain ⟨p, a⟩ := i
  have hpanic : Room logSize s evs (p, a) ↔
      step logSize s p a ≠ .error (.panic "too big a transaction") := by
    rw [Room]
    cases step logSize s p a with
    | error e => cases e <;> simp [panicOf]
    | ok r => simp [panicOf]
  rw [hpanic, Ne, step_eq_panic]
  cases a with
  | logWrite b =>
    rw [Reserved]
    by_cases hp : s.phase p = .inOp
    · simp [hp, write_eq_panic, h.card hp, logSize]
      omega
    · simp [hp]
  | beginOp => simp [Reserved]
  | endOp => simp [Reserved]
  | commit => simp [Reserved]

/-- **When the log has room.**  With `log.size` as `mkfs` writes it, `log_write` does not
panic for want of room in a run exactly if each `log_write` of an operation comes when fewer
than `LOGSIZE - 1` different blocks have been logged in its transaction. -/
theorem neverTooBig_iff (is : List (P × Action)) :
    Machine.AlongHistory (next logSize) (Room logSize) (boot : State P) [] is ↔
      Machine.AlongHistory (next logSize) Reserved boot [] is :=
  Machine.alongHistory_congr (Records logSize)
    (fun _ _ _ _ h hs => records_step h (next_eq_some.mp hs)) (fun _ _ i h => room_iff_reserved h i)
    is boot [] (records_boot logSize)

end Room

/-- Three operations, one block after the other. -/
def threeOps : List (Fin 3 × Action) :=
  [0, 1, 2].map (·, .beginOp) ++
    (List.range 30).map fun i => (Fin.ofNat 3 (i / 10), .logWrite (45 + UInt32.ofNat i))

/-- Three operations of `MAXOPBLOCKS` blocks each are admitted together, and the last of
these blocks finds no room. -/
theorem not_neverTooBig_three :
    ¬ ∀ is : List (Fin 3 × Action),
      Machine.AlongHistory (next logSize) WithinOp boot [] is →
        Machine.AlongHistory (next logSize) (Room logSize) boot [] is := by
  intro h
  exact absurd (h threeOps (by decide +kernel)) (by decide +kernel)

end GroupCommit
end Xv6
