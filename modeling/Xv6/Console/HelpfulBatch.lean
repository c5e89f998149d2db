import Xv6.Console.Helpful

/-!
# Batches of key codes

`consoleintr` of the Helpful console drains all the codes that are there.  What it
does with codes that arrive in one interrupt it should do when they arrive in two.
That is so as long as the first interrupt has no code whose action is deferred: the
actions of an interrupt are done after all of its edits, and only one of them is.

## Main results

* `batchLaw_of_not_deferred` — the law, when no code of the first list is deferred.
* `not_batchLaw_of_deferred` — its failure, for every first list with such a code.
* `batchLaw_iff` — **the law holds for exactly the first lists without deferred codes.**
-/

namespace Xv6
namespace Console
namespace Helpful

variable {m : Memory} {g : Input} {v : Vars} {xs : List ℕ}

/-- **The batching law**: one call that drains `xs ++ ys` is a call that drains `xs` and
then one that drains `ys`, in the ring, the variables and the output. -/
def BatchLaw (m : Memory) (g : Input) (v : Vars) (xs ys : List ℕ) : Prop :=
  consoleintr m g v (xs ++ ys) =
    (consoleintr m g v xs).bind fun p =>
      (consoleintr m p.1 p.2.1 ys).map fun q => (q.1, q.2.1, p.2.2 ++ q.2.2)

instance (m : Memory) (g : Input) (v : Vars) (xs ys : List ℕ) : Decidable (BatchLaw m g v xs ys) :=
  inferInstanceAs (Decidable (_ = _))

/-! ### Codes that are not deferred -/

/-- Without deferred codes no flag is set. -/
theorem flags_of_not_deferred (hxs : ∀ c ∈ xs, ¬ Deferred c ∧ c ≠ 0x10)
    {p : State × List (List Out)} (hp : Machine.run (code m) ⟨g, v, {}⟩ xs = some p) :
    p.1.flags = {} := by
  refine Machine.run_invariant (fun s : State => s.flags = {})
    (P := fun _ c => ¬ Deferred c ∧ c ≠ 0x10) ?_ xs _ p rfl
    (Machine.AlongRun.of_forall _ fun _ => hxs) hp
  intro s c q hs hc hq
  rw [code_edit hc.1 hc.2] at hq
  obtain ⟨r, _, rfl⟩ := Option.map_eq_some_iff.mp hq
  exact hs

/-- With no flag set, nothing is done after the loop. -/
theorem deferred_of_flags {s : State} (h : s.flags = {}) :
    deferred m s = some (s.input, s.vars, []) := by
  simp [deferred, h]

/-- **The law without deferred codes**: the second call starts where the loop of the
first ends. -/
theorem batchLaw_of_not_deferred (hxs : ∀ c ∈ xs, ¬ Deferred c ∧ c ≠ 0x10) (ys : List ℕ) :
    BatchLaw m g v xs ys := by
  rw [BatchLaw, consoleintr, Machine.run_append]
  cases hrun : Machine.run (code m) ⟨g, v, {}⟩ xs with
  | none => simp [consoleintr, hrun]
  | some p =>
    have hflags := flags_of_not_deferred hxs hrun
    have hstate : p.1 = { input := p.1.input, vars := p.1.vars } := by
      rw [← hflags]
    have hfirst : consoleintr m g v xs = some (p.1.input, p.1.vars, p.2.flatten) := by
      simp [consoleintr, hrun, deferred_of_flags hflags]
    rw [hfirst, Option.bind_some, Option.bind_some, consoleintr, ← hstate]
    cases Machine.run (code m) p.1 ys with
    | none => rfl
    | some q => simp [Function.comp_def]

/-! ### Deferred codes -/

/-- A deferred code leaves an action pending. -/
theorem pending_of_deferred : ∀ (xs : List ℕ) {s : State} {p : State × List (List Out)},
    Machine.run (code m) s xs = some p → (∃ c ∈ xs, Deferred c) ∨ s.flags.Pending →
      p.1.flags.Pending := by
  intro xs
  induction xs with
  | nil =>
    intro s p hp h
    cases hp
    simpa using h
  | cons c xs ih =>
    intro s p hp h
    obtain ⟨q, r, hq, hr, rfl⟩ := Machine.run_cons_eq_some.mp hp
    refine (ih hr ?_ : r.1.flags.Pending)
    by_cases hc : Deferred c ∨ c = 0x10
    · rcases h with ⟨c', hmem, hc'⟩ | h
      · rcases List.mem_cons.mp hmem with rfl | hmem
        · exact .inr ((code_note hc hq).2 (.inl hc'))
        · exact .inl ⟨c', hmem, hc'⟩
      · exact .inr ((code_note hc hq).2 (.inr h))
    · rw [not_or] at hc
      rw [code_edit hc.1 hc.2] at hq
      obtain ⟨q', _, rfl⟩ := Option.map_eq_some_iff.mp hq
      rcases h with ⟨c', hmem, hc'⟩ | h
      · rcases List.mem_cons.mp hmem with rfl | hmem
        · exact absurd hc' hc.1
        · exact .inl ⟨c', hmem, hc'⟩
      · exact .inr h

/-- Leaving sticky mode is last in the chain but for the process listing: with another
action pending it is dropped, and noted twice it is done once. -/
theorem deferred_sticky {s : State} (h : s.flags.Pending) :
    deferred m { s with flags := { s.flags with isStickyDisabled := true } } =
      deferred m s := by
  simp only [deferred]
  refine ite_congr rfl (fun _ => rfl) fun htab => ?_
  refine ite_congr rfl (fun _ => rfl) fun hclear => ?_
  refine ite_congr rfl (fun _ => rfl) fun hup => ?_
  refine ite_congr rfl (fun _ => rfl) fun hguide => ?_
  refine ite_congr rfl (fun _ => rfl) fun hencrypt => ?_
  refine ite_congr rfl (fun _ => rfl) fun hdevil => ?_
  refine ite_congr rfl (fun _ => rfl) fun hdvarok => ?_
  refine ite_congr rfl (fun _ => rfl) fun hqwerty => ?_
  refine ite_congr rfl (fun _ => rfl) fun henabled => ?_
  -- what is pending is this very action
  have hdisabled : s.flags.isStickyDisabled = true := by
    simpa [Flags.Pending, htab, hclear, hup, hguide, hencrypt, hdevil, hdvarok, hqwerty,
      henabled] using h
  rw [hdisabled, if_pos trivial, if_pos rfl]

theorem code_sticky (s : State) : code m s 2501 =
    some ({ s with flags := { s.flags with isStickyDisabled := true } }, []) := by
  simp [code, Flags.note]

/-- The output of leaving sticky mode. -/
theorem consoleintr_sticky (g : Input) (v : Vars) :
    consoleintr m g v [2501] = some (g, v, printf "Sricky Keys disabled\n") := by
  simp [consoleintr, Machine.run, code_sticky, deferred]

/-- **The law fails with a deferred code**, where the first call is defined: a code that
leaves sticky mode prints its message only in a call of its own. -/
theorem not_batchLaw_of_deferred {c : ℕ} (hc : c ∈ xs) (hdef : Deferred c)
    {p : Input × Vars × List Out} (hp : consoleintr m g v xs = some p) :
    ¬ BatchLaw m g v xs [2501] := by
  intro hlaw
  rw [BatchLaw, hp, Option.bind_some, consoleintr_sticky] at hlaw
  obtain ⟨q, hq, hdone⟩ := Option.bind_eq_some_iff.mp hp
  have hpending := pending_of_deferred xs hq (.inl ⟨c, hc, hdef⟩)
  have hone : consoleintr m g v (xs ++ [2501]) = some p := by
    rw [consoleintr, Machine.run_append, hq]
    simpa [Machine.run, code_sticky, deferred_sticky hpending] using hdone
  rw [hone, Option.map_some, Option.some.injEq] at hlaw
  have hlen : p.2.2.length = (p.2.2 ++ printf "Sricky Keys disabled\n").length :=
    congrArg (fun p : Input × Vars × List Out => p.2.2.length) hlaw
  rw [List.length_append] at hlen
  have hpos : (printf "Sricky Keys disabled\n").length = 21 := by decide
  omega

/-- **The batching law, exactly.**  For a list `xs` without Ctrl-P, and every state: if no
code of `xs` is deferred, the law holds whatever comes next; and if the call that drains
`xs` is defined and the law holds for every `ys` without Ctrl-P, then no code of `xs` is
deferred. -/
theorem batchLaw_iff (m : Memory) (g : Input) (v : Vars) (xs : List ℕ) (hxs : 0x10 ∉ xs) :
    ((∀ c ∈ xs, ¬ Deferred c) → ∀ ys, BatchLaw m g v xs ys) ∧
      ((consoleintr m g v xs).isSome → (∀ ys, 0x10 ∉ ys → BatchLaw m g v xs ys) →
        ∀ c ∈ xs, ¬ Deferred c) := by
  refine ⟨fun h ys => batchLaw_of_not_deferred (fun c hc => ⟨h c hc, ?_⟩) ys, ?_⟩
  · rintro rfl
    exact hxs hc
  · intro hsome hlaw c hc hdef
    obtain ⟨p, hp⟩ := Option.isSome_iff_exists.mp hsome
    exact not_batchLaw_of_deferred hc hdef hp (hlaw [2501] (by decide))

/-- The rule for `l`, Ctrl-C, Ctrl-V and a newline, typed at boot. -/
theorem batchLaw_copy_paste :
    BatchLaw Memory.zero Input.boot Vars.boot [0x6C, 0x03, 0x16, 0x0D] [0x09, 0x0C] :=
  (batchLaw_iff Memory.zero Input.boot Vars.boot [0x6C, 0x03, 0x16, 0x0D] (by decide)).1
    (by decide) [0x09, 0x0C]

/-- `h`, `e` and TAB in one interrupt and a newline in the next leave `hello` and a newline
to be read.  In a single interrupt the line is committed before it is completed. -/
theorem not_batchLaw_he_tab :
    ¬ BatchLaw Memory.zero Input.boot Vars.boot [0x68, 0x65, 0x09] [0x0D] ∧
      (consoleintr Memory.zero Input.boot Vars.boot [0x68, 0x65, 0x09, 0x0D]).map
        (fun p => p.1.queue) = some (str "he\n") ∧
      ((consoleintr Memory.zero Input.boot Vars.boot [0x68, 0x65, 0x09]).bind fun p =>
        (consoleintr Memory.zero p.1 p.2.1 [0x0D]).map fun q => q.1.queue) =
          some (str "hello\n") := by
  decide +kernel

end Helpful
end Console
end Xv6
