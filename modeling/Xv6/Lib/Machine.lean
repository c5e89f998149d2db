import Mathlib

/-!
# Machines and their runs

A machine reads one input at a time and answers each with an output.  Two kinds
are needed: a *total* machine, whose step always has a result, and a *partial*
one, whose step may have none (the step is undefined, or never comes back).

The two arguments every development about a machine repeats are stated once
here.  An invariant that each step keeps, provided the step meets a condition,
holds at the end of every run all of whose steps meet it; and two machines whose
related states answer alike exactly when a condition holds give the same outputs
exactly on the runs along which it holds.

## Main definitions

* `final`, `outputs`, `Along` — runs of a total machine.
* `run`, `AlongRun`, `AlongHistory` — runs of a partial machine.
* `Trace` — runs of a specification, given as a step relation.

## Main results

* `outputs_eq_iff_along`, `along_iff_along` — **the conditional bisimulation rules**, for
  outputs and for conditions.
* `final_foldl` — the rule for a total machine that follows a function.
* `Along.final`, `run_invariant` — **the invariant rule**, for total and partial machines.
* `AlongRun.history`, `run_history_invariant`, `run_history_total` — the same for invariants that
  speak of the outputs so far.
* `run_rel` — the two-run rule, for partial machines.
* `run_simulation`, `run_trace` — the simulation rules, from a partial machine to a specification.
-/

namespace Machine

variable {σ τ ι ο : Type*}

/-! ### Total machines -/

/-- The state a run ends in. -/
def final (step : σ → ι → σ × ο) (s : σ) : List ι → σ
  | [] => s
  | i :: is => final step (step s i).1 is

/-- The outputs of a run, in order. -/
def outputs (step : σ → ι → σ × ο) : σ → List ι → List ο
  | _, [] => []
  | s, i :: is => (step s i).2 :: outputs step (step s i).1 is

/-- `P` holds of every state met along a run and the input read there. -/
def Along (step : σ → ι → σ × ο) (P : σ → ι → Prop) : σ → List ι → Prop
  | _, [] => True
  | s, i :: is => P s i ∧ Along step P (step s i).1 is

@[simp] theorem final_nil (step : σ → ι → σ × ο) (s : σ) : final step s [] = s := rfl

@[simp] theorem final_cons (step : σ → ι → σ × ο) (s : σ) (i : ι) (is : List ι) :
    final step s (i :: is) = final step (step s i).1 is := rfl

theorem final_append (step : σ → ι → σ × ο) (js : List ι) :
    ∀ (is : List ι) (s : σ), final step s (is ++ js) = final step (final step s is) js := by
  intro is
  induction is with
  | nil => intro s; rfl
  | cons i is ih => intro s; exact ih _

@[simp] theorem outputs_nil (step : σ → ι → σ × ο) (s : σ) : outputs step s [] = [] := rfl

@[simp] theorem outputs_cons (step : σ → ι → σ × ο) (s : σ) (i : ι) (is : List ι) :
    outputs step s (i :: is) = (step s i).2 :: outputs step (step s i).1 is := rfl

@[simp] theorem along_nil (step : σ → ι → σ × ο) (P : σ → ι → Prop) (s : σ) :
    Along step P s [] ↔ True := Iff.rfl

@[simp] theorem along_cons (step : σ → ι → σ × ο) (P : σ → ι → Prop) (s : σ) (i : ι)
    (is : List ι) : Along step P s (i :: is) ↔ P s i ∧ Along step P (step s i).1 is := Iff.rfl

/-- **The fold rule.**  A function on specification states that each step follows,
on the inputs `V` allows, is followed by a whole run. -/
theorem final_foldl {step : σ → ι → σ × ο} {f : τ → ι → τ} {R : σ → τ → Prop} {V : ι → Prop}
    (hstep : ∀ s t i, R s t → V i → R (step s i).1 (f t i)) :
    ∀ (is : List ι) (s : σ) (t : τ), R s t → (∀ i ∈ is, V i) →
      R (final step s is) (is.foldl f t) := by
  intro is
  induction is with
  | nil => intro s t hR _; exact hR
  | cons i is ih =>
    intro s t hR hV
    exact ih _ _ (hstep s t i hR (hV i List.mem_cons_self)) fun j hj =>
      hV j (List.mem_cons_of_mem i hj)

instance decidableAlong (step : σ → ι → σ × ο) (P : σ → ι → Prop)
    [∀ s i, Decidable (P s i)] : ∀ (s : σ) (is : List ι), Decidable (Along step P s is)
  | _, [] => inferInstanceAs (Decidable True)
  | s, i :: is =>
      haveI := decidableAlong step P (step s i).1 is
      inferInstanceAs (Decidable (P s i ∧ Along step P (step s i).1 is))

/-- A condition follows along a run from one that implies it. -/
theorem Along.mono {step : σ → ι → σ × ο} {P Q : σ → ι → Prop} (h : ∀ s i, P s i → Q s i) :
    ∀ (is : List ι) (s : σ), Along step P s is → Along step Q s is := by
  intro is
  induction is with
  | nil => intro s _; trivial
  | cons i is ih => intro s hP; exact ⟨h s i hP.1, ih _ hP.2⟩

/-- A state that the inputs meeting `P` do not leave: `P` holds along a run from it
exactly when it holds there of every input. -/
theorem along_iff_forall {step : σ → ι → σ × ο} {P : σ → ι → Prop} {s : σ}
    (hfix : ∀ i, P s i → (step s i).1 = s) (is : List ι) :
    Along step P s is ↔ ∀ i ∈ is, P s i := by
  induction is with
  | nil => simp
  | cons i is ih =>
    rw [along_cons, List.forall_mem_cons]
    refine and_congr_right fun hi => ?_
    rw [hfix i hi, ih]

/-- **The invariant rule** for total machines. -/
theorem Along.final {step : σ → ι → σ × ο} (Inv : σ → Prop) {P : σ → ι → Prop}
    (hstep : ∀ s i, Inv s → P s i → Inv (step s i).1) :
    ∀ (is : List ι) (s : σ), Inv s → Along step P s is → Inv (final step s is) := by
  intro is
  induction is with
  | nil => intro s hs _; exact hs
  | cons i is ih =>
    intro s hs hP
    exact ih _ (hstep s i hs hP.1) hP.2

/-- An invariant that every step keeps. -/
theorem final_invariant {step : σ → ι → σ × ο} (Inv : σ → Prop)
    (hstep : ∀ s i, Inv s → Inv (step s i).1) (is : List ι) :
    ∀ (s : σ), Inv s → Inv (final step s is) := by
  induction is with
  | nil => intro s hs; exact hs
  | cons i is ih => intro s hs; exact ih _ (hstep s i hs)

/-- Conditions that agree under an invariant, which one of them keeps, hold along the
same runs. -/
theorem along_congr {step : σ → ι → σ × ο} {P Q : σ → ι → Prop} (Inv : σ → Prop)
    (hstep : ∀ s i, Inv s → P s i → Inv (step s i).1)
    (h : ∀ s i, Inv s → (P s i ↔ Q s i)) :
    ∀ (is : List ι) (s : σ), Inv s → (Along step P s is ↔ Along step Q s is) := by
  intro is
  induction is with
  | nil => intro s _; exact Iff.rfl
  | cons i is ih =>
    intro s hs
    rw [along_cons, along_cons, ← h s i hs]
    exact and_congr_right fun hP => ih _ (hstep s i hs hP)

/-- A condition on the states of a run holds in each of them exactly when it holds at the
start and behind every step. -/
theorem forall_prefix_iff_along {step : σ → ι → σ × ο} {Q : σ → Prop} (is : List ι) :
    ∀ (s : σ), (∀ pre, pre <+: is → Q (final step s pre)) ↔
      Q s ∧ Along step (fun s i => Q (step s i).1) s is := by
  induction is with
  | nil => intro s; simp
  | cons i is ih =>
    intro s
    constructor
    · intro h
      have hrest := (ih (step s i).1).mp fun pre hpre =>
        h (i :: pre) (List.cons_prefix_cons.mpr ⟨rfl, hpre⟩)
      exact ⟨h [] List.nil_prefix, hrest⟩
    · rintro ⟨hs, hstep, hrest⟩ pre hpre
      cases pre with
      | nil => exact hs
      | cons j pre =>
        obtain ⟨rfl, htail⟩ := List.cons_prefix_cons.mp hpre
        exact (ih _).mpr ⟨hstep, hrest⟩ pre htail

/-- A condition holds along a run exactly when it holds behind every prefix. -/
theorem along_iff_prefix {step : σ → ι → σ × ο} {P : σ → ι → Prop} (is : List ι) :
    ∀ (s : σ), Along step P s is ↔ ∀ pre i, pre ++ [i] <+: is → P (final step s pre) i := by
  induction is with
  | nil => intro s; simp
  | cons i is ih =>
    intro s
    rw [along_cons, ih]
    constructor
    · rintro ⟨hi, hrest⟩ pre j hpre
      cases pre with
      | nil =>
        obtain ⟨rfl, -⟩ := List.cons_prefix_cons.mp hpre
        exact hi
      | cons k pre =>
        obtain ⟨rfl, htail⟩ := List.cons_prefix_cons.mp hpre
        exact hrest pre j htail
    · intro h
      exact ⟨h [] i (List.cons_prefix_cons.mpr ⟨rfl, List.nil_prefix⟩), fun pre j hpre =>
        h (i :: pre) j (List.cons_prefix_cons.mpr ⟨rfl, hpre⟩)⟩

/-- **The conditional bisimulation rule.**  Let related states answer an input
alike exactly when `P` holds, and stay related when it does.  Then the two
machines give the same outputs exactly on the runs along which `P` holds.  The
inputs are restricted to those `H` allows. -/
theorem outputs_eq_iff_along {M : σ → ι → σ × ο} {N : τ → ι → τ × ο} (R : σ → τ → Prop)
    (H P : σ → ι → Prop)
    (hout : ∀ s t i, R s t → H s i → ((N t i).2 = (M s i).2 ↔ P s i))
    (hstep : ∀ s t i, R s t → H s i → P s i → R (M s i).1 (N t i).1) :
    ∀ (is : List ι) (s : σ) (t : τ), R s t → Along M H s is →
      (outputs N t is = outputs M s is ↔ Along M P s is) := by
  intro is
  induction is with
  | nil => intro s t _ _; simp
  | cons i is ih =>
    intro s t hR hH
    rw [along_cons] at hH
    obtain ⟨hHi, hHis⟩ := hH
    rw [outputs_cons, outputs_cons, List.cons.injEq, along_cons, hout s t i hR hHi]
    constructor
    · rintro ⟨hP, hrest⟩
      exact ⟨hP, (ih _ _ (hstep s t i hR hHi hP) hHis).mp hrest⟩
    · rintro ⟨hP, hrest⟩
      exact ⟨hP, (ih _ _ (hstep s t i hR hHi hP) hHis).mpr hrest⟩

/-- **The conditional bisimulation rule for conditions.**  Let a condition `Q` on one machine
hold, in related states, exactly when `P` holds of the other, and let them stay related when it
does.  Then the two conditions hold along the same runs.  The inputs are restricted to those `H`
allows. -/
theorem along_iff_along {ο' : Type*} {M : σ → ι → σ × ο} {N : τ → ι → τ × ο'}
    (R : σ → τ → Prop) (H P : σ → ι → Prop) (Q : τ → ι → Prop)
    (hcond : ∀ s t i, R s t → H s i → (Q t i ↔ P s i))
    (hstep : ∀ s t i, R s t → H s i → P s i → R (M s i).1 (N t i).1) :
    ∀ (is : List ι) (s : σ) (t : τ), R s t → Along M H s is →
      (Along N Q t is ↔ Along M P s is) := by
  intro is
  induction is with
  | nil => intro s t _ _; exact Iff.rfl
  | cons i is ih =>
    intro s t hR hH
    rw [along_cons] at hH
    rw [along_cons, along_cons, hcond s t i hR hH.1]
    exact and_congr_right fun hP => ih _ _ (hstep s t i hR hH.1 hP) hH.2

/-! ### Partial machines -/

/-- A run of a partial machine: the final state and the outputs, or nothing as
soon as one step has no result. -/
def run (step : σ → ι → Option (σ × ο)) : σ → List ι → Option (σ × List ο)
  | s, [] => some (s, [])
  | s, i :: is =>
      (step s i).bind fun p => (run step p.1 is).map fun q => (q.1, p.2 :: q.2)

/-- `P` holds of every state met along a run and the input read there. -/
def AlongRun (step : σ → ι → Option (σ × ο)) (P : σ → ι → Prop) : σ → List ι → Prop
  | _, [] => True
  | s, i :: is => P s i ∧ ∀ p, step s i = some p → AlongRun step P p.1 is

@[simp] theorem run_nil (step : σ → ι → Option (σ × ο)) (s : σ) :
    run step s [] = some (s, []) := rfl

instance decidableAlongRun (step : σ → ι → Option (σ × ο)) (P : σ → ι → Prop)
    [∀ s i, Decidable (P s i)] : ∀ (s : σ) (is : List ι), Decidable (AlongRun step P s is)
  | _, [] => inferInstanceAs (Decidable True)
  | s, i :: is =>
      haveI := fun p : σ × ο => decidableAlongRun step P p.1 is
      inferInstanceAs (Decidable (P s i ∧ ∀ p ∈ step s i, AlongRun step P p.1 is))

/-- A run that reads an input takes that step and then runs on. -/
theorem run_cons_eq_some {step : σ → ι → Option (σ × ο)} {s : σ} {i : ι} {is : List ι}
    {r : σ × List ο} :
    run step s (i :: is) = some r ↔
      ∃ p q, step s i = some p ∧ run step p.1 is = some q ∧ r = (q.1, p.2 :: q.2) := by
  simp only [run, Option.bind_eq_some_iff, Option.map_eq_some_iff]
  constructor
  · rintro ⟨p, hp, q, hq, rfl⟩
    exact ⟨p, q, hp, hq, rfl⟩
  · rintro ⟨p, q, hp, hq, rfl⟩
    exact ⟨p, hp, q, hq, rfl⟩

/-- A run over two lists of inputs is a run over the first and one over the second. -/
theorem run_append (step : σ → ι → Option (σ × ο)) (js : List ι) :
    ∀ (is : List ι) (s : σ), run step s (is ++ js) =
      (run step s is).bind fun p => (run step p.1 js).map fun q => (q.1, p.2 ++ q.2) := by
  intro is
  induction is with
  | nil => intro s; simp
  | cons i is ih =>
    intro s
    rw [List.cons_append, run, run]
    cases step s i with
    | none => rfl
    | some p => simp [ih, Option.map_bind, Option.bind_map, Function.comp_def]

/-- A condition on the inputs alone holds along every run. -/
theorem AlongRun.of_forall {step : σ → ι → Option (σ × ο)} {P : σ → ι → Prop} :
    ∀ {is : List ι} (s : σ), (∀ s, ∀ i ∈ is, P s i) → AlongRun step P s is := by
  intro is
  induction is with
  | nil => intro s _; trivial
  | cons i is ih =>
    intro s h
    exact ⟨h s i List.mem_cons_self, fun p _ => ih p.1 fun s j hj =>
      h s j (List.mem_cons_of_mem i hj)⟩

/-- **The invariant rule.**  An invariant kept by every step that meets `P`
holds at the end of every run all of whose steps meet `P`. -/
theorem run_invariant {step : σ → ι → Option (σ × ο)} (Inv : σ → Prop) {P : σ → ι → Prop}
    (hstep : ∀ s i p, Inv s → P s i → step s i = some p → Inv p.1) :
    ∀ (is : List ι) (s : σ) (r : σ × List ο), Inv s → AlongRun step P s is →
      run step s is = some r → Inv r.1 := by
  intro is
  induction is with
  | nil =>
    intro s r hs _ hr
    rw [run_nil, Option.some.injEq] at hr
    rw [← hr]
    exact hs
  | cons i is ih =>
    intro s r hs hP hr
    obtain ⟨p, q, hp, hq, rfl⟩ := run_cons_eq_some.mp hr
    exact ih p.1 q (hstep s i p hs hP.1 hp) (hP.2 p hp) hq

/-- A condition follows along a run from one that keeps an invariant under which it follows. -/
theorem AlongRun.mono {step : σ → ι → Option (σ × ο)} {P Q : σ → ι → Prop} (Inv : σ → Prop)
    (hstep : ∀ s i p, Inv s → P s i → step s i = some p → Inv p.1)
    (h : ∀ s i, Inv s → P s i → Q s i) :
    ∀ (is : List ι) (s : σ), Inv s → AlongRun step P s is → AlongRun step Q s is := by
  intro is
  induction is with
  | nil => intro s _ _; trivial
  | cons i is ih =>
    intro s hs hP
    exact ⟨h s i hs hP.1, fun p hp => ih p.1 (hstep s i p hs hP.1 hp) (hP.2 p hp)⟩

/-- Conditions that agree under an invariant hold along the same runs. -/
theorem alongRun_congr {step : σ → ι → Option (σ × ο)} {P Q : σ → ι → Prop} (Inv : σ → Prop)
    (hstep : ∀ s i p, Inv s → step s i = some p → Inv p.1)
    (h : ∀ s i, Inv s → (P s i ↔ Q s i)) :
    ∀ (is : List ι) (s : σ), Inv s → (AlongRun step P s is ↔ AlongRun step Q s is) := by
  intro is
  induction is with
  | nil => intro s _; exact Iff.rfl
  | cons i is ih =>
    intro s hs
    refine and_congr (h s i hs) (forall_congr' fun p => forall_congr' fun hp => ?_)
    exact ih p.1 (hstep s i p hs hp)

/-- Two partial results that are both undefined, or related, and what is done with them. -/
theorem rel_bind {α β γ δ : Type*} {R : α → β → Prop} {S : γ → δ → Prop} {x : Option α}
    {y : Option β} {f : α → Option γ} {g : β → Option δ} (h : Option.Rel R x y)
    (hfg : ∀ a b, R a b → Option.Rel S (f a) (g b)) :
    Option.Rel S (x.bind f) (y.bind g) := by
  cases h with
  | none => exact .none
  | some h => exact hfg _ _ h

theorem rel_map {α β γ δ : Type*} {R : α → β → Prop} {S : γ → δ → Prop} {x : Option α}
    {y : Option β} {f : α → γ} {g : β → δ} (h : Option.Rel R x y)
    (hfg : ∀ a b, R a b → S (f a) (g b)) : Option.Rel S (x.map f) (y.map g) := by
  cases h with
  | none => exact .none
  | some h => exact .some (hfg _ _ h)

/-- **The two-run rule.**  Two machines that take related states to related states, and
answer alike, do so over whole runs; the second reads the inputs through `f`. -/
theorem run_rel {ι' : Type*} {step : σ → ι → Option (σ × ο)} {step' : τ → ι' → Option (τ × ο)}
    {R : σ → τ → Prop} {f : ι → ι'}
    (hstep : ∀ s t i, R s t →
      Option.Rel (fun p q => R p.1 q.1 ∧ p.2 = q.2) (step s i) (step' t (f i))) :
    ∀ (is : List ι) (s : σ) (t : τ), R s t →
      Option.Rel (fun p q => R p.1 q.1 ∧ p.2 = q.2) (run step s is) (run step' t (is.map f)) := by
  intro is
  induction is with
  | nil => intro s t h; exact .some ⟨h, rfl⟩
  | cons i is ih =>
    intro s t h
    refine rel_bind (hstep s t i h) fun p q hpq => ?_
    exact rel_map (ih p.1 q.1 hpq.1) fun r r' hr => ⟨hr.1, by rw [hpq.2, hr.2]⟩

/-! ### Outputs so far -/

/-- `P` holds of every state met along a run, the outputs answered before it, and the
input read there. -/
def AlongHistory (step : σ → ι → Option (σ × ο)) (P : σ → List ο → ι → Prop) :
    σ → List ο → List ι → Prop
  | _, _, [] => True
  | s, os, i :: is =>
      P s os i ∧ ∀ p, step s i = some p → AlongHistory step P p.1 (os ++ [p.2]) is

instance decidableAlongHistory (step : σ → ι → Option (σ × ο)) (P : σ → List ο → ι → Prop)
    [∀ s os i, Decidable (P s os i)] :
    ∀ (s : σ) (os : List ο) (is : List ι), Decidable (AlongHistory step P s os is)
  | _, _, [] => inferInstanceAs (Decidable True)
  | s, os, i :: is =>
      haveI := fun p : σ × ο => decidableAlongHistory step P p.1 (os ++ [p.2]) is
      inferInstanceAs (Decidable (P s os i ∧ ∀ p ∈ step s i,
        AlongHistory step P p.1 (os ++ [p.2]) is))

/-- Conditions that agree under an invariant hold along the same runs. -/
theorem alongHistory_congr {step : σ → ι → Option (σ × ο)} {P Q : σ → List ο → ι → Prop}
    (Inv : σ → List ο → Prop)
    (hstep : ∀ s os i p, Inv s os → step s i = some p → Inv p.1 (os ++ [p.2]))
    (h : ∀ s os i, Inv s os → (P s os i ↔ Q s os i)) :
    ∀ (is : List ι) (s : σ) (os : List ο), Inv s os →
      (AlongHistory step P s os is ↔ AlongHistory step Q s os is) := by
  intro is
  induction is with
  | nil => intro s os _; exact Iff.rfl
  | cons i is ih =>
    intro s os hs
    refine and_congr (h s os i hs) (forall_congr' fun p => forall_congr' fun hp => ?_)
    exact ih p.1 (os ++ [p.2]) (hstep s os i p hs hp)

/-- **The invariant rule with a history**, for steps that meet a condition. -/
theorem AlongRun.history {step : σ → ι → Option (σ × ο)} (Inv : σ → List ο → Prop)
    {P : σ → ι → Prop}
    (hstep : ∀ s os i p, Inv s os → P s i → step s i = some p → Inv p.1 (os ++ [p.2])) :
    ∀ (is : List ι) (s : σ) (os : List ο) (r : σ × List ο), Inv s os → AlongRun step P s is →
      run step s is = some r → Inv r.1 (os ++ r.2) := by
  intro is
  induction is with
  | nil =>
    intro s os r hs _ hr
    rw [run_nil, Option.some.injEq] at hr
    rw [← hr, List.append_nil]
    exact hs
  | cons i is ih =>
    intro s os r hs hP hr
    obtain ⟨p, q, hp, hq, rfl⟩ := run_cons_eq_some.mp hr
    have hlast := ih p.1 (os ++ [p.2]) q (hstep s os i p hs hP.1 hp) (hP.2 p hp) hq
    rw [List.append_assoc, List.singleton_append] at hlast
    exact hlast

/-- The rule for an invariant that every step keeps. -/
theorem run_history_invariant {step : σ → ι → Option (σ × ο)} (Inv : σ → List ο → Prop)
    (hstep : ∀ s os i p, Inv s os → step s i = some p → Inv p.1 (os ++ [p.2]))
    (is : List ι) (s : σ) (os : List ο) (r : σ × List ο) (hs : Inv s os)
    (hr : run step s is = some r) : Inv r.1 (os ++ r.2) :=
  AlongRun.history Inv (fun s os i p h _ => hstep s os i p h) is s os r hs
    (AlongRun.of_forall s fun _ _ _ => trivial) hr

/-- A condition that can be read off the output of each step can be read off those of the run. -/
theorem alongRun_iff_outputs {step : σ → ι → Option (σ × ο)} {P : σ → ι → Prop} {Q : ο → Prop}
    (Inv : σ → List ο → Prop)
    (hstep : ∀ s os i p, Inv s os → step s i = some p → Inv p.1 (os ++ [p.2]))
    (h : ∀ s os i p, Inv s os → step s i = some p → (P s i ↔ Q p.2)) :
    ∀ (is : List ι) (s : σ) (os : List ο) (r : σ × List ο), Inv s os → run step s is = some r →
      (AlongRun step P s is ↔ ∀ o ∈ r.2, Q o) := by
  intro is
  induction is with
  | nil =>
    intro s os r _ hr
    rw [run_nil, Option.some.injEq] at hr
    rw [← hr]
    exact iff_of_true trivial nofun
  | cons i is ih =>
    intro s os r hs hr
    obtain ⟨p, q, hp, hq, rfl⟩ := run_cons_eq_some.mp hr
    rw [List.forall_mem_cons, ← h s os i p hs hp, ← ih p.1 _ q (hstep s os i p hs hp) hq]
    refine and_congr_right fun _ => ⟨fun hall => hall p hp, fun hall p' hp' => ?_⟩
    rw [hp] at hp'
    cases hp'
    exact hall

/-- An invariant under which every step on an input `V` allows is defined, and which it
keeps: every run over such inputs is defined and ends with it. -/
theorem run_history_total {step : σ → ι → Option (σ × ο)} (Inv : σ → List ο → Prop)
    {V : ι → Prop}
    (hstep : ∀ s os i, Inv s os → V i → ∃ p, step s i = some p ∧ Inv p.1 (os ++ [p.2])) :
    ∀ (is : List ι) (s : σ) (os : List ο), Inv s os → (∀ i ∈ is, V i) →
      ∃ r, run step s is = some r ∧ Inv r.1 (os ++ r.2) := by
  intro is
  induction is with
  | nil =>
    intro s os hs _
    refine ⟨(s, []), rfl, ?_⟩
    rw [List.append_nil]
    exact hs
  | cons i is ih =>
    intro s os hs hV
    obtain ⟨p, hp, hinv⟩ := hstep s os i hs (hV i List.mem_cons_self)
    obtain ⟨r, hr, hlast⟩ := ih p.1 (os ++ [p.2]) hinv fun j hj => hV j (List.mem_cons_of_mem i hj)
    refine ⟨(r.1, p.2 :: r.2), run_cons_eq_some.mpr ⟨p, r, hp, hr, rfl⟩, ?_⟩
    rw [List.append_assoc, List.singleton_append] at hlast
    exact hlast

/-- A history with one more output, split at one of its outputs. -/
theorem concat_split {os os₁ os₂ : List ο} {o o₁ : ο} (h : os ++ [o] = os₁ ++ o₁ :: os₂) :
    (os₂ = [] ∧ os₁ = os ∧ o₁ = o) ∨ ∃ os₃, os₂ = os₃ ++ [o] ∧ os = os₁ ++ o₁ :: os₃ := by
  rcases List.eq_nil_or_concat os₂ with rfl | ⟨os₃, o₃, rfl⟩
  · have hlast := List.append_inj' h rfl
    exact .inl ⟨rfl, hlast.1.symm, (List.singleton_inj.mp hlast.2).symm⟩
  · rw [List.concat_eq_append, ← List.cons_append, ← List.append_assoc] at h
    have hlast := List.append_inj' h rfl
    have ho : o = o₃ := List.singleton_inj.mp hlast.2
    exact .inr ⟨os₃, by rw [ho, List.concat_eq_append], hlast.1⟩

/-- A run that answered `os₁` and then `os₂` was in some state between the two. -/
theorem exists_run_of_outputs_append {step : σ → ι → Option (σ × ο)} {os₂ : List ο} :
    ∀ {os₁ : List ο} {is : List ι} {s r : σ}, run step s is = some (r, os₁ ++ os₂) →
      ∃ is₁ is₂ m, run step s is₁ = some (m, os₁) ∧ run step m is₂ = some (r, os₂) := by
  intro os₁
  induction os₁ with
  | nil => intro is s r h; exact ⟨[], is, s, rfl, h⟩
  | cons o os₁ ih =>
    intro is s r h
    cases is with
    | nil => simp at h
    | cons i is =>
      obtain ⟨p, q, hp, hq, heq⟩ := run_cons_eq_some.mp h
      rw [Prod.mk.injEq, List.cons_append, List.cons.injEq] at heq
      obtain ⟨rfl, rfl, hos⟩ := heq
      rw [hos] at ih
      obtain ⟨is₁, is₂, m, h₁, h₂⟩ := ih hq
      exact ⟨i :: is₁, is₂, m, run_cons_eq_some.mpr ⟨p, _, hp, h₁, rfl⟩, h₂⟩

/-- The step that answered an output. -/
theorem exists_step_of_outputs_cons {step : σ → ι → Option (σ × ο)} {o : ο} {os : List ο}
    {is : List ι} {s r : σ} (h : run step s is = some (r, o :: os)) :
    ∃ i is' m, step s i = some (m, o) ∧ run step m is' = some (r, os) := by
  cases is with
  | nil => simp at h
  | cons i is =>
    obtain ⟨p, q, hp, hq, heq⟩ := run_cons_eq_some.mp h
    rw [Prod.mk.injEq, List.cons.injEq] at heq
    obtain ⟨rfl, rfl, rfl⟩ := heq
    exact ⟨i, is, p.1, hp, hq⟩

/-! ### Simulation by a specification -/

/-- The runs of a specification given as a step relation: the inputs read, the
outputs answered, and the states at the two ends. -/
inductive Trace (Step : τ → ι → τ → ο → Prop) : τ → List ι → τ → List ο → Prop
  | nil (t : τ) : Trace Step t [] t []
  | cons {t t' t'' : τ} {i : ι} {is : List ι} {o : ο} {os : List ο} :
      Step t i t' o → Trace Step t' is t'' os → Trace Step t (i :: is) t'' (o :: os)

/-- **The simulation rule.**  Let every partial step from a state related to a
specification state, on an input `V` allows and in a state that meets `P`, be defined and
answered by a step of the specification to a related state, with the output that `f` reads
off.  Then every run over such inputs that meets `P` all along is defined and answered by a
trace. -/
theorem run_simulation_along {ο' : Type*} {step : σ → ι → Option (σ × ο)}
    {Step : τ → ι → τ → ο' → Prop} {R : σ → τ → Prop} {V : ι → Prop} {P : σ → ι → Prop}
    (f : ο → ο') (hstep : ∀ s t i, R s t → V i → P s i →
      ∃ p t', step s i = some p ∧ Step t i t' (f p.2) ∧ R p.1 t') :
    ∀ (is : List ι) (s : σ) (t : τ), R s t → (∀ i ∈ is, V i) → AlongRun step P s is →
      ∃ r t', run step s is = some r ∧ Trace Step t is t' (r.2.map f) ∧ R r.1 t' := by
  intro is
  induction is with
  | nil => intro s t hR _ _; exact ⟨(s, []), t, rfl, .nil t, hR⟩
  | cons i is ih =>
    intro s t hR hV hP
    obtain ⟨p, t', hp, hspec, hR'⟩ := hstep s t i hR (hV i List.mem_cons_self) hP.1
    obtain ⟨r, t'', hr, htrace, hR''⟩ :=
      ih p.1 t' hR' (fun j hj => hV j (List.mem_cons_of_mem i hj)) (hP.2 p hp)
    exact ⟨(r.1, p.2 :: r.2), t'', run_cons_eq_some.mpr ⟨p, r, hp, hr, rfl⟩,
      .cons hspec htrace, hR''⟩

/-- The simulation rule, for steps that meet no condition. -/
theorem run_simulation {ο' : Type*} {step : σ → ι → Option (σ × ο)}
    {Step : τ → ι → τ → ο' → Prop} {R : σ → τ → Prop} {V : ι → Prop} (f : ο → ο')
    (hstep : ∀ s t i, R s t → V i →
      ∃ p t', step s i = some p ∧ Step t i t' (f p.2) ∧ R p.1 t')
    (is : List ι) (s : σ) (t : τ) (hR : R s t) (hV : ∀ i ∈ is, V i) :
    ∃ r t', run step s is = some r ∧ Trace Step t is t' (r.2.map f) ∧ R r.1 t' :=
  run_simulation_along f (fun s t i hR hV _ => hstep s t i hR hV) is s t hR hV
    (AlongRun.of_forall s fun _ _ _ => trivial)

/-- The trace rule.  Let every step that is taken from a state with the invariant, in a state that
meets `P`, keep it and be a step of the specification between what `f` reads off the states.  Then
so does every run that meets `P` all along, and it is a trace. -/
theorem run_trace {step : σ → ι → Option (σ × ο)} {Step : τ → ι → τ → ο → Prop} (f : σ → τ)
    (Inv : σ → Prop) {P : σ → ι → Prop} (hstep : ∀ s i p, Inv s → P s i → step s i = some p →
      Inv p.1 ∧ Step (f s) i (f p.1) p.2) :
    ∀ (is : List ι) (s : σ) (r : σ × List ο), Inv s → AlongRun step P s is →
      run step s is = some r → Inv r.1 ∧ Trace Step (f s) is (f r.1) r.2 := by
  intro is
  induction is with
  | nil =>
    intro s r hs _ hr
    rw [run_nil, Option.some.injEq] at hr
    rw [← hr]
    exact ⟨hs, .nil _⟩
  | cons i is ih =>
    intro s r hs hP hr
    obtain ⟨p, q, hp, hq, rfl⟩ := run_cons_eq_some.mp hr
    obtain ⟨hinv, hspec⟩ := hstep s i p hs hP.1 hp
    obtain ⟨hlast, htrace⟩ := ih p.1 q hinv (hP.2 p hp) hq
    exact ⟨hlast, .cons hspec htrace⟩

end Machine
