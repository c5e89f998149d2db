import Xv6.Console.HelpfulRing

/-!
# Runs of the Helpful console

What `consoleintr` of the Helpful console can do to the ring and the variables, said once
for a round of its loop and once for the chain behind it, and the rules by which a fact
about both is carried to every state of a run.

## Main definitions

* `Meets` — a condition on the rounds and one on the chain hold along an interrupt.
* `Reachable` — the states met in runs, those between two rounds among them.

## Main results

* `code_cases`, `edit_cases`, `deferred_cases` — what a round and the chain can do.
* `invariant_of_meets`, `meets_mono`, `meets_congr` — the rules for runs.
* `bounds_of_reachable` — **the indices are in order in every state met in a run.**
-/

namespace Xv6
namespace Console
namespace Helpful

open Counter

variable {m : Memory} {g : Input} {v : Vars}

/-! ### What an interrupt can do -/

/-- A round records an encrypted code, counts a frustration, notes an action, or edits. -/
theorem code_cases {s : State} {c : ℕ} {p : State × List Out} (hp : code m s c = some p) :
    (p.1.input = s.input ∧
      ((1000 ≤ c ∧ c < 2000 ∧ ∃ h : s.vars.trackEnigma < 128, p.1.vars = { s.vars with
          previousLine := s.vars.previousLine.set s.vars.trackEnigma (UInt8.ofNat (c - 1000))
          trackEnigma := s.vars.trackEnigma + 1 }) ∨
        (2000 ≤ c ∧ c < 2500 ∧
          p.1.vars = { s.vars with frustrationLevel := s.vars.frustrationLevel + 1 }) ∨
        (Deferred c ∨ c = 0x10) ∧ p.1.vars = s.vars)) ∨
      ¬ (Deferred c ∨ c = 0x10) ∧ ∃ q, edit m s.input s.vars c = some q ∧
        p = ({ s with input := q.1, vars := q.2.1 }, q.2.2) := by
  by_cases hc : Deferred c ∨ c = 0x10
  · refine .inl ⟨(code_note hc hp).1, ?_⟩
    unfold code at hp
    split at hp
    · next hrange =>
      split at hp
      · next hroom =>
        cases hp
        exact .inl ⟨hrange.1, hrange.2, hroom, rfl⟩
      · contradiction
    · split at hp
      · next hrange =>
        cases hp
        exact .inr (.inl ⟨hrange.1, hrange.2, rfl⟩)
      · split at hp
        · cases hp
          exact .inr (.inr ⟨hc, rfl⟩)
        · next hno hno' hnone =>
          -- a code that is noted in no flag is not deferred
          have hsome := (Flags.note_isSome_iff (f := s.flags) (by omega)).mpr hc
          rw [hnone] at hsome
          contradiction
  · rw [not_or] at hc
    rw [code_edit hc.1 hc.2] at hp
    obtain ⟨q, hq, rfl⟩ := Option.map_eq_some_iff.mp hp
    exact .inr ⟨not_or.mpr hc, q, hq, rfl⟩

/-- The codes of the other cases of an edit. -/
def editCodes : List ℕ := [0x15, 227, 0x03, 0x16, 0x08, 0x7F]

/-- An edit kills the line, copies, pastes, erases, or types. -/
theorem edit_cases {c : ℕ} {q : Input × Vars × List Out} (hq : edit m g v c = some q) :
    ((c = 0x15 ∨ c = 227) ∧ q = ((killLine g).1, v, (killLine g).2)) ∨
      (c = 0x03 ∧ q = (g, copy g v, [])) ∨
      (c = 0x16 ∧ q = ((paste g v).1, v, (paste g v).2)) ∨
      ((c = 0x08 ∨ c = 0x7F) ∧ q = ((backspace g).1, v, (backspace g).2)) ∨
      (c ∉ editCodes ∧ typed m g v c = some q) := by
  unfold edit at hq
  split at hq
  · next hc => cases hq; exact .inl ⟨hc, rfl⟩
  · split at hq
    · next hc => cases hq; exact .inr (.inl ⟨hc, rfl⟩)
    · split at hq
      · next hc => cases hq; exact .inr (.inr (.inl ⟨hc, rfl⟩))
      · split at hq
        · next hc => cases hq; exact .inr (.inr (.inr (.inl ⟨hc, rfl⟩)))
        · refine .inr (.inr (.inr (.inr ⟨?_, hq⟩)))
          simp only [editCodes, List.mem_cons, List.not_mem_nil, or_false]
          omega

/-- Saving a line changes nothing but `previous_line`. -/
theorem recordLoop_frame : ∀ (n q : ℕ) {v v' : Vars}, recordLoop m g n q v = some v' →
    ∃ a, v' = { v with previousLine := a } := by
  intro n
  induction n with
  | zero =>
    intro q v v' h
    cases h
    exact ⟨v.previousLine, rfl⟩
  | succ n ih =>
    intro q v v' h
    unfold recordLoop at h
    dsimp only at h
    split at h
    · split at h
      · obtain ⟨a, rfl⟩ := ih (q + 1) h
        exact ⟨a, rfl⟩
      · contradiction
    · cases h
      exact ⟨v.previousLine, rfl⟩

/-- Typing changes no variable but `previous_line`. -/
theorem typed_frame {c : ℕ} {q : Input × Vars × List Out} (hq : typed m g v c = some q) :
    ∃ a, q.2.1 = { v with previousLine := a } := by
  unfold typed at hq
  split at hq
  · dsimp only at hq
    split at hq
    · obtain ⟨v', hv', rfl⟩ := Option.map_eq_some_iff.mp hq
      exact recordLoop_frame _ 0 hv'
    · cases hq
      exact ⟨v.previousLine, rfl⟩
  · cases hq
    exact ⟨v.previousLine, rfl⟩

/-- The chain completes a word. -/
def Completes (s : State) : Prop := s.flags.shouldAutoComplete = true

/-- The chain recalls the line before. -/
def Recalls (s : State) : Prop :=
  s.flags.shouldAutoComplete = false ∧ s.flags.shouldClearScreen = false ∧ s.flags.upKey = true

/-- The chain answers an encrypted code. -/
def Encrypts (s : State) : Prop :=
  s.flags.shouldAutoComplete = false ∧ s.flags.shouldClearScreen = false ∧
    s.flags.upKey = false ∧ s.flags.isGuide = false ∧ s.flags.isEncrypt = true

instance (s : State) : Decidable (Completes s) := inferInstanceAs (Decidable (_ = _))
instance (s : State) : Decidable (Recalls s) := inferInstanceAs (Decidable (_ ∧ _))
instance (s : State) : Decidable (Encrypts s) := inferInstanceAs (Decidable (_ ∧ _))

/-- The chain completes, recalls, encrypts, or leaves the ring and the variables alone. -/
theorem deferred_cases {s : State} {q : Input × Vars × List Out} (hq : deferred m s = some q) :
    (Completes s ∧ ∃ p, autoComplete m s.input s.vars = some p ∧ q = (p.1, s.vars, p.2)) ∨
      (Recalls s ∧ q = getPrevLine m s.input s.vars) ∨
      (Encrypts s ∧ q = (s.input, encrypt m s.input s.vars s.flags.c_)) ∨
      ¬ Completes s ∧ ¬ Recalls s ∧ ¬ Encrypts s ∧ q.1 = s.input ∧ q.2.1 = s.vars := by
  unfold deferred at hq
  dsimp only at hq
  rcases ite_eq_iff.mp hq with ⟨htab, hq⟩ | ⟨htab, hq⟩
  · obtain ⟨p, hp, rfl⟩ := Option.map_eq_some_iff.mp hq
    exact .inl ⟨htab, p, hp, rfl⟩
  rw [Bool.not_eq_true] at htab
  rcases ite_eq_iff.mp hq with ⟨hclear, hq⟩ | ⟨hclear, hq⟩
  · cases hq
    exact .inr (.inr (.inr ⟨by simp [Completes, htab], by simp [Recalls, hclear],
      by simp [Encrypts, hclear], rfl, rfl⟩))
  rw [Bool.not_eq_true] at hclear
  rcases ite_eq_iff.mp hq with ⟨hup, hq⟩ | ⟨hup, hq⟩
  · cases hq
    exact .inr (.inl ⟨⟨htab, hclear, hup⟩, rfl⟩)
  rw [Bool.not_eq_true] at hup
  have hrest : ¬ Completes s ∧ ¬ Recalls s := ⟨by simp [Completes, htab], by simp [Recalls, hup]⟩
  rcases ite_eq_iff.mp hq with ⟨hguide, hq⟩ | ⟨hguide, hq⟩
  · cases hq
    exact .inr (.inr (.inr ⟨hrest.1, hrest.2, by simp [Encrypts, hguide], rfl, rfl⟩))
  rw [Bool.not_eq_true] at hguide
  rcases ite_eq_iff.mp hq with ⟨hencrypt, hq⟩ | ⟨hencrypt, hq⟩
  · cases hq
    exact .inr (.inr (.inl ⟨⟨htab, hclear, hup, hguide, hencrypt⟩, rfl⟩))
  refine .inr (.inr (.inr ⟨hrest.1, hrest.2, by simp [Encrypts, hencrypt], ?_⟩))
  -- the other actions only print
  have hsame : ∀ {p : Prop} [Decidable p] {out : List Out}
      {rest : Option (Input × Vars × List Out)},
        (rest = some q → q.1 = s.input ∧ q.2.1 = s.vars) →
          (if p then some (s.input, s.vars, out) else rest) = some q →
            q.1 = s.input ∧ q.2.1 = s.vars := by
    intro p _ out rest hrest hq
    rcases ite_eq_iff.mp hq with ⟨-, hq⟩ | ⟨-, hq⟩
    · cases hq
      exact ⟨rfl, rfl⟩
    · exact hrest hq
  revert hq
  repeat refine hsame ?_
  intro hq
  cases hq
  exact ⟨rfl, rfl⟩

/-! ### Runs -/

/-- Along an interrupt every round meets `C`, and the chain behind them `D`. -/
def Meets (m : Memory) (C : State → ℕ → Prop) (D : State → Prop) (s : Sys Vars) : Event → Prop
  | .intr cs =>
      Machine.AlongRun (code m) C ⟨s.input, s.dev, {}⟩ cs ∧
        ∀ p ∈ Machine.run (code m) ⟨s.input, s.dev, {}⟩ cs, D p.1
  | _ => True

instance (m : Memory) (C : State → ℕ → Prop) (D : State → Prop) [∀ s c, Decidable (C s c)]
    [∀ s, Decidable (D s)] (s : Sys Vars) : ∀ ev, Decidable (Meets m C D s ev)
  | .intr _ => inferInstanceAs (Decidable (_ ∧ _))
  | .call _ _ => inferInstanceAs (Decidable True)
  | .pass _ _ => inferInstanceAs (Decidable True)

theorem meets_true (m : Memory) (s : Sys Vars) (ev : Event) :
    Meets m (fun _ _ => True) (fun _ => True) s ev := by
  cases ev with
  | intr cs => exact ⟨Machine.AlongRun.of_forall _ fun _ _ _ => trivial, fun _ _ => trivial⟩
  | call p n => trivial
  | pass p killed => trivial

/-- **The states met in runs**: after any number of events, and after any number of rounds of
an interrupt that follows them. -/
def Reachable (m : Memory) (s : State) : Prop :=
  ∃ events r cs os, Machine.run (Sys.step (consoleintr m)) (Sys.boot Vars.boot) events = some r ∧
    Machine.run (code m) ⟨r.1.input, r.1.dev, {}⟩ cs = some (s, os)

section Rules

variable {C C' : State → ℕ → Prop} {D D' : State → Prop} {I : Input → Vars → Prop}

/-- A step keeps what every round, the chain and every reader keep. -/
theorem invariant_of_step
    (hcode : ∀ s c p, I s.input s.vars → C s c → code m s c = some p → I p.1.input p.1.vars)
    (hdeferred : ∀ s q, I s.input s.vars → D s → deferred m s = some q → I q.1 q.2.1)
    (hread : ∀ g v rd killed, I g v → I (consoleread g rd killed).1 v)
    (s : Sys Vars) (ev : Event) (p : Sys Vars × Answer) (hs : I s.input s.dev)
    (hev : Meets m C D s ev) (hp : Sys.step (consoleintr m) s ev = some p) :
    I p.1.input p.1.dev := by
  cases ev with
  | intr cs =>
    obtain ⟨q, hq, rfl⟩ := Option.map_eq_some_iff.mp hp
    obtain ⟨r, hr, hq⟩ := Option.bind_eq_some_iff.mp hq
    obtain ⟨q', hq', rfl⟩ := Option.map_eq_some_iff.mp hq
    refine hdeferred r.1 q' ?_ (hev.2 r hr) hq'
    exact Machine.run_invariant (fun s : State => I s.input s.vars) hcode cs _ r hs hev.1 hr
  | call p' n =>
    cases hrd : s.readers p' with
    | none => rw [Sys.step_call_free hrd] at hp; cases hp; exact hs
    | some rd => rw [Sys.step_call_busy hrd] at hp; cases hp; exact hs
  | pass p' killed =>
    cases hrd : s.readers p' with
    | none => rw [Sys.step_pass_none hrd] at hp; cases hp; exact hs
    | some rd =>
      have hI := hread s.input s.dev rd killed hs
      rcases hpass : consoleread s.input rd killed with ⟨g, ⟨val, dst⟩ | rd'⟩
      · rw [Sys.step_pass_ret hrd hpass] at hp
        cases hp
        rw [hpass] at hI
        exact hI
      · rw [Sys.step_pass_sleep hrd hpass] at hp
        cases hp
        rw [hpass] at hI
        exact hI

/-- **The invariant rule.**  What every round, the chain and every reader keep holds after
every run, and after every number of rounds of an interrupt that follows. -/
theorem invariant_of_meets
    (hcode : ∀ s c p, I s.input s.vars → C s c → code m s c = some p → I p.1.input p.1.vars)
    (hdeferred : ∀ s q, I s.input s.vars → D s → deferred m s = some q → I q.1 q.2.1)
    (hread : ∀ g v rd killed, I g v → I (consoleread g rd killed).1 v)
    {events : List Event} {cs : List ℕ} {s : Sys Vars} {r : Sys Vars × List Answer}
    {p : State × List (List Out)} (hs : I s.input s.dev)
    (hev : Machine.AlongRun (Sys.step (consoleintr m)) (Meets m C D) s events)
    (hr : Machine.run (Sys.step (consoleintr m)) s events = some r)
    (hcs : Machine.AlongRun (code m) C ⟨r.1.input, r.1.dev, {}⟩ cs)
    (hp : Machine.run (code m) ⟨r.1.input, r.1.dev, {}⟩ cs = some p) :
    I p.1.input p.1.vars := by
  have hI : I r.1.input r.1.dev :=
    Machine.run_invariant (fun s : Sys Vars => I s.input s.dev)
      (invariant_of_step hcode hdeferred hread) events s r hs hev hr
  exact Machine.run_invariant (fun s : State => I s.input s.vars) hcode cs _ p hI hcs hp

/-- The rule for the states met in runs. -/
theorem invariant_of_reachable
    (hcode : ∀ s c p, I s.input s.vars → code m s c = some p → I p.1.input p.1.vars)
    (hdeferred : ∀ s q, I s.input s.vars → deferred m s = some q → I q.1 q.2.1)
    (hread : ∀ g v rd killed, I g v → I (consoleread g rd killed).1 v)
    (hboot : I Input.boot Vars.boot) {s : State} (h : Reachable m s) : I s.input s.vars := by
  obtain ⟨events, r, cs, os, hr, hp⟩ := h
  exact invariant_of_meets (C := fun _ _ => True) (D := fun _ => True)
    (fun s c p hs _ hp => hcode s c p hs hp) (fun s q hs _ hq => hdeferred s q hs hq) hread hboot
    (Machine.AlongRun.of_forall _ fun s ev _ => meets_true m s ev) hr
    (Machine.AlongRun.of_forall _ fun _ _ _ => trivial) hp

/-- **The consequence rule.**  Conditions follow along a run from ones that keep an invariant under
which they follow. -/
theorem meets_mono
    (hcode : ∀ s c p, I s.input s.vars → C s c → code m s c = some p → I p.1.input p.1.vars)
    (hdeferred : ∀ s q, I s.input s.vars → D s → deferred m s = some q → I q.1 q.2.1)
    (hread : ∀ g v rd killed, I g v → I (consoleread g rd killed).1 v)
    (hC : ∀ s c, I s.input s.vars → C s c → C' s c)
    (hD : ∀ s, I s.input s.vars → D s → D' s) (events : List Event) {s : Sys Vars}
    (hs : I s.input s.dev)
    (h : Machine.AlongRun (Sys.step (consoleintr m)) (Meets m C D) s events) :
    Machine.AlongRun (Sys.step (consoleintr m)) (Meets m C' D') s events := by
  refine Machine.AlongRun.mono (fun s : Sys Vars => I s.input s.dev)
    (invariant_of_step hcode hdeferred hread) ?_ events s hs h
  intro s ev hs hev
  cases ev with
  | intr cs =>
    refine ⟨Machine.AlongRun.mono (fun s : State => I s.input s.vars) hcode hC cs _ hs hev.1,
      fun p hp => hD p.1 ?_ (hev.2 p hp)⟩
    exact Machine.run_invariant (fun s : State => I s.input s.vars) hcode cs _ p hs hev.1 hp
  | call p n => trivial
  | pass p killed => trivial

/-- **The congruence rule.**  Conditions that agree under an invariant hold along the same
runs. -/
theorem meets_congr
    (hcode : ∀ s c p, I s.input s.vars → code m s c = some p → I p.1.input p.1.vars)
    (hdeferred : ∀ s q, I s.input s.vars → deferred m s = some q → I q.1 q.2.1)
    (hread : ∀ g v rd killed, I g v → I (consoleread g rd killed).1 v)
    (hC : ∀ s c, I s.input s.vars → (C s c ↔ C' s c))
    (hD : ∀ s, I s.input s.vars → (D s ↔ D' s)) (events : List Event) {s : Sys Vars}
    (hs : I s.input s.dev) :
    Machine.AlongRun (Sys.step (consoleintr m)) (Meets m C D) s events ↔
      Machine.AlongRun (Sys.step (consoleintr m)) (Meets m C' D') s events := by
  refine Machine.alongRun_congr (fun s : Sys Vars => I s.input s.dev)
    (fun s ev p hs hp => invariant_of_step (fun s c p hs _ => hcode s c p hs)
      (fun s q hs _ => hdeferred s q hs) hread s ev p hs (meets_true m s ev) hp) ?_ events s hs
  intro s ev hs
  cases ev with
  | intr cs =>
    refine and_congr ?_ (forall_congr' fun p => forall_congr' fun hp => hD p.1 ?_)
    · exact Machine.alongRun_congr (fun s : State => I s.input s.vars) hcode hC cs _ hs
    · exact Machine.run_invariant (fun s : State => I s.input s.vars) (P := fun _ _ => True)
        (fun s c p hs _ => hcode s c p hs) cs _ p hs
        (Machine.AlongRun.of_forall _ fun _ _ _ => trivial) hp
  | call p n => exact Iff.rfl
  | pass p killed => exact Iff.rfl

end Rules

/-! ### The indices -/

theorem bounds_killLoop : ∀ (n : ℕ) {g : Input}, g.Bounds → (killLoop n g).1.Bounds := by
  intro n
  induction n with
  | zero => intro g h; exact h
  | succ n ih =>
    intro g h
    unfold killLoop
    split
    · next hne => exact ih (h.erase hne.1).toBounds
    · exact h

theorem bounds_backspace (h : g.Bounds) : (backspace g).1.Bounds := by
  unfold backspace
  split
  · next hne => exact (h.erase hne).toBounds
  · exact h

theorem bounds_insert (h : g.Bounds) (c : ℕ) : (insert g c).1.Bounds := by
  unfold insert
  split
  · next hc =>
    have hput := h.put hc.2 (UInt8.ofNat (crToNl c))
    dsimp only
    split
    · exact hput.commit.toBounds
    · exact hput
  · exact h

theorem bounds_pasteLoop : ∀ (cs : List UInt8) {g : Input}, g.Bounds →
    (pasteLoop g cs).1.Bounds := by
  intro cs
  induction cs with
  | nil => intro g h; exact h
  | cons c cs ih =>
    intro g h
    unfold pasteLoop
    split
    · next hlt => exact ih (h.put hlt c)
    · exact h

theorem bounds_eraseLoop : ∀ (n : ℕ) {g : Input}, g.Bounds → (eraseLoop n g).1.Bounds := by
  intro n
  induction n with
  | zero => intro g h; exact h
  | succ n ih =>
    intro g h
    unfold eraseLoop
    split
    · next hc => exact ih (h.erase hc.2.1).toBounds
    · exact h

theorem bounds_fillLoop : ∀ (cs : List UInt8) {g : Input}, g.Bounds →
    (fillLoop g cs).1.Bounds := by
  intro cs
  induction cs with
  | nil => intro g h; exact h
  | cons c cs ih =>
    intro g h
    unfold fillLoop
    split
    · next hlt =>
      have hput := h.put hlt c
      refine ih ?_
      split
      · exact hput.commit.toBounds
      · exact hput
    · exact h

theorem bounds_recallLoop : ∀ (n : ℕ) (i : ℤ) {g : Input}, g.Bounds →
    (recallLoop m v n i g).1.Bounds := by
  intro n
  induction n with
  | zero => intro i g h; exact h
  | succ n ih =>
    intro i g h
    unfold recallLoop
    dsimp only
    split
    · next hb => exact ih _ (h.put hb.2.2 _)
    · exact h

theorem bounds_code {s : State} {c : ℕ} {p : State × List Out} (h : s.input.Bounds)
    (hp : code m s c = some p) : p.1.input.Bounds := by
  rcases code_cases hp with ⟨hsame, -⟩ | ⟨-, q, hq, rfl⟩
  · rw [hsame]
    exact h
  · show q.1.Bounds
    rcases edit_cases hq with ⟨-, rfl⟩ | ⟨-, rfl⟩ | ⟨-, rfl⟩ | ⟨-, rfl⟩ | ⟨-, hq⟩
    · exact bounds_killLoop _ h
    · exact h
    · exact bounds_pasteLoop _ h
    · exact bounds_backspace h
    · have hinsert : q.1 = (insert s.input c).1 := congrArg Prod.fst (typed_insert hq)
      rw [hinsert]
      exact bounds_insert h c

theorem bounds_deferred {s : State} {q : Input × Vars × List Out} (h : s.input.Bounds)
    (hq : deferred m s = some q) : q.1.Bounds := by
  rcases deferred_cases hq with ⟨-, p, hp, rfl⟩ | ⟨-, rfl⟩ | ⟨-, rfl⟩ | ⟨-, -, -, hsame, -⟩
  · obtain ⟨w, _, rfl⟩ := Option.map_eq_some_iff.mp hp
    dsimp only
    split
    · split
      · exact bounds_fillLoop _ (bounds_eraseLoop _ h)
      · exact h
    · exact h
  · exact bounds_recallLoop _ _ h
  · exact h
  · rw [hsame]
    exact h

theorem bounds_readLoop (target : ℕ) (killed : Bool) : ∀ (n : ℕ) (dst : List UInt8) {g : Input},
    g.Bounds → (readLoop target killed n dst g).1.Bounds := by
  intro n
  induction n with
  | zero => intro dst g h; exact h
  | succ n ih =>
    intro dst g h
    unfold readLoop
    split
    · split <;> exact h
    · next hne =>
      have htake : g.take.Bounds := (h.take hne).toBounds
      dsimp only
      split
      · rw [Input.untake_take]
        dsimp only
        split
        · exact h
        · exact htake
      · split
        · exact htake
        · exact ih _ htake

/-- **The indices are in order in every state met in a run**: `r ≤ w ≤ e ≤ r + INPUT_BUF`. -/
theorem bounds_of_reachable {s : State} (h : Reachable m s) : s.input.Bounds := by
  exact invariant_of_reachable (I := fun g _ => g.Bounds) (fun s c p hs hp => bounds_code hs hp)
    (fun s q hs hq => bounds_deferred hs hq)
    (fun g v rd killed hg => bounds_readLoop _ _ _ _ hg) Input.ok_boot.toBounds h

end Helpful
end Console
end Xv6
