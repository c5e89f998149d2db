import Mathlib

/-!
# Steps with labels

A step shows an event, or nothing.

## Main definitions

* `Runs` — steps one after the other, with the events that they show.
* `Pool` — members that step in any order, and leave new members behind.
* `Ends` — no run goes on for ever.

## Main results

* `Runs.simulates` — **the simulation rule**: steps that show nothing may be matched by none.
* `Pool.simulates` — the rule for a pool follows from the rule for its members.
* `Ends.of_decreasing`, `Pool.decreases` — runs end if every member has less to do after its step.
-/

namespace Labelled

variable {σ τ α β ε : Type*}

/-- Steps from one state to another, and the events that they show. -/
inductive Runs (Step : σ → Option ε → σ → Prop) : σ → List ε → σ → Prop
  | nil (s : σ) : Runs Step s [] s
  | cons {s s' s'' : σ} {l : Option ε} {es : List ε} :
      Step s l s' → Runs Step s' es s'' → Runs Step s (l.toList ++ es) s''

/-- There is such a step, or there is nothing to show and nothing is done. -/
def Follows (Step : τ → Option ε → τ → Prop) (t : τ) (l : Option ε) (t' : τ) : Prop :=
  Step t l t' ∨ (l = none ∧ t' = t)

/-- **The simulation rule.** -/
theorem Runs.simulates {Step : σ → Option ε → σ → Prop} {Step' : τ → Option ε → τ → Prop}
    {R : σ → τ → Prop} (hstep : ∀ {s t l s'}, R s t → Step s l s' →
      ∃ t', Follows Step' t l t' ∧ R s' t')
    {s s' : σ} {es : List ε} (h : Runs Step s es s') :
    ∀ {t : τ}, R s t → ∃ t', Runs Step' t es t' ∧ R s' t' := by
  induction h with
  | nil s => exact fun {t} hR => ⟨t, .nil t, hR⟩
  | cons hs _ ih =>
    intro t hR
    obtain ⟨t', hfollows, hR'⟩ := hstep hR hs
    obtain ⟨t'', hruns, hR''⟩ := ih hR'
    rcases hfollows with ht | ⟨rfl, rfl⟩
    · exact ⟨t'', .cons ht hruns, hR''⟩
    · exact ⟨t'', hruns, hR''⟩

/-- A member of a pool makes a step, and what it leaves behind joins the pool. -/
inductive Pool (Step : α → Option ε → α → List α → Prop) : List α → Option ε → List α → Prop
  | head {x x' : α} {l : Option ε} {new : List α} (xs : List α) :
      Step x l x' new → Pool Step (x :: xs) l (x' :: xs ++ new)
  | tail (x : α) {xs xs' : List α} {l : Option ε} :
      Pool Step xs l xs' → Pool Step (x :: xs) l (x :: xs')

theorem Pool.simulates {Step : α → Option ε → α → List α → Prop}
    {Step' : β → Option ε → β → List β → Prop} {R : α → β → Prop}
    (hstep : ∀ {a b l a' as}, R a b → Step a l a' as → ∃ b' bs,
      (Step' b l b' bs ∨ (l = none ∧ b' = b ∧ bs = [])) ∧ R a' b' ∧ List.Forall₂ R as bs)
    {xs xs' : List α} {l : Option ε} (h : Pool Step xs l xs') :
    ∀ {ys : List β}, List.Forall₂ R xs ys →
      ∃ ys', Follows (Pool Step') ys l ys' ∧ List.Forall₂ R xs' ys' := by
  induction h with
  | head xs hs =>
    rintro _ (_ | ⟨hR, hRs⟩)
    obtain ⟨b', bs, hfollows, hR', hRs'⟩ := hstep hR hs
    rcases hfollows with ht | ⟨rfl, rfl, rfl⟩
    · exact ⟨_, .inl (.head _ ht), List.rel_append (.cons hR' hRs) hRs'⟩
    · refine ⟨_, .inr ⟨rfl, rfl⟩, ?_⟩
      cases hRs'
      rw [List.append_nil]
      exact .cons hR' hRs
  | tail x _ ih =>
    rintro _ (_ | ⟨hR, hRs⟩)
    obtain ⟨ys', hfollows, hRs'⟩ := ih hRs
    rcases hfollows with ht | ⟨rfl, rfl⟩
    · exact ⟨_, .inl (.tail _ ht), .cons hR hRs'⟩
    · exact ⟨_, .inr ⟨rfl, rfl⟩, .cons hR hRs'⟩

/-- No run goes on for ever. -/
def Ends (Step : σ → Option ε → σ → Prop) (s : σ) : Prop := Acc (fun s' s => ∃ l, Step s l s') s

theorem Ends.of_decreasing {Step : σ → Option ε → σ → Prop} {I : σ → Prop} (size : σ → ℕ)
    (hstep : ∀ {s l s'}, I s → Step s l s' → I s' ∧ size s' < size s) {s : σ} (hI : I s) :
    Ends Step s := by
  induction hn : size s using Nat.strong_induction_on generalizing s with
  | h n ih =>
    subst hn
    refine Acc.intro s fun s' hs => ?_
    obtain ⟨l, hs⟩ := hs
    obtain ⟨hI', hlt⟩ := hstep hI hs
    exact ih _ hlt hI' rfl

theorem Pool.decreases {Step : α → Option ε → α → List α → Prop} {I : α → Prop} (size : α → ℕ)
    (hstep : ∀ {a l a' as}, I a → Step a l a' as → size a' + (as.map size).sum < size a)
    {xs xs' : List α} {l : Option ε} (h : Pool Step xs l xs') :
    (∀ x ∈ xs, I x) → (xs'.map size).sum < (xs.map size).sum := by
  induction h with
  | head xs hs =>
    intro hI
    have hlt := hstep (hI _ List.mem_cons_self) hs
    rw [List.map_append, List.sum_append, List.map_cons, List.sum_cons, List.map_cons,
      List.sum_cons]
    omega
  | tail x _ ih =>
    intro hI
    have hlt := ih fun y hy => hI y (List.mem_cons_of_mem _ hy)
    rw [List.map_cons, List.sum_cons, List.map_cons, List.sum_cons]
    omega

end Labelled
