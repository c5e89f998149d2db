import Mathlib

/-!
# Programs that change a state and may stop

A program over a state `σ` that may stop for good with a reason `ε`.  What is said of it is
a weakest precondition, with one postcondition for its return and another for its stopping:
the second one is what tells total correctness (it never stops) from partial correctness
(it may stop) and from everything between (it stops for no reason but these).

## Main definitions

* `Prog` — the programs.
* `wp` — the states from which a run returns into `Q`, or stops for a reason in `E`.
* `Prog.zoom` — a program on a part of a larger state.
* `Prog.Erases` — a program that keeps a record does what another one does.

## Main results

* `wp_bind`, `wp_pure`, `wp_stop`, `wp_get`, `wp_modify`, … — the rules of the language.
* `wp_mono` — **the rule of consequence**.
* `wp_zoom` — the rule for a part of the state.
* `Erases.wp` — the rule for programs that keep a record.
-/

/-- A program on states `σ` that returns an `α`, or stops with an `ε`. -/
abbrev Prog (σ ε α : Type) := StateT σ (Except ε) α

namespace Prog

variable {σ τ ε α β : Type}

/-- The program stops. -/
def stop (e : ε) : Prog σ ε α := fun _ => .error e

/-- The states from which `x` returns into `Q`, or stops for a reason in `E`. -/
def wp (x : Prog σ ε α) (E : ε → Prop) (Q : α → σ → Prop) (s : σ) : Prop :=
  match x s with
  | .ok (a, s') => Q a s'
  | .error e => E e

variable {E : ε → Prop} {s : σ}

/-- What the precondition says of a run that returns. -/
theorem wp_ok {x : Prog σ ε α} {Q : α → σ → Prop} (h : wp x E Q s) {a : α} {s' : σ}
    (hx : x s = .ok (a, s')) : Q a s' := by
  rw [wp, hx] at h
  exact h

/-- What the precondition says of a run that stops. -/
theorem wp_error {x : Prog σ ε α} {Q : α → σ → Prop} (h : wp x E Q s) {e : ε}
    (hx : x s = .error e) : E e := by
  rw [wp, hx] at h
  exact h

/-- A program that never stops returns. -/
theorem exists_of_wp {x : Prog σ ε α} {Q : α → σ → Prop} (h : wp x (fun _ => False) Q s) :
    ∃ a s', x s = .ok (a, s') ∧ Q a s' := by
  rw [wp] at h
  cases hx : x s with
  | ok r =>
    rw [hx] at h
    exact ⟨r.1, r.2, rfl, h⟩
  | error e =>
    rw [hx] at h
    exact h.elim

/-- The one result of a program, found by the rules. -/
theorem eq_ok_of_wp {x : Prog σ ε α} {a : α} {s' : σ}
    (h : wp x (fun _ => False) (fun b t => b = a ∧ t = s') s) : x s = .ok (a, s') := by
  obtain ⟨b, t, hx, rfl, rfl⟩ := exists_of_wp h
  exact hx

/-- The one reason why a program stops. -/
theorem eq_error_of_wp {x : Prog σ ε α} {e : ε}
    (h : wp x (fun e' => e' = e) (fun _ _ => False) s) : x s = .error e := by
  rw [wp] at h
  cases hx : x s with
  | ok r =>
    rw [hx] at h
    exact h.elim
  | error e' =>
    rw [hx] at h
    rw [h]

/-- **The rule of consequence.** -/
theorem wp_mono {x : Prog σ ε α} {E' : ε → Prop} {Q Q' : α → σ → Prop} (h : wp x E Q s)
    (hQ : ∀ a s', Q a s' → Q' a s') (hE : ∀ e, E e → E' e) : wp x E' Q' s := by
  rw [wp] at h ⊢
  cases hx : x s with
  | ok r =>
    rw [hx] at h
    exact hQ _ _ h
  | error e =>
    rw [hx] at h
    exact hE _ h

/-- Two rules for one program. -/
theorem wp_and {x : Prog σ ε α} {E' : ε → Prop} {Q Q' : α → σ → Prop} (h : wp x E Q s)
    (h' : wp x E' Q' s) : wp x (fun e => E e ∧ E' e) (fun a s' => Q a s' ∧ Q' a s') s := by
  rw [wp] at h h' ⊢
  cases hx : x s with
  | ok r =>
    rw [hx] at h h'
    exact ⟨h, h'⟩
  | error e =>
    rw [hx] at h h'
    exact ⟨h, h'⟩

/-- The rule of consequence, for the return only. -/
theorem wp_imp {x : Prog σ ε α} {Q Q' : α → σ → Prop} (h : wp x E Q s)
    (hQ : ∀ a s', Q a s' → Q' a s') : wp x E Q' s :=
  wp_mono h hQ fun _ => id

/-- Nothing is asked of the program. -/
theorem wp_trivial (x : Prog σ ε α) : wp x (fun _ => True) (fun _ _ => True) s := by
  rw [wp]
  split <;> trivial

/-! ### The rules of the language -/

@[simp] theorem wp_pure (a : α) (Q : α → σ → Prop) : wp (pure a : Prog σ ε α) E Q s ↔ Q a s :=
  Iff.rfl

@[simp] theorem wp_stop (e : ε) (Q : α → σ → Prop) : wp (stop e : Prog σ ε α) E Q s ↔ E e :=
  Iff.rfl

@[simp] theorem wp_bind (x : Prog σ ε α) (f : α → Prog σ ε β) (Q : β → σ → Prop) :
    wp (x >>= f) E Q s ↔ wp x E (fun a s' => wp (f a) E Q s') s := by
  rw [wp, wp, show (x >>= f) s = (x s >>= fun r => f r.1 r.2) from rfl]
  cases hx : x s with
  | ok r => rfl
  | error e => rfl

@[simp] theorem wp_map (x : Prog σ ε α) (f : α → β) (Q : β → σ → Prop) :
    wp (f <$> x) E Q s ↔ wp x E (fun a s' => Q (f a) s') s := by
  rw [wp, wp, show (f <$> x) s = (x s >>= fun r => .ok (f r.1, r.2)) from rfl]
  cases hx : x s with
  | ok r => rfl
  | error e => rfl

@[simp] theorem wp_get (Q : σ → σ → Prop) : wp (get : Prog σ ε σ) E Q s ↔ Q s s := Iff.rfl

@[simp] theorem wp_set (s' : σ) (Q : PUnit → σ → Prop) :
    wp (set s' : Prog σ ε PUnit) E Q s ↔ Q ⟨⟩ s' := Iff.rfl

@[simp] theorem wp_modify (f : σ → σ) (Q : PUnit → σ → Prop) :
    wp (modify f : Prog σ ε PUnit) E Q s ↔ Q ⟨⟩ (f s) := Iff.rfl

@[simp] theorem wp_modifyGet (f : σ → α × σ) (Q : α → σ → Prop) :
    wp (modifyGet f : Prog σ ε α) E Q s ↔ Q (f s).1 (f s).2 := Iff.rfl

theorem bind_of_ok {x : Prog σ ε α} {a : α} {s' : σ} (hx : x s = .ok (a, s'))
    (f : α → Prog σ ε β) : (x >>= f) s = f a s' := by
  rw [show (x >>= f) s = (x s >>= fun r => f r.1 r.2) from rfl, hx]
  rfl

theorem bind_of_error {x : Prog σ ε α} {e : ε} (hx : x s = .error e) (f : α → Prog σ ε β) :
    (x >>= f) s = .error e := by
  rw [show (x >>= f) s = (x s >>= fun r => f r.1 r.2) from rfl, hx]
  rfl

theorem wp_ite {c : Prop} [Decidable c] {x y : Prog σ ε α} {Q : α → σ → Prop} :
    wp (if c then x else y) E Q s ↔ (c → wp x E Q s) ∧ (¬ c → wp y E Q s) := by
  by_cases hc : c
  · simp [hc]
  · simp [hc]

/-- **The rule of loops over a list**, whose invariant speaks of the elements that are
done. -/
theorem wp_forM {f : α → Prog σ ε PUnit} (inv : List α → σ → Prop) (l : List α) {s : σ}
    (h₀ : inv [] s)
    (h : ∀ done a rest, l = done ++ a :: rest → ∀ s, inv done s →
      wp (f a) E (fun _ s' => inv (done ++ [a]) s') s) :
    wp (l.forM f) E (fun _ s' => inv l s') s := by
  suffices hrest : ∀ rest done s, l = done ++ rest → inv done s →
      wp (rest.forM f) E (fun _ s' => inv l s') s from hrest l [] s rfl h₀
  intro rest
  induction rest with
  | nil =>
    intro done s hl hs
    rw [List.append_nil] at hl
    rw [hl]
    exact hs
  | cons a rest ih =>
    intro done s hl hs
    change wp (f a >>= fun _ => rest.forM f) E _ s
    rw [wp_bind]
    refine wp_imp (h done a rest hl s hs) fun _ s' hs' => ?_
    exact ih (done ++ [a]) s' (by rw [hl, List.append_assoc]; rfl) hs'

/-! ### A part of the state -/

/-- The program `x` on the part of the state that `get` reads and `set` writes. -/
def zoom (get : σ → τ) (set : τ → σ → σ) (x : Prog τ ε α) : Prog σ ε α := fun s =>
  match x (get s) with
  | .ok (a, t) => .ok (a, set t s)
  | .error e => .error e

@[simp] theorem wp_zoom (get : σ → τ) (set : τ → σ → σ) (x : Prog τ ε α) (Q : α → σ → Prop) :
    wp (zoom get set x) E Q s ↔ wp x E (fun a t => Q a (set t s)) (get s) := by
  rw [wp, wp, zoom]
  cases hx : x (get s) with
  | ok r => rfl
  | error e => rfl

/-! ### Programs that keep a record -/

section Erasure

variable {δ : Type} {f : σ → τ} {g : ε → δ}

/-- `x` does what `y` does, on states that hold more, seen through `f`, and stops for reasons that
say more, seen through `g`. -/
def Erases (f : σ → τ) (g : ε → δ) (x : Prog σ ε α) (y : Prog τ δ α) : Prop :=
  ∀ s, y (f s) = match x s with
    | .ok (a, s') => .ok (a, f s')
    | .error e => .error (g e)

theorem erases_pure (a : α) : Erases f g (pure a) (pure a) := fun _ => rfl

theorem Erases.bind {x : Prog σ ε α} {y : Prog τ δ α} {k : α → Prog σ ε β} {l : α → Prog τ δ β}
    (h : Erases f g x y) (hk : ∀ a, Erases f g (k a) (l a)) : Erases f g (x >>= k) (y >>= l) := by
  intro s
  have hs := h s
  cases hx : x s with
  | ok r =>
    rw [hx] at hs
    rw [bind_of_ok hs, bind_of_ok hx]
    exact hk _ _
  | error e =>
    rw [hx] at hs
    rw [bind_of_error hs, bind_of_error hx]

theorem Erases.ite {c : Prop} [Decidable c] {x x' : Prog σ ε α} {y y' : Prog τ δ α}
    (h : Erases f g x y) (h' : Erases f g x' y') :
    Erases f g (if c then x else x') (if c then y else y') := by
  split
  · exact h
  · exact h'

/-- **The rule of erasure.** -/
theorem Erases.wp {x : Prog σ ε α} {y : Prog τ δ α} {E : δ → Prop} {Q : α → τ → Prop}
    (h : Erases f g x y) (hy : wp y E Q (f s)) :
    wp x (fun e => E (g e)) (fun a s' => Q a (f s')) s := by
  rw [Prog.wp, h s] at hy
  rw [Prog.wp]
  cases hx : x s with
  | ok r =>
    rw [hx] at hy
    exact hy
  | error e =>
    rw [hx] at hy
    exact hy

end Erasure

end Prog
