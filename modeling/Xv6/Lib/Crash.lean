import Mathlib

/-!
# Writes that can be cut short

A store that is written one cell at a time, and may lose power between any two
writes.  What a procedure does to it is then not its result but its list of writes, of
which any initial part may be all that happens.  A recovery procedure is run at each
boot; it may be cut short as well, any number of times, before it runs to its end.

## Main definitions

* `apply` — the cells after a list of writes.
* `reboots`, `recovered` — the cells after recoveries that are cut short, and after a last
  one that is not.

## Main results

* `map_apply_zip` — what a list of writes to different cells leaves in them.
* `recovered_of_invariant` — **the recovery rule.**
-/

namespace Crash

variable {α β : Type*} [DecidableEq α]

/-! ### Writes -/

/-- The cells after some writes. -/
def apply (d : α → β) (ws : List (α × β)) : α → β :=
  ws.foldl (fun d w => Function.update d w.1 w.2) d

@[simp] theorem apply_nil (d : α → β) : apply d [] = d := rfl

@[simp] theorem apply_cons (d : α → β) (w : α × β) (ws : List (α × β)) :
    apply d (w :: ws) = apply (Function.update d w.1 w.2) ws := rfl

theorem apply_append (d : α → β) (ws vs : List (α × β)) :
    apply d (ws ++ vs) = apply (apply d ws) vs := List.foldl_append

/-- A cell that no write is to keeps its value. -/
theorem apply_of_forall_ne {ws : List (α × β)} {a : α} (h : ∀ w ∈ ws, w.1 ≠ a) (d : α → β) :
    apply d ws a = d a := by
  induction ws generalizing d with
  | nil => rfl
  | cons w ws ih =>
    rw [apply_cons, ih fun v hv => h v (List.mem_cons_of_mem w hv),
      Function.update_of_ne (h w List.mem_cons_self).symm]

/-- Writes to the cells `as` leave the others alone. -/
theorem apply_zip_of_notMem {as : List α} {vs : List β} {a : α} (h : a ∉ as) (d : α → β) :
    apply d (as.zip vs) a = d a := by
  refine apply_of_forall_ne (fun w hw heq => h ?_) d
  rw [← heq]
  exact (List.of_mem_zip hw).1

/-- Nor does an initial part of them touch the others. -/
theorem apply_take_zip_of_notMem {as : List α} {vs : List β} {a : α} (h : a ∉ as) (d : α → β)
    (k : ℕ) : apply d ((as.zip vs).take k) a = d a := by
  refine apply_of_forall_ne (fun w hw heq => h ?_) d
  rw [← heq]
  exact (List.of_mem_zip (List.mem_of_mem_take hw)).1

/-- Writes to different cells leave in them what was written. -/
theorem map_apply_zip : ∀ {as : List α} (vs : List β) (d : α → β), as.Nodup →
    as.length = vs.length → as.map (apply d (as.zip vs)) = vs := by
  intro as
  induction as with
  | nil =>
    intro vs d _ hlen
    exact (List.length_eq_zero_iff.mp hlen.symm).symm
  | cons a as ih =>
    intro vs d hnodup hlen
    cases vs with
    | nil => contradiction
    | cons v vs =>
      rw [List.nodup_cons] at hnodup
      rw [List.zip_cons_cons, apply_cons, List.map_cons, apply_zip_of_notMem hnodup.1,
        Function.update_self, ih _ _ hnodup.2 (by simpa using hlen)]

/-- The same, for values given by a function of the cell. -/
theorem apply_zip_map {as : List α} {f : α → β} {a : α} (ha : a ∈ as) (hnodup : as.Nodup)
    (d : α → β) : apply d (as.zip (as.map f)) a = f a := by
  have hmap := map_apply_zip _ d hnodup (List.length_map f).symm
  exact List.map_inj_left.mp hmap a ha

/-! ### Recovery -/

/-- The cells after boots whose recoveries are cut short, each after so many writes.
`recover` gives the writes that a recovery from some cells issues. -/
def reboots (recover : (α → β) → Option (List (α × β))) :
    (α → β) → List ℕ → Option (α → β)
  | d, [] => some d
  | d, k :: ks => (recover d).bind fun ws => reboots recover (apply d (ws.take k)) ks

/-- The cells after such boots and a last one, whose recovery runs to its end. -/
def recovered (recover : (α → β) → Option (List (α × β))) (d : α → β) (ks : List ℕ) :
    Option (α → β) :=
  (reboots recover d ks).bind fun d' => (recover d').map (apply d')

/-- **The recovery rule.**  Let `Inv` be kept by every initial part of a recovery, and let
a recovery that runs to its end establish `Post`.  Then `Post` holds after any number of
recoveries that are cut short and one that is not. -/
theorem recovered_of_invariant {recover : (α → β) → Option (List (α × β))}
    (Inv : (α → β) → Prop) {Post : (α → β) → Prop}
    (h : ∀ d, Inv d → ∃ ws, recover d = some ws ∧ (∀ k, Inv (apply d (ws.take k))) ∧
      Post (apply d ws)) :
    ∀ (ks : List ℕ) (d : α → β), Inv d → ∃ d', recovered recover d ks = some d' ∧ Post d' := by
  intro ks
  induction ks with
  | nil =>
    intro d hd
    obtain ⟨ws, hws, _, hpost⟩ := h d hd
    exact ⟨apply d ws, by simp [recovered, reboots, hws], hpost⟩
  | cons k ks ih =>
    intro d hd
    obtain ⟨ws, hws, hinv, _⟩ := h d hd
    obtain ⟨d', hd', hpost⟩ := ih (apply d (ws.take k)) (hinv k)
    exact ⟨d', by rw [← hd', recovered, reboots, hws]; rfl, hpost⟩

end Crash
