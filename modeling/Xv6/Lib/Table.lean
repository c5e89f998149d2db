import Mathlib

/-!
# Tables with a fixed number of slots

* `find` — the first slot with a property, as a scan from the start finds it.
* `sum_update` — **a sum over a table after one slot has changed**.
-/

namespace Table

/-- The first index with a property. -/
def find {n : ℕ} (c : Fin n → Bool) : Option (Fin n) := (List.finRange n).find? c

variable {n : ℕ} {c : Fin n → Bool}

theorem find_spec {i : Fin n} (h : find c = some i) : c i = true := List.find?_some h

theorem find_eq_none : find c = none ↔ ∀ i, c i = false := by
  rw [find, List.find?_eq_none]
  simp

/-- A sum after one of its terms has changed. -/
theorem sum_update {ι α : Type*} [Fintype ι] [DecidableEq ι] (w : α → ℤ) (g : ι → α) (a : ι)
    (v : α) : ∑ i, w (Function.update g a v i) = ∑ i, w (g i) - w (g a) + w v := by
  have hw : (fun i => w (Function.update g a v i)) =
      Function.update (fun i => w (g i)) a (w v) := by
    funext i
    by_cases hi : i = a
    · rw [hi, Function.update_self, Function.update_self]
    · rw [Function.update_of_ne hi, Function.update_of_ne hi]
  have hsum := Finset.add_sum_erase Finset.univ (fun i => w (g i)) (Finset.mem_univ a)
  rw [hw, Finset.sum_update_of_mem (Finset.mem_univ a), Finset.sdiff_singleton_eq_erase, ← hsum]
  ring

end Table
