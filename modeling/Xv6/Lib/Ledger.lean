import Mathlib

/-!
# Things that are held

Each place of a finite table holds a list of things, and the others are in stock.

* `total` — all things, wherever they are.
* `total_update` — **a place and the stock exchange things**, and none is lost or made.
* `nodup_place`, `disjoint_places` — where no thing is there twice, it is in one place.
-/

namespace Ledger

variable {ι α : Type*} [Fintype ι] [DecidableEq ι]

/-- All things, with how often each one is there. -/
@[irreducible] def total (held : ι → List α) (stock : List α) : Multiset α :=
  ∑ i, (held i : Multiset α) + (stock : Multiset α)

variable {held : ι → List α} {stock stock' : List α} {i j : ι} {l : List α}

/-- What a place holds, what is in stock, and the rest. -/
theorem total_eq (held : ι → List α) (stock : List α) (i : ι) :
    total held stock = ((held i ++ stock : List α) : Multiset α) +
      ∑ j ∈ Finset.univ.erase i, (held j : Multiset α) := by
  rw [total, ← Finset.add_sum_erase Finset.univ _ (Finset.mem_univ i), ← Multiset.coe_add]
  abel

theorem total_update (h : (l ++ stock').Perm (held i ++ stock)) :
    total (Function.update held i l) stock' = total held stock := by
  rw [total_eq _ _ i, total_eq held stock i, Function.update_self, Multiset.coe_eq_coe.mpr h]
  refine congrArg _ (Finset.sum_congr rfl fun j hj => ?_)
  rw [Function.update_of_ne (Finset.ne_of_mem_erase hj)]

theorem nodup_place (h : (total held stock).Nodup) (i : ι) : (held i ++ stock).Nodup := by
  rw [total_eq held stock i] at h
  exact Multiset.coe_nodup.mp (Multiset.nodup_of_le (Multiset.le_add_right _ _) h)

theorem disjoint_places (h : (total held stock).Nodup) (hij : i ≠ j) :
    (held i).Disjoint (held j) := by
  intro x hi hj
  rw [total_eq held stock i, Multiset.nodup_add] at h
  refine Multiset.disjoint_left.mp h.2.2 (Multiset.mem_coe.mpr (List.mem_append_left _ hi)) ?_
  exact Multiset.mem_sum.mpr ⟨j, Finset.mem_erase.mpr ⟨hij.symm, Finset.mem_univ j⟩, hj⟩

theorem mem_total_place {x : α} (h : x ∈ held i ++ stock) : x ∈ total held stock := by
  rw [total_eq held stock i]
  exact Multiset.mem_add.mpr (.inl (Multiset.mem_coe.mpr h))

end Ledger
