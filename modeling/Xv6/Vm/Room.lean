import Xv6.Vm.Setupkvm
import Xv6.Vm.Alloc

/-!
# Where memory does not run out

A page directory has no more than 1024 page tables, so that with more free pages than these and
the pages that are asked for, nothing in `vm.c` runs out of memory.

* `PgDir.stock` — the page tables and the free pages, which `mappages` does not change.
* `wp_mappages_room`, `wp_setupkvm_room`, `wp_allocuvm_room` — **the code does not fail where
  there is room.**
-/

namespace Xv6
namespace Vm

open Prog

/-- The number of the page tables and of the free pages. -/
def PgDir.stock (d : PgDir) (s : Ram) : ℕ := d.tables.length + s.freelist.length

theorem PgDir.length_tables_le (d : PgDir) : d.tables.length ≤ 1024 := by
  rw [PgDir.tables]
  exact (List.length_filterMap_le _ _).trans_eq List.length_range

section Room

variable {L : Layout} {s : Ram} {d : PgDir}

/-- A page table that is not found has no page. -/
theorem wp_walkpgdir_stock (va : ℕ) :
    wp (walkpgdir d va true) (fun _ => True) (fun r s' => r.1.stock s' = d.stock s ∧
      (r.2 = false → s'.freelist = [])) s := by
  have hgrown := wp_walkpgdir_alloc (E := fun _ => True) (d := d) (s := s) va
  have hempty : wp (walkpgdir d va true) (fun _ => True)
      (fun r s' => r.2 = false → s'.freelist = []) s := by
    rw [walkpgdir]
    split
    · exact fun hf => by cases hf
    · rw [if_pos rfl, wp_bind, wp_kalloc]
      split
      · next hnil => exact fun _ => hnil
      · simp only [wp_bind, fill, wp_modify, wp_pure]
        exact fun hf => by cases hf
  refine wp_mono (wp_and hgrown hempty) (fun r s' h => ⟨?_, h.2⟩) fun _ _ => trivial
  have hlen := h.1.1.owned.length_eq
  rw [List.length_append, List.length_append] at hlen
  exact hlen

theorem wp_mapLoop_stock (last perm : ℕ) : ∀ (n a pa : ℕ) (d : PgDir) (s : Ram),
    wp (mapLoop last perm n a pa d) (fun _ => True) (fun r s' => r.1.stock s' = d.stock s ∧
      (r.2 = false → s'.freelist = [])) s := by
  intro n
  induction n with
  | zero => intro a pa d s; exact trivial
  | succ n ih =>
    intro a pa d s
    rw [mapLoop, wp_bind]
    refine wp_imp (wp_walkpgdir_stock a) ?_
    rintro ⟨d₁, found⟩ s₁ ⟨hstock, hempty⟩
    dsimp only at hstock hempty ⊢
    have hset : ∀ e, (d₁.setEntry a e).stock s₁ = d.stock s := fun e => by
      rw [PgDir.stock, PgDir.tables_setEntry]
      exact hstock
    -- only where there is no page table the loop returns before its end
    rw [wp_ite]
    refine ⟨fun _ => ?_, fun hno => ⟨hstock, fun _ => hempty (Bool.not_eq_true _ ▸ hno)⟩⟩
    rw [wp_ite]
    refine ⟨fun _ => trivial, fun _ => ?_⟩
    rw [wp_ite]
    refine ⟨fun _ => ⟨hset _, fun hf => by cases hf⟩, fun _ => ?_⟩
    refine wp_imp (ih _ _ _ _) fun r s' h => ⟨h.1.trans (hset _), h.2⟩

/-- **`mappages` does not fail** where there are more pages than page tables. -/
theorem wp_mappages_room {va size pa perm : ℕ} (hroom : 1024 < d.stock s) :
    wp (mappages d va size pa perm) (fun _ => True) (fun r s' => r.1.stock s' = d.stock s ∧
      r.2 = true) s := by
  rw [mappages]
  refine wp_imp (wp_mapLoop_stock _ _ _ _ _ _ _) fun r s' h => ⟨h.1, ?_⟩
  by_contra hno
  have hempty := h.2 (Bool.not_eq_true _ ▸ hno)
  have hmax := r.1.length_tables_le
  have hstock := h.1
  rw [PgDir.stock, hempty, List.length_nil] at hstock
  omega

theorem wp_kmapLoop_room : ∀ (ks : List Kmap) (d : PgDir) (s : Ram), 1024 < d.stock s →
    wp (kmapLoop d ks) (fun _ => True) (fun r _ => r.2 = true) s := by
  intro ks
  induction ks with
  | nil => intro d s _; exact rfl
  | cons k ks ih =>
    intro d s hroom
    rw [kmapLoop, wp_bind]
    refine wp_imp (wp_mappages_room hroom) ?_
    rintro ⟨d', ok⟩ s' ⟨hstock, hok⟩
    dsimp only at hstock hok ⊢
    rw [if_pos hok]
    exact ih d' s' (hroom.trans_eq hstock.symm)

/-- **`setupkvm` does not fail** where there is room. -/
theorem wp_setupkvm_room (hroom : 1025 < s.freelist.length) :
    wp (setupkvm L) (fun _ => True) (fun r _ => r ≠ none) s := by
  rw [setupkvm, wp_bind, wp_kalloc]
  split
  · next hnil =>
    rw [hnil, List.length_nil] at hroom
    omega
  · next f l hfree =>
    rw [hfree, List.length_cons] at hroom
    simp only [wp_bind, fill, wp_modify]
    rw [wp_ite]
    refine ⟨fun _ => trivial, fun _ => ?_⟩
    rw [wp_bind]
    refine wp_imp (wp_kmapLoop_room (kmap L) (PgDir.empty f) _ ?_) ?_
    · rw [PgDir.stock, PgDir.tables_empty, List.length_nil, Nat.zero_add]
      exact Nat.lt_of_succ_lt_succ hroom
    · rintro ⟨d, ok⟩ s' hok
      dsimp only at hok ⊢
      rw [if_pos hok]
      exact Option.some_ne_none d

theorem wp_allocLoop_room {oldsz newsz : ℕ} (hnew : newsz < kernbase) :
    ∀ (k v : ℕ) (d : PgDir) (s : Ram), npages newsz - v + 1024 < d.stock s →
    wp (allocLoop L oldsz newsz k (v * 4096) d) (fun _ => True) (fun r _ => r.2 = newsz) s := by
  have hmax := npages_le hnew.le
  intro k
  induction k with
  | zero => intro v d s _; exact trivial
  | succ k ih =>
    intro v d s hroom
    rw [allocLoop, wp_ite]
    refine ⟨fun hlt => ?_, fun _ => rfl⟩
    have hv : v < npages newsz := by
      rw [npages]
      omega
    have htables := d.length_tables_le
    rw [wp_bind, wp_kalloc]
    split
    · next hnil =>
      rw [PgDir.stock, hnil, List.length_nil] at hroom
      omega
    · next f l hfree =>
      -- one page is taken, and one page less is to be taken
      rw [PgDir.stock, hfree, List.length_cons] at hroom
      rw [wp_bind, fill, wp_modify, wp_bind]
      refine wp_imp (wp_mappages_room ?_) ?_
      · rw [PgDir.stock]
        dsimp only
        omega
      · rintro ⟨d', ok⟩ s' ⟨hstock, hok⟩
        dsimp only at hstock hok ⊢
        rw [if_pos hok, next_page (by omega)]
        refine ih (v + 1) d' s' ?_
        rw [hstock, PgDir.stock]
        dsimp only
        omega

/-- **`allocuvm` does not fail** where there is room for the new pages. -/
theorem wp_allocuvm_room {oldsz newsz : ℕ} (hle : oldsz ≤ newsz) (hnew : newsz < kernbase)
    (hroom : npages newsz - npages oldsz + 1024 < d.stock s) :
    wp (allocuvm L d oldsz newsz) (fun _ => True) (fun r _ => r.2 = newsz) s := by
  rw [allocuvm, if_neg (by omega), if_neg (by omega), pgroundup_eq (by omega)]
  exact wp_allocLoop_room hnew rounds (npages oldsz) d s hroom

end Room

end Vm
end Xv6
