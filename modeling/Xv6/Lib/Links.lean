import Mathlib

/-!
# Circular doubly linked lists

Nodes with two pointers each, as two functions.  The list starts and ends at a node that is
not one of its elements.

## Main definitions

* `Circular next prev h l` — from `h` on, the pointers go through `l` and back to `h`.
* `scan` — the search along one of the pointers.

## Main results

* `Circular.inverse` — **the two pointers are inverse to each other.**
* `Circular.unlink`, `Circular.link` — an element is taken out, and put in behind `h`.
* `Circular.scan_next`, `Circular.scan_prev` — the searches end, with the first or the last element.
-/

namespace Links

variable {N : Type*} {next prev : N → N} {h : N} {l : List N}

/-- The node `b` follows `a`. -/
def Linked (next prev : N → N) (a b : N) : Prop := next a = b ∧ prev b = a

/-- From `h` on, the pointers go through the elements of `l` and back to `h`. -/
structure Circular (next prev : N → N) (h : N) (l : List N) : Prop where
  nodup : (h :: l).Nodup
  chain : List.IsChain (Linked next prev) (h :: (l ++ [h]))

theorem Circular.not_mem (hr : Circular next prev h l) : h ∉ l := (List.nodup_cons.mp hr.nodup).1

/-- The ring the other way round. -/
theorem Circular.reverse (hr : Circular next prev h l) : Circular prev next h l.reverse where
  nodup := by
    rw [List.nodup_cons, List.mem_reverse, List.nodup_reverse]
    exact List.nodup_cons.mp hr.nodup
  chain := by
    have hchain : List.IsChain (fun a b => Linked prev next b a) (h :: (l ++ [h])) :=
      hr.chain.imp fun a b hab => ⟨hab.2, hab.1⟩
    rw [← List.isChain_reverse] at hchain
    simpa using hchain

/-- **The pointers are inverse to each other.** -/
theorem Circular.inverse (hr : Circular next prev h l) {a : N} (ha : a ∈ h :: l) :
    prev (next a) = a := by
  obtain ⟨l₁, l₂, hl⟩ := List.append_of_mem ha
  have hchain := hr.chain
  rw [← List.cons_append, hl, List.append_assoc, List.cons_append] at hchain
  cases l₂ with
  | nil =>
    rw [List.nil_append, List.isChain_append_cons_cons] at hchain
    rw [hchain.2.1.1, hchain.2.1.2]
  | cons b l₂ =>
    rw [List.cons_append, List.isChain_append_cons_cons] at hchain
    rw [hchain.2.1.1, hchain.2.1.2]

theorem Circular.inverse' (hr : Circular next prev h l) {a : N} (ha : a ∈ h :: l) :
    next (prev a) = a := by
  refine hr.reverse.inverse ?_
  rw [List.mem_cons, List.mem_reverse]
  exact List.mem_cons.mp ha

/-- No element is linked to itself. -/
theorem Circular.next_ne (hr : Circular next prev h l) {a : N} (ha : a ∈ l) : next a ≠ a := by
  intro heq
  obtain ⟨l₁, l₂, rfl⟩ := List.append_of_mem ha
  obtain ⟨c, k, hk⟩ : ∃ c k, l₂ ++ [h] = c :: k := List.exists_cons_of_ne_nil (by simp)
  have hchain := hr.chain
  rw [List.append_assoc, List.cons_append, hk, List.isChain_cons_split,
    List.isChain_cons_cons] at hchain
  have hnodup : (l₁ ++ a :: c :: k).Nodup := by
    rw [← hk, ← List.cons_append, ← List.append_assoc, List.nodup_append_comm]
    exact hr.nodup
  have hac := (List.nodup_cons.mp (List.nodup_append.mp hnodup).2.1).1
  rw [← hchain.2.1.1, heq] at hac
  exact hac List.mem_cons_self

variable [DecidableEq N]

/-- An element is taken out. -/
theorem Circular.unlink {b : N} (hr : Circular next prev h l) (hb : b ∈ l) :
    Circular (Function.update next (prev b) (next b)) (Function.update prev (next b) (prev b)) h
      (l.erase b) := by
  have hback : next (prev b) = b := hr.inverse' (List.mem_cons_of_mem h hb)
  have hforth : prev (next b) = b := hr.inverse (List.mem_cons_of_mem h hb)
  have hbh : b ≠ h := fun heq => hr.not_mem (heq ▸ hb)
  -- a link between two other nodes remains
  have hkeep : ∀ x y, x ≠ b → y ≠ b → Linked next prev x y →
      Linked (Function.update next (prev b) (next b))
        (Function.update prev (next b) (prev b)) x y := by
    rintro x y hx hy ⟨hxy, hyx⟩
    have hx' : x ≠ prev b := by
      rintro rfl
      exact hy (hxy.symm.trans hback)
    have hy' : y ≠ next b := by
      rintro rfl
      exact hx (hyx.symm.trans hforth)
    exact ⟨(Function.update_of_ne hx' _ _).trans hxy, (Function.update_of_ne hy' _ _).trans hyx⟩
  obtain ⟨l₁, l₂, hl₁, rfl, herase⟩ := List.exists_erase_eq hb
  rw [herase]
  have hnodup := hr.nodup
  have hb₂ : b ∉ l₂ := by
    have hsplit := (List.nodup_append.mp (List.nodup_cons.mp hnodup).2).2.1
    exact (List.nodup_cons.mp hsplit).1
  have hchain := hr.chain
  rw [List.append_assoc, List.cons_append, List.isChain_cons_split] at hchain
  obtain ⟨hleft, hright⟩ := hchain
  refine ⟨hnodup.sublist (List.Sublist.cons_cons h
    (List.Sublist.append_left (List.sublist_cons_self b l₂) l₁)), ?_⟩
  obtain ⟨k₁, a, hk₁⟩ : ∃ k₁ a, h :: l₁ = k₁ ++ [a] :=
    ⟨_, _, (List.dropLast_append_getLast (List.cons_ne_nil h l₁)).symm⟩
  obtain ⟨c, k₂, hk₂⟩ : ∃ c k₂, l₂ ++ [h] = c :: k₂ :=
    List.exists_cons_of_ne_nil (by simp)
  rw [← List.cons_append, hk₁, List.append_assoc, List.singleton_append,
    List.isChain_append_cons_cons] at hleft
  rw [hk₂, List.isChain_cons_cons] at hright
  have hmem₁ : ∀ x ∈ k₁ ++ [a], x ≠ b := by
    rw [← hk₁]
    rintro x hx rfl
    rcases List.mem_cons.mp hx with rfl | hx
    · exact hbh rfl
    · exact hl₁ hx
  have hmem₂ : ∀ x ∈ c :: k₂, x ≠ b := by
    rw [← hk₂]
    rintro x hx rfl
    rcases List.mem_append.mp hx with hx | hx
    · exact hb₂ hx
    · exact hbh (List.mem_singleton.mp hx)
  rw [List.append_assoc, hk₂, ← List.cons_append, hk₁, List.append_assoc, List.singleton_append,
    List.isChain_append_cons_cons]
  refine ⟨hleft.1.imp_of_mem_imp fun x y hx hy => hkeep x y (hmem₁ x hx) (hmem₁ y hy), ?_,
    hright.2.imp_of_mem_imp fun x y hx hy => hkeep x y (hmem₂ x hx) (hmem₂ y hy)⟩
  rw [← hleft.2.1.2, ← hright.1.1]
  exact ⟨Function.update_self _ _ _, Function.update_self _ _ _⟩

/-- A new element is put in behind `h`. -/
theorem Circular.link {b : N} (hr : Circular next prev h l) (hbh : b ≠ h) (hb : b ∉ l) :
    Circular (Function.update (Function.update next b (next h)) h b)
      (Function.update (Function.update prev b h) (next h) b) h (b :: l) := by
  obtain ⟨c, k, hk⟩ : ∃ c k, l ++ [h] = c :: k := List.exists_cons_of_ne_nil (by simp)
  have hchain := hr.chain
  rw [hk, List.isChain_cons_cons] at hchain
  obtain ⟨⟨rfl, hback⟩, hrest⟩ := hchain
  have hnodup : (next h :: k).Nodup := by
    rw [← hk, List.nodup_append_comm]
    exact hr.nodup
  have hmem : ∀ x ∈ next h :: k, x ≠ b := by
    rw [← hk]
    rintro x hx rfl
    rcases List.mem_append.mp hx with hx | hx
    · exact hb hx
    · exact hbh (List.mem_singleton.mp hx)
  refine ⟨?_, ?_⟩
  · have hold := List.nodup_cons.mp hr.nodup
    simp only [List.nodup_cons, List.mem_cons, not_or]
    exact ⟨⟨hbh.symm, hold.1⟩, hb, hold.2⟩
  · rw [List.cons_append, hk, List.isChain_cons_cons, List.isChain_cons_cons]
    have hnext : next h ≠ b := hmem _ List.mem_cons_self
    refine ⟨⟨Function.update_self _ _ _, ?_⟩, ⟨?_, Function.update_self _ _ _⟩,
      hrest.imp_of_mem_tail_imp fun x y hx hy hxy => ?_⟩
    · rw [Function.update_of_ne hnext.symm, Function.update_self]
    · rw [Function.update_of_ne hbh, Function.update_self]
    · -- a link between two of the old elements
      have hy' : y ≠ next h := by
        rintro rfl
        exact (List.nodup_cons.mp hnodup).1 hy
      have hx' : x ≠ h := by
        rintro rfl
        exact hy' hxy.1.symm
      refine ⟨?_, ?_⟩
      · rw [Function.update_of_ne hx', Function.update_of_ne (hmem x hx), hxy.1]
      · rw [Function.update_of_ne hy', Function.update_of_ne (hmem y (List.mem_cons_of_mem _ hy)),
          hxy.2]

/-- The search along the pointer `step` for a node with a property, up to `h`; it gives up
after some steps. -/
def scan (step : N → N) (h : N) (c : N → Bool) : ℕ → N → Option (Option N)
  | 0, _ => none
  | n + 1, b => if b = h then some none else if c b then some (some b) else scan step h c n (step b)

/-- A search that starts in the middle. -/
theorem scan_of_chain {c : N → Bool} {n : ℕ} : ∀ {l : List N} {a : N}, h ∉ l →
    List.IsChain (Linked next prev) (a :: (l ++ [h])) → l.length < n →
    scan next h c n (next a) = some (l.find? c) := by
  induction n with
  | zero => intro l a _ _ hn; omega
  | succ n ih =>
    intro l a hl hchain hn
    cases l with
    | nil =>
      rw [(List.isChain_cons_cons.mp hchain).1.1, scan, if_pos rfl]
      rfl
    | cons b l =>
      rw [List.cons_append, List.isChain_cons_cons] at hchain
      rw [List.mem_cons, not_or] at hl
      rw [hchain.1.1, scan, if_neg (Ne.symm hl.1), List.find?_cons]
      cases hc : c b with
      | true => rfl
      | false => exact ih hl.2 hchain.2 (by rw [List.length_cons] at hn; omega)

/-- **The search from `h` on ends** with the first element that has the property. -/
theorem Circular.scan_next (hr : Circular next prev h l) (c : N → Bool) {n : ℕ}
    (hn : l.length < n) : scan next h c n (next h) = some (l.find? c) :=
  scan_of_chain hr.not_mem hr.chain hn

/-- The search the other way ends with the last one. -/
theorem Circular.scan_prev (hr : Circular next prev h l) (c : N → Bool) {n : ℕ}
    (hn : l.length < n) : scan prev h c n (prev h) = some (l.reverse.find? c) :=
  hr.reverse.scan_next c (by rwa [List.length_reverse])

/-! ### A walk -/

/-- The first node with a property, from `b` on along `step`; it gives up after some steps. -/
def seek {N : Type*} (step : N → N) (c : N → Bool) : ℕ → N → Option N
  | 0, _ => none
  | n + 1, b => if c b then some b else seek step c n (step b)

/-- **The walk ends** if it comes to a node with the property. -/
theorem seek_of_iterate {N : Type*} {f : N → N} {c : N → Bool} :
    ∀ {k n : ℕ} {b : N}, k < n → c (f^[k] b) →
      ∃ j ≤ k, seek f c n b = some (f^[j] b) ∧ c (f^[j] b) := by
  intro k
  induction k with
  | zero =>
    intro n b hn hc
    obtain ⟨n, rfl⟩ := Nat.exists_eq_succ_of_ne_zero (Nat.pos_iff_ne_zero.mp hn)
    exact ⟨0, le_rfl, if_pos hc, hc⟩
  | succ k ih =>
    intro n b hn hc
    obtain ⟨n, rfl⟩ := Nat.exists_eq_succ_of_ne_zero (Nat.pos_iff_ne_zero.mp (by omega : 0 < n))
    by_cases hb : c b = true
    · exact ⟨0, Nat.zero_le _, if_pos hb, hb⟩
    · obtain ⟨j, hj, hseek, hcj⟩ := ih (n := n) (b := f b) (by omega) hc
      exact ⟨j + 1, by omega, (if_neg hb).trans hseek, hcj⟩

end Links
