import Mathlib

/-!
# Free lists in the order of the addresses

A range of addresses is cut into blocks.  The free ones are linked in the order of their
addresses, and the last one is linked to a block without contents that lies below the range.

## Main definitions

* `Next` — the cyclic successor in a set of addresses.
* `Arena` — the free blocks `F` are linked, and no two blocks overlap.
* `Tight` — all blocks together are a set of addresses, and free ones do not touch.

## Main results

* `Arena.reach` — **from every free block the links lead to every other one.**
* `Arena.take`, `Arena.carve` — a block is used, or the end of one.
* `Arena.link`, `Arena.merge` — a block is put into the list, and two are made one.
* `Arena.grow` — the range gets longer by one block.
* `Tight.link`, `Tight.merge`, `Tight.settle` — what touches when a block is put into the list.
* `Arena.cycle` — **the list goes once round the free blocks, in the order of their addresses.**
-/

namespace FreeList

/-- `q` is what follows `p`: the next higher address, or the lowest if `p` is the highest. -/
def Next (F : Finset ℕ) (p q : ℕ) : Prop :=
  q ∈ F ∧ ((p < q ∧ ∀ r ∈ F, r ≤ p ∨ q ≤ r) ∨ ∀ r ∈ F, q ≤ r ∧ r ≤ p)

variable {nxt len nxt' len' : ℕ → ℕ} {base lo hi p q r x t n : ℕ} {F H : Finset ℕ}

theorem Next.inj (h : Next F p x) (h' : Next F q x) (hp : p ∈ F) (hq : q ∈ F) : p = q := by
  obtain ⟨-, ⟨hlt, hno⟩ | hall⟩ := h <;> obtain ⟨-, ⟨hlt', hno'⟩ | hall'⟩ := h'
  · have hpq := hno q hq
    have hqp := hno' p hp
    omega
  · have hpq := hall' p hp
    omega
  · have hqp := hall q hq
    omega
  · have hpq := hall q hq
    have hqp := hall' p hp
    omega

/-- What follows is another one, if there is another one. -/
theorem Next.ne (h : Next F p q) (hr : r ∈ F) (hpr : p ≠ r) : q ≠ p := by
  rintro rfl
  obtain ⟨-, ⟨hlt, -⟩ | hall⟩ := h
  · omega
  · have hle := hall r hr
    omega

/-- Without an element elsewhere. -/
theorem Next.erase (h : Next F p q) (hqx : q ≠ x) : Next (F.erase x) p q := by
  obtain ⟨hq, hnext⟩ := h
  refine ⟨Finset.mem_erase.mpr ⟨hqx, hq⟩, hnext.imp ?_ ?_⟩
  · exact fun ⟨hlt, hno⟩ => ⟨hlt, fun r hr => hno r (Finset.mem_of_mem_erase hr)⟩
  · exact fun hall r hr => hall r (Finset.mem_of_mem_erase hr)

/-- Without the element that follows. -/
theorem Next.skip (h : Next F p q) (h' : Next F q x) (hp : p ∈ F) (hpq : p ≠ q) :
    Next (F.erase q) p x := by
  refine ⟨Finset.mem_erase.mpr ⟨h'.ne hp hpq.symm, h'.1⟩, ?_⟩
  obtain ⟨-, ⟨hlt, hno⟩ | hall⟩ := h <;> obtain ⟨-, ⟨hlt', hno'⟩ | hall'⟩ := h'
  · left
    refine ⟨by omega, fun r hr => ?_⟩
    obtain ⟨hrq, hr⟩ := Finset.mem_erase.mp hr
    have hle := hno r hr
    have hle' := hno' r hr
    omega
  · -- `q` was the highest
    right
    intro r hr
    obtain ⟨hrq, hr⟩ := Finset.mem_erase.mp hr
    have hle := hno r hr
    have hle' := hall' r hr
    omega
  · -- `q` was the lowest
    right
    intro r hr
    obtain ⟨hrq, hr⟩ := Finset.mem_erase.mp hr
    have hle := hno' r hr
    have hle' := hall r hr
    omega
  · have hle := hall' p hp
    have hle' := hall p hp
    omega

/-- With one more element, which goes behind `p`. -/
theorem next_insert (h : Next F p q) (hp : p ∈ F) (hpx : p < x) (hxq : x < q ∨ q ≤ p) :
    Next (insert x F) p x ∧ Next (insert x F) x q ∧
      ∀ r ∈ F, r ≠ p → ∀ y, Next F r y → Next (insert x F) r y := by
  refine ⟨?_, ?_, ?_⟩ <;> grind [Next]

/-- The blocks of the range from `lo` to `hi`: the free ones `F`, and `H`. -/
structure Arena (nxt len : ℕ → ℕ) (base lo hi : ℕ) (F H : Finset ℕ) : Prop where
  base_mem : base ∈ F
  base_len : len base = 0
  base_lt : base < lo
  next : ∀ p ∈ F, Next F p (nxt p)
  block : ∀ p ∈ F ∪ H, p ≠ base → lo ≤ p ∧ 0 < len p ∧ p + len p ≤ hi
  apart : ∀ p ∈ F ∪ H, ∀ q ∈ F ∪ H, p < q → p + len p ≤ q
  disjoint : Disjoint F H

theorem Arena.congr {f l : ℕ → ℕ} (h : Arena nxt len base lo hi F H)
    (heq : ∀ p ∈ F ∪ H, (p ∈ F → f p = nxt p) ∧ l p = len p) :
    Arena f l base lo hi F H := by
  have hlen : ∀ p ∈ F ∪ H, l p = len p := fun p hp => (heq p hp).2
  refine ⟨h.base_mem, ?_, h.base_lt, ?_, ?_, ?_, h.disjoint⟩
  · rw [hlen base (Finset.mem_union_left H h.base_mem), h.base_len]
  · intro p hp
    rw [(heq p (Finset.mem_union_left H hp)).1 hp]
    exact h.next p hp
  · intro p hp hbase
    rw [hlen p hp]
    exact h.block p hp hbase
  · intro p hp q hq hpq
    rw [hlen p hp]
    exact h.apart p hp q hq hpq

theorem Arena.next_mem (h : Arena nxt len base lo hi F H) (hp : p ∈ F) : nxt p ∈ F :=
  (h.next p hp).1

theorem Arena.iterate_mem (h : Arena nxt len base lo hi F H) (hp : p ∈ F) :
    ∀ k, nxt^[k] p ∈ F := by
  intro k
  induction k with
  | zero => exact hp
  | succ k ih =>
    rw [Function.iterate_succ_apply']
    exact h.next_mem ih

/-- The base is the lowest block. -/
theorem Arena.base_le (h : Arena nxt len base lo hi F H) (hp : p ∈ F ∪ H) : base ≤ p := by
  by_cases hbase : p = base
  · rw [hbase]
  · have hlo := (h.block p hp hbase).1
    have hlt := h.base_lt
    omega

theorem Arena.base_not_mem (h : Arena nxt len base lo hi F H) : base ∉ H :=
  Finset.disjoint_left.mp h.disjoint h.base_mem

/-- Only the base follows a higher block. -/
theorem Arena.next_of_le (h : Arena nxt len base lo hi F H) (hp : p ∈ F) (hle : nxt p ≤ p) :
    nxt p = base := by
  obtain ⟨hq, ⟨hlt, -⟩ | hlast⟩ := h.next p hp
  · omega
  · have hbase := (hlast base h.base_mem).1
    have hge := h.base_le (Finset.mem_union_left H hq)
    omega

/-- The links lead upwards. -/
theorem Arena.reach_up (h : Arena nxt len base lo hi F H) (ht : t ∈ F) :
    ∀ n p, p ∈ F → p ≤ t → (F.filter (p < ·)).card = n → ∃ k ≤ n, nxt^[k] p = t := by
  intro n
  induction n using Nat.strong_induction_on with
  | _ n ih =>
    intro p hp hpt hn
    by_cases heq : p = t
    · exact ⟨0, Nat.zero_le n, heq⟩
    · -- the next block is between the two
      obtain ⟨hq, hnext⟩ := h.next p hp
      have hpq : p < nxt p ∧ nxt p ≤ t := by
        rcases hnext with ⟨hlt, hbetween⟩ | hlast
        · rcases hbetween t ht with hle | hle <;> omega
        · have hle := (hlast t ht).2
          omega
      have hsmaller : (F.filter (nxt p < ·)).card < n := by
        rw [← hn]
        refine Finset.card_lt_card (Finset.ssubset_iff_of_subset ?_ |>.mpr ⟨nxt p, ?_, ?_⟩)
        · intro r hr
          rw [Finset.mem_filter] at hr ⊢
          exact ⟨hr.1, lt_trans hpq.1 hr.2⟩
        · exact Finset.mem_filter.mpr ⟨hq, hpq.1⟩
        · rw [Finset.mem_filter]
          exact fun hr => lt_irrefl _ hr.2
      obtain ⟨k, hk, hkt⟩ := ih _ hsmaller (nxt p) hq hpq.2 rfl
      exact ⟨k + 1, by omega, hkt⟩

/-- **From every free block the links lead to every other one.** -/
theorem Arena.reach (h : Arena nxt len base lo hi F H) (hp : p ∈ F) (ht : t ∈ F) :
    ∃ k ≤ 2 * F.card, nxt^[k] p = t := by
  have hcard : ∀ p, (F.filter (p < ·)).card ≤ F.card := fun p => Finset.card_filter_le F _
  -- the highest block is followed by the base
  obtain ⟨m, hm, hmax⟩ := F.exists_max_image id ⟨p, hp⟩
  have hwrap : nxt m = base := h.next_of_le hm (hmax _ (h.next_mem hm))
  by_cases hpt : p ≤ t
  · obtain ⟨k, hk, hkt⟩ := h.reach_up ht _ p hp hpt rfl
    have hle := hcard p
    exact ⟨k, by omega, hkt⟩
  · obtain ⟨k₁, hk₁, hkm⟩ := h.reach_up hm _ p hp (hmax p hp) rfl
    obtain ⟨k₂, hk₂, hkt⟩ :=
      h.reach_up ht _ base h.base_mem (h.base_le (Finset.mem_union_left H ht)) rfl
    have hle₁ := hcard base
    -- `p` itself is not above `p`, and the base is below it
    have hlt : (F.filter (p < ·)).card < F.card := by
      refine Finset.card_lt_card (Finset.ssubset_iff_of_subset (Finset.filter_subset _ _) |>.mpr
        ⟨p, hp, ?_⟩)
      rw [Finset.mem_filter]
      exact fun hr => lt_irrefl _ hr.2
    refine ⟨k₂ + (k₁ + 1), by omega, ?_⟩
    rw [Function.iterate_add_apply, Function.iterate_succ_apply', hkm, hwrap, hkt]

/-- The place of an address in the list. -/
theorem Arena.exists_slot (h : Arena nxt len base lo hi F H) (hq : q ∈ H) :
    ∃ p ∈ F, p < q ∧ (q < nxt p ∨ nxt p ≤ p) := by
  have hbase : base < q := by
    have hle := h.base_le (Finset.mem_union_right F hq)
    have hne : q ≠ base := fun heq => h.base_not_mem (heq ▸ hq)
    omega
  obtain ⟨p, hp, hmax⟩ := (F.filter (· < q)).exists_max_image id
    ⟨base, Finset.mem_filter.mpr ⟨h.base_mem, hbase⟩⟩
  rw [Finset.mem_filter] at hp
  refine ⟨p, hp.1, hp.2, ?_⟩
  by_contra hnot
  rw [not_or, not_lt, not_le] at hnot
  have hmem := h.next_mem hp.1
  have hne : nxt p ≠ q := fun heq => Finset.disjoint_left.mp h.disjoint hmem (heq ▸ hq)
  have hle : nxt p ≤ p := hmax _ (Finset.mem_filter.mpr ⟨hmem, by omega⟩)
  omega

/-! ### Operations -/

/-- A block is taken out of the list. -/
theorem Arena.unlink (h : Arena nxt len base lo hi F H) (hp : p ∈ F) (hq : q ∈ F) (hpq : nxt p = q)
    (hne : p ≠ q) : ∀ r ∈ F.erase q, Next (F.erase q) r (Function.update nxt p (nxt q) r) := by
  intro r hr
  obtain ⟨hrq, hr⟩ := Finset.mem_erase.mp hr
  have hnext := h.next p hp
  by_cases hrp : r = p
  · rw [hrp, Function.update_self]
    rw [hpq] at hnext
    exact hnext.skip (h.next q hq) hp hne
  · rw [Function.update_of_ne hrp]
    refine (h.next r hr).erase fun heq => hrp ?_
    rw [hpq, ← heq] at hnext
    exact (h.next r hr).inj hnext hr hp

/-- A free block is used. -/
theorem Arena.take (h : Arena nxt len base lo hi F H) (hq : q ∈ F) (hbase : q ≠ base) (hp : p ∈ F)
    (hpq : nxt p = q) :
    Arena (Function.update nxt p (nxt q)) len base lo hi (F.erase q) (insert q H) := by
  have hunion : F.erase q ∪ insert q H = F ∪ H := by
    ext r
    by_cases hr : r = q <;> simp [hr, hq]
  have hne : p ≠ q := by
    rintro rfl
    exact (h.next p hp).ne h.base_mem hbase hpq
  refine ⟨Finset.mem_erase.mpr ⟨hbase.symm, h.base_mem⟩, h.base_len, h.base_lt,
    h.unlink hp hq hpq hne, ?_, ?_, ?_⟩
  · rw [hunion]
    exact h.block
  · rw [hunion]
    exact h.apart
  · rw [Finset.disjoint_insert_right]
    exact ⟨Finset.notMem_erase q F, h.disjoint.mono_left (Finset.erase_subset q F)⟩

/-- The end of a free block is used. -/
theorem Arena.carve (h : Arena nxt len base lo hi F H) (hq : q ∈ F) (hn : 0 < n) (hlt : n < len q)
    (hx : x = q + (len q - n)) :
    Arena nxt (Function.update (Function.update len q (len q - n)) x n) base lo hi F
      (insert x H) := by
  have hqm := Finset.mem_union_left H hq
  have hbase : q ≠ base := by
    rintro rfl
    rw [h.base_len] at hlt
    omega
  obtain ⟨hlo, -, hhi⟩ := h.block q hqm hbase
  -- the new block is none of the others
  have hnew : ∀ r ∈ F ∪ H, r ≠ x ∧ (r < x → r = q ∨ r + len r ≤ q) ∧ (x < r → x + n ≤ r) := by
    intro r hr
    have hqr := h.apart q hqm r hr
    have hrq := h.apart r hr q hqm
    omega
  have hxm : x ∉ F ∪ H := fun hmem => (hnew x hmem).1 rfl
  have hlen : ∀ r ∈ F ∪ H, Function.update (Function.update len q (len q - n)) x n r =
      if r = q then len q - n else len r := by
    intro r hr
    rw [Function.update_of_ne (hnew r hr).1, Function.update_apply]
  have hlenx : Function.update (Function.update len q (len q - n)) x n x = n :=
    Function.update_self _ _ _
  have hunion : ∀ r, r ∈ F ∪ insert x H ↔ r = x ∨ r ∈ F ∪ H := by
    intro r
    simp only [Finset.mem_union, Finset.mem_insert]
    tauto
  refine ⟨h.base_mem, ?_, h.base_lt, h.next, ?_, ?_, ?_⟩
  · rw [hlen base (Finset.mem_union_left H h.base_mem), if_neg hbase.symm, h.base_len]
  · intro r hr hrb
    rcases (hunion r).mp hr with rfl | hrm
    · rw [hlenx]
      omega
    · have hblock := h.block r hrm hrb
      rw [hlen r hrm]
      split
      · next heq =>
        rw [heq]
        omega
      · exact hblock
  · intro r hr s hs hrs
    rcases (hunion r).mp hr with rfl | hrm
    · rcases (hunion s).mp hs with rfl | hsm
      · omega
      · rw [hlenx]
        exact (hnew s hsm).2.2 hrs
    · rw [hlen r hrm]
      rcases (hunion s).mp hs with rfl | hsm
      · have hbelow := (hnew r hrm).2.1 hrs
        split <;> omega
      · have hap := h.apart r hrm s hsm hrs
        split
        · next heq =>
          rw [heq] at hap hrs ⊢
          omega
        · exact hap
  · rw [Finset.disjoint_insert_right]
    exact ⟨fun hmem => hxm (Finset.mem_union_left H hmem), h.disjoint⟩

/-- A block is put into the list, behind `p`. -/
theorem Arena.link (h : Arena nxt len base lo hi F H) (hq : q ∈ H) (hp : p ∈ F) (hpq : p < q)
    (hslot : q < nxt p ∨ nxt p ≤ p) :
    Arena (Function.update (Function.update nxt q (nxt p)) p q) len base lo hi (insert q F)
      (H.erase q) := by
  have hqF : q ∉ F := fun hmem => Finset.disjoint_left.mp h.disjoint hmem hq
  have hunion : insert q F ∪ H.erase q = F ∪ H := by
    ext r
    by_cases hr : r = q <;> simp [hr, hq]
  obtain ⟨hnextp, hnextq, hrest⟩ := next_insert (h.next p hp) hp hpq hslot
  refine ⟨Finset.mem_insert_of_mem h.base_mem, h.base_len, h.base_lt, ?_, ?_, ?_, ?_⟩
  · intro r hr
    by_cases hrp : r = p
    · rw [hrp, Function.update_self]
      exact hnextp
    · rw [Function.update_of_ne hrp]
      rcases Finset.mem_insert.mp hr with rfl | hr
      · rw [Function.update_self]
        exact hnextq
      · rw [Function.update_of_ne fun heq : r = q => hqF (heq ▸ hr)]
        exact hrest r hr hrp _ (h.next r hr)
  · rw [hunion]
    exact h.block
  · rw [hunion]
    exact h.apart
  · rw [Finset.disjoint_insert_left]
    exact ⟨Finset.notMem_erase q H, h.disjoint.mono_right (Finset.erase_subset q H)⟩

/-- A free block and the one that follows are made one, if they touch. -/
theorem Arena.merge (h : Arena nxt len base lo hi F H) (hp : p ∈ F) (hpq : nxt p = q)
    (hbase : q ≠ base) (htouch : p + len p = q) :
    Arena (Function.update nxt p (nxt q)) (Function.update len p (len p + len q)) base lo hi
      (F.erase q) H := by
  have hq : q ∈ F := hpq ▸ h.next_mem hp
  have hpb : p ≠ base := by
    rintro rfl
    rw [h.base_len] at htouch
    omega
  have hpm := Finset.mem_union_left H hp
  have hqm := Finset.mem_union_left H hq
  have hblockp := h.block p hpm hpb
  have hblockq := h.block q hqm hbase
  have hsub : F.erase q ∪ H ⊆ F ∪ H := Finset.union_subset_union_left (Finset.erase_subset q F)
  have hqH : q ∉ H := Finset.disjoint_left.mp h.disjoint hq
  have hneq : ∀ r ∈ F.erase q ∪ H, r ≠ q := by
    rintro r hr rfl
    rcases Finset.mem_union.mp hr with hr | hr
    · exact Finset.notMem_erase r F hr
    · exact hqH hr
  refine ⟨Finset.mem_erase.mpr ⟨hbase.symm, h.base_mem⟩, ?_, h.base_lt,
    h.unlink hp hq hpq (by omega), ?_, ?_, h.disjoint.mono_left (Finset.erase_subset q F)⟩
  · rw [Function.update_of_ne hpb.symm, h.base_len]
  · intro r hr hrb
    by_cases hrp : r = p
    · rw [hrp, Function.update_self]
      omega
    · rw [Function.update_of_ne hrp]
      exact h.block r (hsub hr) hrb
  · intro r hr s hs hrs
    by_cases hrp : r = p
    · subst hrp
      have haps := h.apart r hpm s (hsub hs) hrs
      have hapq := h.apart q hqm s (hsub hs)
      have hne := hneq s hs
      rw [Function.update_self]
      omega
    · rw [Function.update_of_ne hrp]
      exact h.apart r (hsub hr) s (hsub hs) hrs

/-- The range gets longer by one block. -/
theorem Arena.grow (h : Arena nxt len base lo hi F H) (hlo : lo ≤ hi) (hn : 0 < n) :
    Arena nxt (Function.update len hi n) base lo (hi + n) F (insert hi H) := by
  have hlt := h.base_lt
  have hbelow : ∀ r ∈ F ∪ H, r < hi ∧ r + len r ≤ hi := by
    intro r hr
    by_cases hrb : r = base
    · rw [hrb, h.base_len]
      omega
    · have hblock := h.block r hr hrb
      omega
  have hlen : ∀ r ∈ F ∪ H, Function.update len hi n r = len r := fun r hr =>
    Function.update_of_ne (ne_of_lt (hbelow r hr).1) _ _
  have hunion : ∀ r, r ∈ F ∪ insert hi H ↔ r = hi ∨ r ∈ F ∪ H := by
    intro r
    simp only [Finset.mem_union, Finset.mem_insert]
    tauto
  refine ⟨h.base_mem, ?_, h.base_lt, h.next, ?_, ?_, ?_⟩
  · rw [hlen base (Finset.mem_union_left H h.base_mem), h.base_len]
  · intro r hr hrb
    rcases (hunion r).mp hr with rfl | hrm
    · rw [Function.update_self]
      omega
    · have hblock := h.block r hrm hrb
      rw [hlen r hrm]
      omega
  · intro r hr s hs hrs
    rcases (hunion r).mp hr with rfl | hrm
    · rcases (hunion s).mp hs with rfl | hsm
      · omega
      · have hbelows := hbelow s hsm
        omega
    · rw [hlen r hrm]
      rcases (hunion s).mp hs with rfl | hsm
      · exact (hbelow r hrm).2
      · exact h.apart r hrm s hsm hrs
  · rw [Finset.disjoint_insert_right]
    exact ⟨fun hmem => lt_irrefl _ (hbelow hi (Finset.mem_union_left H hmem)).1, h.disjoint⟩

/-- The range gets longer, and what is added belongs to no block. -/
theorem Arena.mono (h : Arena nxt len base lo hi F H) (hle : hi ≤ t) :
    Arena nxt len base lo t F H :=
  ⟨h.base_mem, h.base_len, h.base_lt, h.next, fun p hp hbase => by
    have hblock := h.block p hp hbase
    omega, h.apart, h.disjoint⟩

/-! ### What the blocks cover -/

/-- The blocks together are `C`, and a free block touches the next one only if it is in `X`. -/
structure Tight (len : ℕ → ℕ) (F H : Finset ℕ) (C X : Set ℕ) : Prop where
  cover : ∀ a, a ∈ C ↔ ∃ p ∈ F ∪ H, p ≤ a ∧ a < p + len p
  merged : ∀ p ∈ F, p ∉ X → p + len p ∉ F

variable {C X : Set ℕ}

theorem Tight.congr {l : ℕ → ℕ} (h : Tight len F H C X) (heq : ∀ p ∈ F ∪ H, l p = len p) :
    Tight l F H C X where
  cover a := by
    rw [h.cover]
    refine exists_congr fun p => and_congr_right fun hp => ?_
    rw [heq p hp]
  merged p hp hX := by
    rw [heq p (Finset.mem_union_left H hp)]
    exact h.merged p hp hX

theorem Tight.mono {Y : Set ℕ} (h : Tight len F H C X) (hXY : X ⊆ Y) : Tight len F H C Y :=
  ⟨h.cover, fun p hp hY => h.merged p hp fun hX => hY (hXY hX)⟩

/-- A free block is used. -/
theorem Tight.take (h : Tight len F H C X) (hq : q ∈ F) :
    Tight len (F.erase q) (insert q H) C X where
  cover a := by
    have hunion : F.erase q ∪ insert q H = F ∪ H := by
      ext r
      by_cases hr : r = q <;> simp [hr, hq]
    rw [hunion]
    exact h.cover a
  merged p hp hX hmem :=
    h.merged p (Finset.mem_of_mem_erase hp) hX (Finset.mem_of_mem_erase hmem)

/-- The end of a free block is used. -/
theorem Tight.carve (h : Tight len F H C X) (harena : Arena nxt len base lo hi F H) (hq : q ∈ F)
    (hn : 0 < n) (hlt : n < len q) (hx : x = q + (len q - n)) :
    Tight (Function.update (Function.update len q (len q - n)) x n) F (insert x H) C X := by
  have hqm := Finset.mem_union_left H hq
  have hnew : x ∉ F ∪ H := by
    intro hmem
    have hap := harena.apart q hqm x hmem
    omega
  have hlenx : Function.update (Function.update len q (len q - n)) x n x = n :=
    Function.update_self _ _ _
  have hlenq : Function.update (Function.update len q (len q - n)) x n q = len q - n := by
    rw [Function.update_of_ne (by omega), Function.update_self]
  have hlen : ∀ r ∈ F ∪ H, r ≠ q →
      Function.update (Function.update len q (len q - n)) x n r = len r := by
    intro r hr hrq
    rw [Function.update_of_ne (ne_of_mem_of_not_mem hr hnew), Function.update_of_ne hrq]
  constructor
  · intro a
    rw [h.cover]
    constructor
    · rintro ⟨p, hp, hle, hlt'⟩
      by_cases hpq : p = q
      · -- in what is left, or in what is used
        rw [hpq] at hle hlt'
        rcases Nat.lt_or_ge a x with hax | hxa
        · exact ⟨q, by simp [hq], hle, by rw [hlenq]; omega⟩
        · exact ⟨x, by simp, hxa, by rw [hlenx]; omega⟩
      · refine ⟨p, ?_, hle, by rw [hlen p hp hpq]; exact hlt'⟩
        exact Finset.union_subset_union_right (Finset.subset_insert x H) hp
    · rintro ⟨p, hp, hle, hlt'⟩
      by_cases hpx : p = x
      · rw [hpx, hlenx] at hlt'
        exact ⟨q, hqm, by omega, by omega⟩
      · have hp' : p ∈ F ∪ H := by simpa [hpx] using hp
        by_cases hpq : p = q
        · rw [hpq, hlenq] at hlt'
          exact ⟨q, hqm, hpq ▸ hle, by omega⟩
        · rw [hlen p hp' hpq] at hlt'
          exact ⟨p, hp', hle, hlt'⟩
  · intro p hp hX hmem
    by_cases hpq : p = q
    · rw [hpq, hlenq, ← hx] at hmem
      exact hnew (Finset.mem_union_left H hmem)
    · rw [hlen p (Finset.mem_union_left H hp) hpq] at hmem
      exact h.merged p hp hX hmem

/-- A block is put into the list, behind `p`. -/
theorem Tight.link (h : Tight len F H C X) (harena : Arena nxt len base lo hi F H) (hq : q ∈ H)
    (hp : p ∈ F) (hpq : p < q) (hslot : q < nxt p ∨ nxt p ≤ p) :
    Tight len (insert q F) (H.erase q) C (insert q (insert p X)) := by
  have hunion : insert q F ∪ H.erase q = F ∪ H := by
    ext r
    by_cases hr : r = q <;> simp [hr, hq]
  constructor
  · intro a
    rw [hunion]
    exact h.cover a
  · intro t ht hX hmem
    rw [Set.mem_insert_iff, Set.mem_insert_iff, not_or, not_or] at hX
    obtain ⟨htq, htp, htX⟩ := hX
    have htF := (Finset.mem_insert.mp ht).resolve_left htq
    rcases Finset.mem_insert.mp hmem with heq | hmem
    · -- a block in front of `q` is not behind `p`
      have hap := harena.apart t (Finset.mem_union_left H htF) p (Finset.mem_union_left H hp)
      have hapq := harena.apart t (Finset.mem_union_left H htF) q (Finset.mem_union_right F hq)
      obtain ⟨-, ⟨hlt, hno⟩ | hall⟩ := harena.next p hp
      · rcases hno t htF with hle | hle
        · omega
        · have hq' := harena.apart q (Finset.mem_union_right F hq) t (Finset.mem_union_left H htF)
          omega
      · have hle := (hall t htF).2
        omega
    · exact h.merged t htF htX hmem

/-- Two blocks that touch are made one. -/
theorem Tight.merge (h : Tight len F H C X) (harena : Arena nxt len base lo hi F H) (hp : p ∈ F)
    (hq : q ∈ F) (hpb : p ≠ base) (hqX : q ∉ X) (htouch : p + len p = q) :
    Tight (Function.update len p (len p + len q)) (F.erase q) H C (X \ {p}) := by
  have hpm := Finset.mem_union_left H hp
  have hpos := (harena.block p hpm hpb).2.1
  have hpq : p ≠ q := by omega
  have hqH : q ∉ H := Finset.disjoint_left.mp harena.disjoint hq
  constructor
  · intro a
    rw [h.cover]
    constructor
    · rintro ⟨r, hr, hle, hlt⟩
      by_cases hrq : r = q
      · rw [hrq] at hle hlt
        exact ⟨p, by simp [hp, hpq], by omega, by rw [Function.update_self]; omega⟩
      · refine ⟨r, by simpa [hrq] using hr, hle, ?_⟩
        by_cases hrp : r = p
        · rw [hrp] at hlt ⊢
          rw [Function.update_self]
          omega
        · rw [Function.update_of_ne hrp]
          exact hlt
    · rintro ⟨r, hr, hle, hlt⟩
      have hr' : r ∈ F ∪ H :=
        Finset.union_subset_union_left (Finset.erase_subset q F) hr
      by_cases hrp : r = p
      · rw [hrp, Function.update_self] at hlt
        rw [hrp] at hle
        rcases Nat.lt_or_ge a q with haq | hqa
        · exact ⟨p, hpm, hle, by omega⟩
        · exact ⟨q, Finset.mem_union_left H hq, hqa, by omega⟩
      · rw [Function.update_of_ne hrp] at hlt
        exact ⟨r, hr', hle, hlt⟩
  · intro r hr hX hmem
    have hrF := Finset.mem_of_mem_erase hr
    by_cases hrp : r = p
    · rw [hrp, Function.update_self, ← Nat.add_assoc, htouch] at hmem
      exact h.merged q hq hqX (Finset.mem_of_mem_erase hmem)
    · rw [Function.update_of_ne hrp] at hmem
      exact h.merged r hrF (fun hrX => hX ⟨hrX, hrp⟩) (Finset.mem_of_mem_erase hmem)

/-- A block does not touch the next one. -/
theorem Tight.settle (h : Tight len F H C X) (harena : Arena nxt len base lo hi F H) (hp : p ∈ F)
    (hpb : p ≠ base) (hno : p + len p ≠ nxt p) : Tight len F H C (X \ {p}) where
  cover := h.cover
  merged r hr hX hmem := by
    by_cases hrp : r = p
    · rw [hrp] at hmem
      have hpos := (harena.block p (Finset.mem_union_left H hp) hpb).2.1
      obtain ⟨hnxt, ⟨hlt, hbetween⟩ | hall⟩ := harena.next p hp
      · have hap := harena.apart p (Finset.mem_union_left H hp) _ (Finset.mem_union_left H hnxt) hlt
        rcases hbetween _ hmem with hle | hle <;> omega
      · have hle := (hall _ hmem).2
        omega
    · exact h.merged r hr (fun hrX => hX ⟨hrX, hrp⟩) hmem

/-- The range gets longer by one block. -/
theorem Tight.grow (h : Tight len F H C X) (hnew : hi ∉ F ∪ H) :
    Tight (Function.update len hi n) F (insert hi H) (C ∪ Set.Ico hi (hi + n)) X := by
  have hlen : ∀ r ∈ F ∪ H, Function.update len hi n r = len r := fun r hr =>
    Function.update_of_ne (ne_of_mem_of_not_mem hr hnew) _ _
  have hself : Function.update len hi n hi = n := Function.update_self _ _ _
  constructor
  · intro a
    rw [Set.mem_union, h.cover, Set.mem_Ico]
    constructor
    · rintro (⟨p, hp, hle, hlt⟩ | ⟨hle, hlt⟩)
      · refine ⟨p, ?_, hle, by rw [hlen p hp]; exact hlt⟩
        exact Finset.union_subset_union_right (Finset.subset_insert hi H) hp
      · exact ⟨hi, by simp, hle, by rw [hself]; exact hlt⟩
    · rintro ⟨p, hp, hle, hlt⟩
      by_cases hpx : p = hi
      · rw [hpx] at hle hlt
        rw [hself] at hlt
        exact .inr ⟨hle, hlt⟩
      · have hp' : p ∈ F ∪ H := by simpa [hpx] using hp
        rw [hlen p hp'] at hlt
        exact .inl ⟨p, hp', hle, hlt⟩
  · intro p hp hX
    rw [hlen p (Finset.mem_union_left H hp)]
    exact h.merged p hp hX

/-! ### The cycle -/

theorem Next.unique (h : Next F p q) (h' : Next F p x) : q = x := by
  obtain ⟨hq, ⟨hlt, hno⟩ | hall⟩ := h <;> obtain ⟨hx, ⟨hlt', hno'⟩ | hall'⟩ := h'
  · have hqx := hno x hx
    have hxq := hno' q hq
    omega
  · have hle := (hall' q hq).2
    omega
  · have hle := (hall x hx).2
    omega
  · have hqx := (hall x hx).1
    have hxq := (hall' q hq).1
    omega

/-- **The list goes once round the free blocks**, in the order of their addresses: from each to the
next, and from the last to the first, which is the base. -/
theorem Arena.cycle (h : Arena nxt len base lo hi F H) :
    ∃ l : List ℕ, l.Pairwise (· < ·) ∧ (∀ p, p ∈ l ↔ p ∈ F) ∧ l.head? = some base ∧
      ∀ (i : ℕ) (a : ℕ), l[i]? = some a → l[(i + 1) % l.length]? = some (nxt a) := by
  have hpair : F.sort.Pairwise (· < ·) := F.sortedLT_sort.pairwise
  have hmem : ∀ p, p ∈ F.sort ↔ p ∈ F := fun p => Finset.mem_sort _
  have hmono : ∀ i j (hi : i < F.sort.length) (hj : j < F.sort.length), i ≤ j →
      F.sort[i] ≤ F.sort[j] := by
    intro i j hi hj hij
    rcases Nat.eq_or_lt_of_le hij with rfl | hlt
    · exact le_rfl
    · exact (List.pairwise_iff_getElem.mp hpair i j hi hj hlt).le
  have hindex : ∀ r ∈ F, ∃ j, ∃ hj : j < F.sort.length, F.sort[j] = r := fun r hr =>
    List.mem_iff_getElem.mp ((hmem r).mpr hr)
  obtain ⟨k, hk, hbase⟩ := hindex base h.base_mem
  have hzero : 0 < F.sort.length := by omega
  refine ⟨F.sort, hpair, hmem, ?_, fun i a ha => ?_⟩
  · have hle := hmono 0 k hzero hk (Nat.zero_le k)
    have hge := h.base_le (Finset.mem_union_left H ((hmem _).mp (List.getElem_mem hzero)))
    rw [List.head?_eq_getElem?, List.getElem?_eq_getElem hzero]
    exact congrArg some (by omega)
  · obtain ⟨hi, rfl⟩ := List.getElem?_eq_some_iff.mp ha
    have hiF := (hmem _).mp (List.getElem_mem hi)
    have hj : (i + 1) % F.sort.length < F.sort.length := Nat.mod_lt _ hzero
    rw [List.getElem?_eq_getElem hj]
    refine congrArg some (Next.unique ⟨(hmem _).mp (List.getElem_mem hj), ?_⟩ (h.next _ hiF))
    by_cases hlast : i + 1 < F.sort.length
    · left
      have hmod : (i + 1) % F.sort.length = i + 1 := Nat.mod_eq_of_lt hlast
      simp only [hmod]
      refine ⟨List.pairwise_iff_getElem.mp hpair i (i + 1) hi hlast (Nat.lt_succ_self i), ?_⟩
      intro r hr
      obtain ⟨j, hj, rfl⟩ := hindex r hr
      rcases Nat.lt_or_ge i j with hij | hji
      · exact .inr (hmono (i + 1) j hlast hj hij)
      · exact .inl (hmono j i hj hi hji)
    · right
      have hmod : (i + 1) % F.sort.length = 0 := by
        rw [show i + 1 = F.sort.length by omega, Nat.mod_self]
      simp only [hmod]
      intro r hr
      obtain ⟨j, hj, rfl⟩ := hindex r hr
      exact ⟨hmono 0 j hzero hj (Nat.zero_le j), hmono j i hj hi (by omega)⟩

end FreeList
