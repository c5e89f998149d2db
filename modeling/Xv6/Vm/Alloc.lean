import Xv6.Vm.Dealloc

/-!
# Giving pages to an address space

`allocuvm` of `vm.c`, which takes back what it has done when memory runs out.

* `allocuvm` — the code.
* `Allocated`, `RolledBack` — its two ends.
* `wp_rollback` — the way back, from wherever the loop is.
* `wp_allocuvm` — **what `allocuvm` does.**
-/

namespace Xv6
namespace Vm

open Prog

/-! ### The code -/

/-- The loop of `allocuvm`, with the size that it returns. -/
def allocLoop (L : Layout) (oldsz newsz : ℕ) : ℕ → ℕ → PgDir → Kern (PgDir × ℕ)
  | 0, _, _ => stop .diverges
  | n + 1, a, d =>
      if a < newsz then do
        match ← kalloc with
        | none =>
            let (d, _) ← deallocuvm L d newsz oldsz
            return (d, 0)
        | some mem =>
            fill mem fun _ => 0
            let (d, ok) ← mappages d a pgsize mem (pteW ||| pteU)
            if ok then allocLoop L oldsz newsz n ((a + pgsize) % 2 ^ 32) d
            else
              let (d, _) ← deallocuvm L d newsz oldsz
              kfree L mem
              return (d, 0)
      else return (d, newsz)

/-- `allocuvm` -/
@[irreducible] def allocuvm (L : Layout) (d : PgDir) (oldsz newsz : ℕ) : Kern (PgDir × ℕ) :=
  if newsz ≥ kernbase then return (d, 0)
  else if newsz < oldsz then return (d, oldsz)
  else allocLoop L oldsz newsz rounds (pgroundup oldsz) d

/-! ### `allocuvm` -/

/-- The pages from `n` to `v` have been mapped to pages full of zeros, from the free list. -/
structure Allocated (n v : ℕ) (d : PgDir) (s : Ram) (d' : PgDir) (s' : Ram) : Prop where
  frame : d'.frame = d.frame
  entry : ∀ u < 2 ^ 20, u < n ∨ v ≤ u → d'.at u = d.at u
  new : ∀ u, n ≤ u → u < v → ∃ f ∈ s.freelist, d'.at u = ⟨f, pteW ||| pteU ||| pteP⟩ ∧
    s'.page f = fun _ => 0
  owned : (d'.frames n v ++ d'.tables ++ s'.freelist).Perm (d.tables ++ s.freelist)
  free : s'.freelist <:+ s.freelist
  kept : ∀ f, f ∉ s.freelist → s'.page f = s.page f

/-- The pages from `n` to `m` are not mapped, and but for some page tables all is as it was. -/
structure RolledBack (n m : ℕ) (d : PgDir) (s : Ram) (d' : PgDir) (s' : Ram) : Prop where
  frame : d'.frame = d.frame
  entry : ∀ u < 2 ^ 20, u < n ∨ m ≤ u → d'.at u = d.at u
  absent : ∀ u, n ≤ u → u < m → (d'.at u).present = false
  owned : (d'.tables ++ s'.freelist).Perm (d.tables ++ s.freelist)
  kept : ∀ f, f ∉ s.freelist → s'.page f = s.page f

section Specs

variable {L : Layout} {E : Panic → Prop} {s : Ram} {d : PgDir}

theorem Layout.IsRam.lt {f : ℕ} (h : L.IsRam f) : f < 2 ^ 20 :=
  h.2.trans_le (by decide)

theorem next_page {v : ℕ} (h : v < 2 ^ 19) :
    (v * 4096 + pgsize) % 2 ^ 32 = (v + 1) * 4096 := by
  rw [pgsize]
  omega

theorem Allocated.refl (n : ℕ) (d : PgDir) (s : Ram) : Allocated n n d s d s := by
  refine ⟨rfl, fun _ _ _ => rfl, fun u hlo hhi => by omega, ?_, List.suffix_rfl, fun _ _ => rfl⟩
  rw [PgDir.frames_self, List.nil_append]

/-- The pages that have been mapped come from the free list. -/
theorem Allocated.mem {n v : ℕ} {d' : PgDir} {s' : Ram} (h : Allocated n v d s d' s') {f : ℕ}
    (hf : f ∈ d'.frames n v) : f ∈ s.freelist := by
  obtain ⟨u, hlo, hhi, hlook⟩ := PgDir.mem_frames.mp hf
  obtain ⟨g, hg, hat, -⟩ := h.new u hlo hhi
  rw [PgDir.look_eq_some, hat] at hlook
  exact hlook.2 ▸ hg

/-- The memory with the page that comes first on the free list taken, and full of zeros. -/
def Ram.taken (s : Ram) (f : ℕ) (l : List ℕ) : Ram :=
  ⟨l, Function.update s.page f fun _ => 0⟩

/-- One more page is mapped. -/
theorem Allocated.succ {n v f : ℕ} {l : List ℕ} {d₁ d₂ : PgDir} {s₁ s₂ : Ram}
    (h : Allocated n v d s d₁ s₁) (hn : n ≤ v) (hv : v < 2 ^ 20)
    (hnodup : (d.tables ++ s.freelist).Nodup) (hfree : s₁.freelist = f :: l)
    (hgrown : Grown d₁ (s₁.taken f l) d₂ s₂)
    (hent : ∀ u < 2 ^ 20, d₂.at u =
      if u = v then ⟨f, pteW ||| pteU ||| pteP⟩ else d₁.at u) :
    Allocated n (v + 1) d s d₂ s₂ := by
  have hf : f ∈ s.freelist := h.free.subset (by rw [hfree]; exact List.mem_cons_self)
  have hframes : d₂.frames n (v + 1) = d₁.frames n v ++ [f] := by
    have hlook : d₂.look v = some f := by
      rw [PgDir.look_eq_some, hent v hv, if_pos rfl]
      exact ⟨Pte.present_perm _ _, rfl⟩
    rw [PgDir.frames_append d₂ hn (Nat.le_succ v), PgDir.frames_cons d₂ (Nat.lt_succ_self v),
      PgDir.frames_self, hlook]
    refine congrArg (· ++ [f]) (PgDir.frames_congr fun u _ hu => PgDir.look_congr ?_)
    rw [hent u (by omega), if_neg (by omega)]
  -- the pages in use are not on the free list
  have hused := (h.owned.nodup_iff).mpr hnodup
  rw [hfree, List.append_assoc] at hused
  refine ⟨hgrown.frame.trans h.frame, fun u hu hout => ?_, fun u hlo hhi => ?_, ?_, ?_,
    fun g hg => ?_⟩
  · rw [hent u hu, if_neg (by omega)]
    exact h.entry u hu (by omega)
  · rcases Nat.lt_succ_iff_lt_or_eq.mp hhi with hlt | rfl
    · obtain ⟨g, hg, hat, hzero⟩ := h.new u hlo hlt
      have hmem : g ∈ d₁.frames n v := by
        refine PgDir.mem_frames.mpr ⟨u, hlo, hlt, ?_⟩
        rw [PgDir.look_eq_some, hat]
        exact ⟨Pte.present_perm _ _, rfl⟩
      have hout : g ∉ f :: l := fun hin =>
        List.disjoint_of_nodup_append hused hmem (List.mem_append_right _ hin)
      rw [List.mem_cons, not_or] at hout
      refine ⟨g, hg, ?_, ?_⟩
      · rw [hent u (by omega), if_neg (by omega), hat]
      · rw [hgrown.kept g hout.2, Ram.taken]
        exact (Function.update_of_ne hout.1 _ _).trans hzero
    · have hout : f ∉ l := by
        have hcons := (List.nodup_append.mp (List.nodup_append.mp hused).2.1).2.1
        exact (List.nodup_cons.mp hcons).1
      refine ⟨f, hf, by rw [hent u hv, if_pos rfl], ?_⟩
      rw [hgrown.kept f hout, Ram.taken]
      exact Function.update_self _ _ _
  · have howned := hgrown.owned
    rw [Ram.taken] at howned
    rw [hframes]
    calc (d₁.frames n v ++ [f] ++ d₂.tables ++ s₂.freelist).Perm
          (d₁.frames n v ++ [f] ++ (d₁.tables ++ l)) := by
          rw [List.append_assoc _ d₂.tables]
          exact howned.append_left _
      _ = d₁.frames n v ++ f :: (d₁.tables ++ l) := by simp
      List.Perm _ (d₁.frames n v ++ (d₁.tables ++ f :: l)) :=
          List.perm_middle.symm.append_left _
      _ = d₁.frames n v ++ d₁.tables ++ s₁.freelist := by rw [hfree, List.append_assoc]
      List.Perm _ (d.tables ++ s.freelist) := h.owned
  · have hsuffix := hgrown.free
    rw [Ram.taken] at hsuffix
    refine hsuffix.trans (List.IsSuffix.trans ?_ h.free)
    rw [hfree]
    exact List.suffix_cons f l
  · have hout : g ∉ f :: l := fun hin => hg (h.free.subset (by rw [hfree]; exact hin))
    rw [List.mem_cons, not_or] at hout
    rw [hgrown.kept g hout.2, Ram.taken]
    exact (Function.update_of_ne hout.1 _ _).trans (h.kept g hg)

/-- **The way back.**  The pages mapped so far are freed; `l` are pages that are taken and
not mapped. -/
theorem wp_rollback {oldsz newsz n v : ℕ} {l : List ℕ} {d₁ : PgDir} {s₁ : Ram}
    (hlt : oldsz < newsz) (hnew : newsz ≤ kernbase) (hn : n = npages oldsz)
    (hv : v ≤ npages newsz) (hnv : n ≤ v) (hram : ∀ f ∈ s.freelist, L.IsRam f)
    (habsent : ∀ u, n ≤ u → u < npages newsz → (d.at u).present = false)
    (hframe : d₁.frame = d.frame) (hentry : ∀ u < 2 ^ 20, u < n ∨ v ≤ u → d₁.at u = d.at u)
    (hmem : ∀ f ∈ d₁.frames n v, f ∈ s.freelist)
    (howned : (d₁.frames n v ++ d₁.tables ++ (l ++ s₁.freelist)).Perm (d.tables ++ s.freelist))
    (hkept : ∀ f, f ∉ s.freelist → s₁.page f = s.page f) :
    wp (deallocuvm L d₁ newsz oldsz) E (fun r s' =>
      RolledBack n (npages newsz) d s r.1 ⟨l ++ s'.freelist, s'.page⟩) s₁ := by
  have hmax := npages_le hnew
  have hframes : d₁.frames n (npages newsz) = d₁.frames n v := by
    rw [d₁.frames_append hnv hv, PgDir.frames_eq_nil (v := v) fun u hlo hhi => ?_, List.append_nil]
    rw [PgDir.look_congr (hentry u (by omega) (.inr hlo)), PgDir.look,
      habsent u (by omega) hhi]
    rfl
  have hramf : ∀ f ∈ d₁.frames (npages oldsz) (npages newsz), L.IsRam f := by
    rw [← hn, hframes]
    exact fun f hf => hram f (hmem f hf)
  refine wp_imp (wp_deallocuvm hlt hnew hramf s₁) fun r s' h => ?_
  have hclear := h.2.1
  have hfreed := h.2.2
  rw [← hn] at hclear hfreed
  rw [hframes] at hfreed
  refine ⟨hclear.frame.trans hframe, fun u hu hout => ?_, fun u hlo hhi => ?_, ?_, fun f hf => ?_⟩
  · rw [hclear.entry u hu, if_neg (by omega)]
    by_cases hin : u < n ∨ v ≤ u
    · exact hentry u hu hin
    · omega
  · rw [hclear.entry u (by omega)]
    split
    · rfl
    · next hno =>
      rw [← Bool.not_eq_true]
      exact fun hp => hno ⟨hlo, hhi, hp⟩
  · dsimp only
    rw [hclear.tables, hfreed.free]
    refine List.Perm.trans ?_ howned
    calc (d₁.tables ++ (l ++ ((d₁.frames n v).reverse ++ s₁.freelist))).Perm
          (d₁.tables ++ (l ++ (d₁.frames n v ++ s₁.freelist))) :=
          (((List.reverse_perm _).append_right _).append_left _).append_left _
      List.Perm _ (d₁.tables ++ (d₁.frames n v ++ (l ++ s₁.freelist))) :=
          List.Perm.append_left _ (List.perm_append_comm_assoc _ _ _)
      List.Perm _ (d₁.frames n v ++ (d₁.tables ++ (l ++ s₁.freelist))) :=
          List.perm_append_comm_assoc _ _ _
      _ = d₁.frames n v ++ d₁.tables ++ (l ++ s₁.freelist) := (List.append_assoc _ _ _).symm
  · dsimp only
    rw [hfreed.kept f fun hin => hf (hmem f hin), hkept f hf]

/-- **The loop of `allocuvm`.** -/
theorem wp_allocLoop {oldsz newsz n : ℕ} (hnew : newsz < kernbase) (hn : n = npages oldsz)
    (hram : ∀ f ∈ s.freelist, L.IsRam f) (hnodup : (d.tables ++ s.freelist).Nodup)
    (habsent : ∀ u, n ≤ u → u < npages newsz → (d.at u).present = false) :
    ∀ (k v : ℕ) (d₁ : PgDir) (s₁ : Ram), npages newsz - v < k → n ≤ v →
      v ≤ max n (npages newsz) → Allocated n v d s d₁ s₁ →
      wp (allocLoop L oldsz newsz k (v * 4096) d₁) E (fun r s' =>
        (r.2 = newsz ∧ Allocated n (max n (npages newsz)) d s r.1 s') ∨
        (r.2 = 0 ∧ RolledBack n (npages newsz) d s r.1 s')) s₁ := by
  have hmax := npages_le hnew.le
  intro k
  induction k with
  | zero => intro v d₁ s₁ hk; omega
  | succ k ih =>
    intro v d₁ s₁ hk hnv hv h
    rw [allocLoop]
    by_cases hlt : v * 4096 < newsz
    · have hvm : v < npages newsz := by
        rw [npages]
        omega
      have hold : oldsz < newsz := by
        rw [npages] at hn
        omega
      rw [if_pos hlt, wp_bind, wp_kalloc]
      split
      · -- there is no page
        next hempty =>
        rw [wp_bind]
        have howned : (d₁.frames n v ++ d₁.tables ++ ([] ++ s₁.freelist)).Perm
            (d.tables ++ s.freelist) := by
          rw [List.nil_append]
          exact h.owned
        exact wp_imp (wp_rollback (l := []) hold hnew.le hn hvm.le hnv hram habsent h.frame h.entry
          (fun f => h.mem) howned h.kept) fun r s' hback => .inr ⟨rfl, hback⟩
      · next f l hfree =>
        have hf : L.IsRam f := hram f (h.free.subset (by rw [hfree]; exact List.mem_cons_self))
        have hnone : (d₁.at v).present = false := by
          rw [h.entry v (by omega) (.inr le_rfl)]
          exact habsent v hnv hvm
        rw [wp_bind, fill, wp_modify, wp_bind]
        refine wp_imp (wp_mappages_page (by omega) hf.lt hnone) fun r s₂ hmap => ?_
        have hgrown := hmap.1
        have hent := hmap.2
        rcases r with ⟨d₂, ok⟩
        dsimp only at hgrown hent ⊢
        cases ok with
        | true =>
          rw [if_pos rfl, next_page (by omega)]
          refine ih (v + 1) d₂ s₂ (by omega) (by omega) (by omega) ?_
          refine h.succ hnv (by omega) hnodup hfree hgrown fun u hu => ?_
          rw [hent u hu]
          exact if_congr (by simp) rfl rfl
        | false =>
          -- there is no page for the page table
          rw [if_neg (by simp), wp_bind]
          have hsame : ∀ u < 2 ^ 20, d₂.at u = d₁.at u := fun u hu => by
            rw [hent u hu, if_neg (by simp)]
          have hframes : d₂.frames n v = d₁.frames n v :=
            PgDir.frames_congr fun u _ hu => PgDir.look_congr (hsame u (by omega))
          have howned : (d₂.frames n v ++ d₂.tables ++ ([f] ++ s₂.freelist)).Perm
              (d.tables ++ s.freelist) := by
            refine List.Perm.trans ?_ h.owned
            rw [hframes, hfree, List.append_assoc, List.append_assoc]
            refine List.Perm.append_left _ ?_
            exact List.perm_middle.trans
              (((hgrown.owned).cons f).trans List.perm_middle.symm)
          refine wp_imp (wp_rollback (l := [f]) hold hnew.le hn hvm.le hnv hram habsent
            (hgrown.frame.trans h.frame) (fun u hu hout => (hsame u hu).trans (h.entry u hu hout))
            (fun g hg => h.mem (by rw [← hframes]; exact hg)) howned fun g hg => ?_)
            fun r s' hback => ?_
          · have hout : g ∉ f :: l := fun hin => hg (h.free.subset (by rw [hfree]; exact hin))
            rw [List.mem_cons, not_or] at hout
            rw [hgrown.kept g hout.2]
            exact (Function.update_of_ne hout.1 _ _).trans (h.kept g hg)
          · rw [wp_bind, wp_kfree hf, wp_pure]
            refine .inr ⟨rfl, hback.frame, hback.entry, hback.absent, hback.owned, fun g hg => ?_⟩
            have hne : g ≠ f := fun heq => hg (heq ▸ h.free.subset (by
              rw [hfree]
              exact List.mem_cons_self))
            exact (Function.update_of_ne hne _ _).trans (hback.kept g hg)
    · rw [if_neg hlt, wp_pure]
      have hend : v = max n (npages newsz) := by
        rw [npages] at hv ⊢
        omega
      exact .inl ⟨rfl, hend ▸ h⟩

/-- **`allocuvm`** of a range of which no page is mapped yet. -/
theorem wp_allocuvm {oldsz newsz : ℕ} (hle : oldsz ≤ newsz) (hnew : newsz < kernbase)
    (hram : ∀ f ∈ s.freelist, L.IsRam f) (hnodup : (d.tables ++ s.freelist).Nodup)
    (habsent : ∀ u, npages oldsz ≤ u → u < npages newsz → (d.at u).present = false) :
    wp (allocuvm L d oldsz newsz) E (fun r s' =>
      (r.2 = newsz ∧ Allocated (npages oldsz) (npages newsz) d s r.1 s') ∨
      (r.2 = 0 ∧ RolledBack (npages oldsz) (npages newsz) d s r.1 s')) s := by
  have hmono : npages oldsz ≤ npages newsz := by
    rw [npages, npages]
    omega
  have hmax := npages_le hnew.le
  have hloop := wp_allocLoop (L := L) (E := E) hnew rfl hram hnodup habsent rounds (npages oldsz) d
    s (by rw [rounds]; omega) le_rfl (by omega) (Allocated.refl _ d s)
  rw [max_eq_right hmono] at hloop
  rw [allocuvm, if_neg (by omega), if_neg (by omega), pgroundup_eq (by omega)]
  exact hloop

end Specs

end Vm
end Xv6
