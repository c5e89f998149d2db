import Xv6.Vm.Dealloc

/-!
# New page directories

`setupkvm` of `vm.c`: a new page directory with the mappings of the kernel.  Where there is no
memory for one of its page tables, all that was taken is given back.

* `kmap`, `setupkvm` — the code.
* `kernelPte` — the entries of the kernel part.
* `Owned` — a page directory that is made of pages that were free.
* `wp_freevm_owned` — such a page directory is given back without a trace.
* `wp_setupkvm` — **what `setupkvm` does.**
-/

namespace Xv6
namespace Vm

open Prog

/-! ### The code -/

/-- `struct kmap` -/
structure Kmap where
  virt : ℕ
  physStart : ℕ
  physEnd : ℕ
  perm : ℕ

/-- `k->phys_end - k->phys_start` -/
def Kmap.size (k : Kmap) : ℕ := (k.physEnd + (2 ^ 32 - k.physStart)) % 2 ^ 32

/-- `kmap` -/
def kmap (L : Layout) : List Kmap :=
  [⟨kernbase, 0, extmem, pteW⟩,
   ⟨kernlink, v2p kernlink, v2p L.data, 0⟩,
   ⟨L.data, v2p L.data, phystop, pteW⟩,
   ⟨devspace, devspace, 0, pteW⟩]

/-- The loop of `setupkvm`. -/
def kmapLoop (d : PgDir) : List Kmap → Kern (PgDir × Bool)
  | [] => return (d, true)
  | k :: ks => do
      let (d, ok) ← mappages d k.virt k.size (k.physStart / pgsize) k.perm
      if ok then kmapLoop d ks else return (d, false)

/-- `setupkvm` -/
def setupkvm (L : Layout) : Kern (Option PgDir) := do
  match ← kalloc with
  | none => return none
  | some f =>
      fill f fun _ => 0
      if p2v (phystop / pgsize) > devspace then stop .phystop
      else
        let (d, ok) ← kmapLoop (PgDir.empty f) (kmap L)
        if ok then return some d
        else
          freevm L d
          return none

/-! ### The kernel part -/

/-- The entry covers a page. -/
def Kmap.Covers (k : Kmap) (v : ℕ) : Prop := k.virt / 4096 ≤ v ∧ v < k.virt / 4096 + k.size / 4096

instance (k : Kmap) (v : ℕ) : Decidable (k.Covers v) := inferInstanceAs (Decidable (_ ∧ _))

/-- The page table entry for a page that is covered. -/
def Kmap.pte (k : Kmap) (v : ℕ) : Pte :=
  ⟨(k.physStart / 4096 + (v - k.virt / 4096)) % 2 ^ 20, k.perm ||| pteP⟩

/-- The page table entries of some of the mappings. -/
def kmapPte (ks : List Kmap) (v : ℕ) : Pte :=
  match ks.find? fun k => k.Covers v with
  | some k => k.pte v
  | none => Pte.zero

/-- The page table entries of the kernel. -/
def kernelPte (L : Layout) (v : ℕ) : Pte := kmapPte (kmap L) v

/-- A mapping of whole pages in the upper half. -/
structure Kmap.Ok (k : Kmap) : Prop where
  aligned : k.virt % 4096 = 0
  upper : kernbase ≤ k.virt
  pos : 0 < k.size
  whole : k.size % 4096 = 0
  fits : k.virt + k.size ≤ 2 ^ 32
  phys : k.physStart / 4096 < 2 ^ 20

theorem kmapPte_append (ks : List Kmap) (k : Kmap) (v : ℕ)
    (h : k.Covers v → ∀ k' ∈ ks, ¬ k'.Covers v) :
    kmapPte (ks ++ [k]) v = if k.Covers v then k.pte v else kmapPte ks v := by
  rw [kmapPte, kmapPte, List.find?_append]
  by_cases hk : k.Covers v
  · have hnone : ks.find? (fun k => k.Covers v) = none := by
      rw [List.find?_eq_none]
      intro k' hk'
      simpa using h hk k' hk'
    rw [if_pos hk, hnone, List.find?_singleton, if_pos (decide_eq_true hk)]
    rfl
  · rw [if_neg hk, List.find?_singleton, if_neg (by simpa using hk), Option.or_none]

theorem v2p_eq {a : ℕ} (hlo : kernbase ≤ a) (hhi : a < 2 ^ 32) : v2p a = a - kernbase := by
  rw [v2p]
  rw [kernbase] at hlo ⊢
  omega

theorem Kmap.size_eq {virt lo hi perm : ℕ} (hlt : lo ≤ hi) (hhi : hi < 2 ^ 32) :
    (⟨virt, lo, hi, perm⟩ : Kmap).size = hi - lo := by
  rw [Kmap.size]
  dsimp only
  omega

theorem Kmap.ok_of {virt lo hi perm : ℕ} (haligned : virt % 4096 = 0) (hupper : kernbase ≤ virt)
    (hlo : lo % 4096 = 0) (hhi : hi % 4096 = 0) (hlt : lo < hi) (hmax : hi < 2 ^ 32)
    (hfits : virt + (hi - lo) ≤ 2 ^ 32) : (⟨virt, lo, hi, perm⟩ : Kmap).Ok := by
  refine ⟨haligned, hupper, ?_, ?_, ?_, ?_⟩
  · rw [Kmap.size_eq hlt.le hmax]
    omega
  · rw [Kmap.size_eq hlt.le hmax]
    omega
  · rw [Kmap.size_eq hlt.le hmax]
    exact hfits
  · dsimp only
    omega

/-- Where the data of the kernel are. -/
theorem Layout.v2p_data (L : Layout) : L.data = v2p L.data + 0x80000000 ∧
    0x100000 < v2p L.data ∧ v2p L.data < 0xE000000 ∧ v2p L.data % 4096 = 0 := by
  have haligned := L.aligned
  have hlo := L.kernlink_lt
  have hle := L.data_le
  have hkend := L.kend_lt
  rw [show kernlink = 0x80100000 from rfl] at hlo
  rw [kernbase] at hle
  rw [phystop] at hkend
  have hdata : v2p L.data = L.data - 0x80000000 := v2p_eq (by rw [kernbase]; omega) (by omega)
  omega

/-- The mappings of the kernel are mappings of whole pages in the upper half. -/
theorem kmap_ok (L : Layout) : ∀ k ∈ kmap L, k.Ok := by
  obtain ⟨hdata, hlo, hhi, haligned⟩ := L.v2p_data
  intro k hk
  simp only [kmap, List.mem_cons, List.not_mem_nil, or_false] at hk
  rcases hk with rfl | rfl | rfl | rfl
  · exact ⟨by decide, le_rfl, by decide, by decide, by decide, by decide⟩
  · have hlink : kernlink = 0x80100000 := rfl
    have hphys : v2p kernlink = 0x100000 := rfl
    rw [hphys, hlink]
    exact Kmap.ok_of (by decide) (by decide) (by decide) haligned hlo (by omega) (by omega)
  · have hstop : phystop = 0xE000000 := rfl
    rw [hstop]
    refine Kmap.ok_of (by omega) ?_ haligned (by decide) hhi (by decide) (by omega)
    rw [kernbase]
    omega
  · exact ⟨by decide, by decide, by decide, by decide, by decide, by decide⟩

/-- No page is covered twice. -/
theorem kmap_disjoint (L : Layout) :
    (kmap L).Pairwise fun k k' => ∀ v, k'.Covers v → ¬ k.Covers v := by
  obtain ⟨hdata, hlo, hhi, haligned⟩ := L.v2p_data
  have hstop : phystop = 0xE000000 := rfl
  have hlink : kernlink = 0x80100000 := rfl
  have hphys : v2p kernlink = 0x100000 := rfl
  have hsize : (⟨kernlink, v2p kernlink, v2p L.data, 0⟩ : Kmap).size = v2p L.data - 0x100000 := by
    rw [hphys]
    exact Kmap.size_eq (by omega) (by omega)
  have hsize' : (⟨L.data, v2p L.data, phystop, pteW⟩ : Kmap).size = 0xE000000 - v2p L.data := by
    rw [hstop]
    exact Kmap.size_eq (by omega) (by omega)
  have hsize₀ : (⟨kernbase, 0, extmem, pteW⟩ : Kmap).size = 0x100000 := rfl
  have hsize₁ : (⟨devspace, devspace, 0, pteW⟩ : Kmap).size = 0x2000000 := rfl
  simp only [kmap, List.pairwise_cons, List.mem_cons, List.not_mem_nil, or_false, forall_eq_or_imp,
    forall_eq, Kmap.Covers, hsize, hsize', hsize₀, hsize₁, List.Pairwise.nil, and_true,
    false_imp_iff, implies_true]
  rw [hlink, show kernbase = 0x80000000 from rfl, show devspace = 0xFE000000 from rfl]
  refine ⟨⟨fun v => ?_, fun v => ?_, fun v => ?_⟩, ⟨fun v => ?_, fun v => ?_⟩, fun v => ?_⟩
  all_goals omega

theorem kmapPte_eq_zero {ks : List Kmap} {v : ℕ} (h : ∀ k ∈ ks, ¬ k.Covers v) :
    kmapPte ks v = Pte.zero := by
  have hnone : ks.find? (fun k => k.Covers v) = none := by
    rw [List.find?_eq_none]
    intro k hk
    simpa using h k hk
  rw [kmapPte, hnone]

theorem Kmap.Ok.not_covers {k : Kmap} (h : k.Ok) {v : ℕ} (hv : v < 2 ^ 19) : ¬ k.Covers v := by
  have hupper := h.upper
  rw [kernbase] at hupper
  rw [Kmap.Covers]
  omega

theorem kernelPte_user (L : Layout) {v : ℕ} (hv : v < 2 ^ 19) : kernelPte L v = Pte.zero :=
  kmapPte_eq_zero fun k hk => (kmap_ok L k hk).not_covers hv

/-! ### Page directories made of free pages -/

/-- The page directory, its page tables and its user pages are pages that were free in `s₀`,
and the other pages are as they were. -/
structure Owned (s₀ : Ram) (d : PgDir) (s : Ram) : Prop where
  perm : (d.frame :: (d.frames 0 (2 ^ 19) ++ (d.tables ++ s.freelist))).Perm s₀.freelist
  kept : ∀ f, f ∉ s₀.freelist → s.page f = s₀.page f

/-- The free pages are those that were free in `s₀`, and the other pages are as they were. -/
structure Restored (s₀ s : Ram) : Prop where
  free : s.freelist.Perm s₀.freelist
  kept : ∀ f, f ∉ s₀.freelist → s.page f = s₀.page f

section Specs

variable {L : Layout} {E : Panic → Prop} {s₀ s s' : Ram} {d d' : PgDir}

namespace Owned

theorem mem_free (h : Owned s₀ d s) {f : ℕ} (hf : f ∈ s.freelist) : f ∈ s₀.freelist :=
  h.perm.subset (List.mem_cons_of_mem _ (List.mem_append_right _ (List.mem_append_right _ hf)))

theorem mem_frames (h : Owned s₀ d s) {f : ℕ} (hf : f ∈ d.frames 0 (2 ^ 19)) : f ∈ s₀.freelist :=
  h.perm.subset (List.mem_cons_of_mem _ (List.mem_append_left _ hf))

theorem nodup (h : Owned s₀ d s) (h₀ : s₀.freelist.Nodup) :
    (d.frames 0 (2 ^ 19) ++ (d.tables ++ s.freelist)).Nodup :=
  (List.nodup_cons.mp (h.perm.nodup_iff.mpr h₀)).2

/-- Page tables have been added. -/
theorem grown (h : Owned s₀ d s) (hgrown : Grown d s d' s')
    (hsame : ∀ v < 2 ^ 19, d'.at v = d.at v) : Owned s₀ d' s' where
  perm := by
    rw [hgrown.frame, PgDir.frames_congr fun v _ hv => PgDir.look_congr (hsame v hv)]
    exact ((hgrown.owned.append_left _).cons _).trans h.perm
  kept f hf := (hgrown.kept f fun hmem => hf (h.mem_free hmem)).trans (h.kept f hf)

end Owned

/-- **`freevm`** gives a page directory made of free pages back. -/
theorem wp_freevm_owned (h : Owned s₀ d s) (hram : ∀ f ∈ s₀.freelist, L.IsRam f) :
    wp (freevm L d) E (fun _ s' => Restored s₀ s') s := by
  have hperm : (d.pages ++ s.freelist).Perm s₀.freelist := by
    refine List.Perm.trans ?_ h.perm
    rw [PgDir.pages, List.append_assoc _ [d.frame], List.singleton_append,
      ← List.append_assoc _ d.tables]
    exact List.perm_middle
  have hsub : ∀ f ∈ d.pages, f ∈ s₀.freelist :=
    fun f hf => hperm.subset (List.mem_append_left _ hf)
  refine wp_imp (wp_freevm (fun f hf => hram f (hsub f hf)) s) fun _ s' hfreed => ?_
  refine ⟨?_, fun f hf => ?_⟩
  · rw [hfreed.free]
    exact ((List.reverse_perm _).append_right _).trans hperm
  · rw [hfreed.kept f fun hin => hf (hsub f hin), h.kept f hf]

/-- A page is taken, and not yet mapped. -/
theorem page_taken {f : ℕ} {l : List ℕ} (hfree : s.freelist = f :: l) (b : ℕ → UInt8) {g : ℕ}
    (hg : g ∉ s.freelist) : Function.update s.page f b g = s.page g := by
  rw [hfree, List.mem_cons, not_or] at hg
  exact Function.update_of_ne hg.1 _ _

/-! ### `setupkvm` -/

/-- A mapping of the kernel. -/
theorem wp_mappages_kmap {k : Kmap} (hk : k.Ok)
    (hfree : ∀ v < 2 ^ 20, k.Covers v → (d.at v).present = false) :
    wp (mappages d k.virt k.size (k.physStart / pgsize) k.perm) E
      (fun r s' => Grown d s r.1 s' ∧ (∀ v < 2 ^ 19, r.1.at v = d.at v) ∧
        (r.2 = true → ∀ v < 2 ^ 20, r.1.at v = if k.Covers v then k.pte v else d.at v)) s := by
  have haligned := hk.aligned
  have hwhole := hk.whole
  have hpos := hk.pos
  have hfits := hk.fits
  have hupper := hk.upper
  rw [kernbase] at hupper
  have hlast : (k.virt + k.size - 1) / 4096 - k.virt / 4096 + 1 = k.size / 4096 := by omega
  refine wp_imp (wp_mappages hpos hfits hk.phys fun u hlo hhi => ?_) ?_
  · exact hfree u (by omega) ⟨hlo, by omega⟩
  · rintro ⟨d', ok⟩ s' ⟨hgrown, j, hj, hok, hent⟩
    rw [hlast] at hj hok
    refine ⟨hgrown, fun v hv => ?_, fun htrue v hv => ?_⟩
    · rw [hent v (by omega), if_neg (by omega)]
    · rw [hent v hv, hok.mp htrue]
      rfl

/-- **The loop of `setupkvm`** puts the mappings of the kernel in, or as many as there is
memory for. -/
theorem wp_kmapLoop : ∀ (rest done : List Kmap) (d : PgDir) (s : Ram), kmap L = done ++ rest →
    Owned s₀ d s → (∀ v < 2 ^ 20, d.at v = kmapPte done v) →
    wp (kmapLoop d rest) E (fun r s' => Owned s₀ r.1 s' ∧
      (r.2 = true → ∀ v < 2 ^ 20, r.1.at v = kernelPte L v)) s := by
  intro rest
  induction rest with
  | nil =>
    intro done d s hL howned hent
    rw [kmapLoop, wp_pure]
    rw [List.append_nil] at hL
    refine ⟨howned, fun _ v hv => ?_⟩
    rw [hent v hv, ← hL]
    rfl
  | cons k rest ih =>
    intro done d s hL howned hent
    have hk : k.Ok := kmap_ok L k (by simp [hL])
    have hdisjoint : ∀ v, k.Covers v → ∀ k' ∈ done, ¬ k'.Covers v := by
      have hpairwise := kmap_disjoint L
      rw [hL] at hpairwise
      exact fun v hv k' hk' =>
        (List.pairwise_append.mp hpairwise).2.2 k' hk' k List.mem_cons_self v hv
    rw [kmapLoop, wp_bind]
    refine wp_imp (wp_mappages_kmap hk fun v hv hcover => ?_) ?_
    · rw [hent v hv, kmapPte_eq_zero (hdisjoint v hcover)]
      rfl
    · rintro ⟨d', ok⟩ s' ⟨hgrown, hsame, hmapped⟩
      dsimp only at hgrown hsame hmapped ⊢
      have howned' := howned.grown hgrown hsame
      cases ok with
      | true =>
        rw [if_pos rfl]
        refine ih (done ++ [k]) d' s' (by rw [hL, List.append_assoc]; rfl) howned' fun v hv => ?_
        rw [hmapped rfl v hv, kmapPte_append done k v (hdisjoint v), hent v hv]
      | false =>
        rw [if_neg (by simp), wp_pure]
        exact ⟨howned', fun hf => by cases hf⟩

/-- **`setupkvm`** returns a page directory with the mappings of the kernel, or, where memory
runs out, has given back all that it took. -/
theorem wp_setupkvm (hram : ∀ f ∈ s.freelist, L.IsRam f) :
    wp (setupkvm L) E (fun r s' =>
      match r with
      | some d => Owned s d s' ∧ ∀ v < 2 ^ 20, d.at v = kernelPte L v
      | none => Restored s s') s := by
  rw [setupkvm, wp_bind, wp_kalloc]
  split
  · next hempty => exact ⟨.refl _, fun _ _ => rfl⟩
  · next f l hfree =>
    have hlow : ¬ p2v (phystop / pgsize) > devspace := by decide
    have howned : Owned s (PgDir.empty f) ⟨l, Function.update s.page f fun _ => 0⟩ := by
      refine ⟨?_, fun g hg => page_taken hfree _ hg⟩
      rw [PgDir.tables_empty, PgDir.frames_eq_nil fun v _ _ => ?_, hfree]
      · exact .refl _
      · rw [PgDir.look, PgDir.at_empty]
        rfl
    simp only [wp_bind, fill, wp_modify]
    rw [if_neg hlow, wp_bind]
    refine wp_imp (wp_kmapLoop (kmap L) [] _ _ rfl howned fun v hv => ?_) ?_
    · exact PgDir.at_empty f v
    · rintro ⟨d, ok⟩ s' ⟨hend, hent⟩
      dsimp only at hend hent ⊢
      cases ok with
      | true => exact ⟨hend, hent rfl⟩
      | false =>
        rw [if_neg (by simp), wp_bind]
        exact wp_imp (wp_freevm_owned hend hram) fun _ s'' hback => hback

end Specs

end Vm
end Xv6
