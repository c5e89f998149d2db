import Xv6.Vm.Alloc
import Xv6.Vm.Setupkvm

/-!
# Copying an address space

`copyuvm` of `vm.c`, with which `fork` makes the address space of a child.

* `copyuvm` — the code.
* `Copying` — the copy after some pages.
* `wp_copyLoop` — the loop copies the pages in order, and what it leaves behind where memory
  runs out is made of free pages.
* `copyuvm_copies` — **what `copyuvm` does.**
-/

namespace Xv6
namespace Vm

open Prog

/-! ### The code -/

/-- The loop of `copyuvm`; the flag is whether it gets to the end. -/
def copyLoop (L : Layout) (pgdir : PgDir) (sz : ℕ) : ℕ → ℕ → PgDir → Kern (PgDir × Bool)
  | 0, _, _ => stop .diverges
  | n + 1, i, d =>
      if i < sz then do
        let (_, found) ← walkpgdir pgdir i false
        if found then
          if (pgdir.entry i).present then
            match ← kalloc with
            | none => return (d, false)
            | some mem =>
                let s ← get
                fill mem (s.page (pgdir.entry i).frame)
                let (d, ok) ← mappages d i pgsize mem (pgdir.entry i).flags
                if ok then copyLoop L pgdir sz n ((i + pgsize) % 2 ^ 32) d
                else
                  kfree L mem
                  return (d, false)
          else stop .copyuvm
        else stop .copyuvm
      else return (d, true)

/-- `copyuvm` -/
def copyuvm (L : Layout) (pgdir : PgDir) (sz : ℕ) : Kern (Option PgDir) := do
  match ← setupkvm L with
  | none => return none
  | some d =>
      let (d, ok) ← copyLoop L pgdir sz rounds 0 d
      if ok then return some d
      else
        freevm L d
        return none

/-! ### A page more -/

section Specs

variable {L : Layout} {E : Panic → Prop} {s₀ s s' : Ram} {d d' pgdir : PgDir}

theorem Pte.flags_present {e : Pte} (h : e.present = true) : e.flags ||| pteP = e.flags := by
  refine Nat.eq_of_testBit_eq fun i => ?_
  rw [Nat.testBit_or]
  rcases Nat.eq_zero_or_pos i with rfl | hi
  · rw [show e.flags.testBit 0 = true from h, Bool.true_or]
  · have hone : Nat.testBit 1 i = false := by
      rw [← Bool.not_eq_true, Nat.testBit_one_eq_true_iff_self_eq_zero]
      exact hi.ne'
    rw [pteP, hone, Bool.or_false]

/-- A page is mapped that was not mapped before. -/
theorem PgDir.frames_enter {v w u f perm : ℕ} (hv : v ≤ u) (hw : u < w) (hmax : w ≤ 2 ^ 20)
    (habsent : d.look u = none)
    (hent : ∀ x < 2 ^ 20, d'.at x = if x = u then ⟨f, perm ||| pteP⟩ else d.at x) :
    (d'.frames v w).Perm (f :: d.frames v w) := by
  have hlook : d'.look u = some f := by
    rw [look_eq_some, hent u (by omega), if_pos rfl]
    exact ⟨Pte.present_perm _ _, rfl⟩
  have hsame : ∀ x < w, x ≠ u → d'.look x = d.look x := fun x hx hne =>
    look_congr (by rw [hent x (by omega), if_neg hne])
  rw [frames_append d' hv hw.le, frames_cons d' hw, hlook, frames_append d hv hw.le,
    frames_cons d hw, habsent, frames_congr fun x _ hx => hsame x (by omega) (by omega),
    frames_congr fun x hlo hx => hsame x hx (by omega)]
  exact List.perm_middle

namespace Owned

/-- The page that is taken is one of those that were free, and the others stay. -/
theorem kept_taken (h : Owned s₀ d s) {f : ℕ} {l : List ℕ} {b : ℕ → UInt8}
    (hfree : s.freelist = f :: l) (hgrown : Grown d ⟨l, Function.update s.page f b⟩ d' s') {g : ℕ}
    (hg : g ∉ s₀.freelist) : g ≠ f ∧ s'.page g = s₀.page g := by
  have hg' : g ∉ s.freelist := fun hin => hg (h.mem_free hin)
  have hout := hg'
  rw [hfree, List.mem_cons, not_or] at hout
  refine ⟨hout.1, ?_⟩
  rw [hgrown.kept g hout.2, ← h.kept g hg]
  exact page_taken hfree b hg'

/-- A page is taken and mapped. -/
theorem enter (h : Owned s₀ d s) {v f perm : ℕ} {l : List ℕ} {b : ℕ → UInt8} (hv : v < 2 ^ 19)
    (habsent : d.look v = none) (hfree : s.freelist = f :: l)
    (hgrown : Grown d ⟨l, Function.update s.page f b⟩ d' s')
    (hent : ∀ u < 2 ^ 20, d'.at u = if u = v then ⟨f, perm ||| pteP⟩ else d.at u) :
    Owned s₀ d' s' where
  perm := by
    have howned : (d'.tables ++ s'.freelist).Perm (d.tables ++ l) := hgrown.owned
    refine List.Perm.trans ?_ h.perm
    rw [hgrown.frame, hfree]
    apply List.Perm.cons
    calc (d'.frames 0 (2 ^ 19) ++ (d'.tables ++ s'.freelist)).Perm
          (f :: d.frames 0 (2 ^ 19) ++ (d.tables ++ l)) :=
          (PgDir.frames_enter (Nat.zero_le v) hv (by decide) habsent hent).append howned
      List.Perm _ (d.frames 0 (2 ^ 19) ++ f :: (d.tables ++ l)) := List.perm_middle.symm
      List.Perm _ (d.frames 0 (2 ^ 19) ++ (d.tables ++ f :: l)) :=
          List.perm_middle.symm.append_left _
  kept g hg := (h.kept_taken hfree hgrown hg).2

/-- A page is taken, and given back. -/
theorem giveBack (h : Owned s₀ d s) {f : ℕ} {l : List ℕ} {b b' : ℕ → UInt8}
    (hfree : s.freelist = f :: l) (hgrown : Grown d ⟨l, Function.update s.page f b⟩ d' s')
    (hsame : ∀ u < 2 ^ 19, d'.at u = d.at u) :
    Owned s₀ d' ⟨f :: s'.freelist, Function.update s'.page f b'⟩ where
  perm := by
    have howned : (d'.tables ++ s'.freelist).Perm (d.tables ++ l) := hgrown.owned
    refine List.Perm.trans ?_ h.perm
    rw [hgrown.frame, hfree, PgDir.frames_congr fun v _ hv => PgDir.look_congr (hsame v hv)]
    refine List.Perm.cons _ (List.Perm.append_left _ ?_)
    exact List.perm_middle.trans ((howned.cons f).trans List.perm_middle.symm)
  kept g hg := by
    obtain ⟨hne, hkept⟩ := h.kept_taken hfree hgrown hg
    exact (Function.update_of_ne hne _ _).trans hkept

end Owned

/-! ### The copy -/

/-- The pages below `n` have been copied. -/
structure Copying (L : Layout) (pgdir : PgDir) (s₀ : Ram) (n : ℕ) (d : PgDir) (s : Ram) : Prop where
  owned : Owned s₀ d s
  kernel : ∀ v < 2 ^ 20, 2 ^ 19 ≤ v → d.at v = kernelPte L v
  page : ∀ v < n, (d.at v).present = true ∧ (d.at v).flags = (pgdir.at v).flags ∧
    s.page (d.at v).frame = s₀.page (pgdir.at v).frame
  absent : ∀ v < 2 ^ 19, n ≤ v → d.look v = none

/-- One more page is copied. -/
theorem Copying.succ {n f : ℕ} {l : List ℕ} (h : Copying L pgdir s₀ n d s)
    (h₀ : s₀.freelist.Nodup) (hn : n < 2 ^ 19) (hpresent : (pgdir.at n).present = true)
    (hparent : (pgdir.at n).frame ∉ s₀.freelist) (hfree : s.freelist = f :: l)
    (hgrown : Grown d ⟨l, Function.update s.page f (s.page (pgdir.at n).frame)⟩ d' s')
    (hent : ∀ u < 2 ^ 20, d'.at u =
      if u = n then ⟨f, (pgdir.at n).flags ||| pteP⟩ else d.at u) :
    Copying L pgdir s₀ (n + 1) d' s' := by
  have hused := h.owned.nodup h₀
  rw [hfree] at hused
  have hrest := (List.nodup_append.mp (List.nodup_append.mp hused).2.1).2.1
  refine ⟨h.owned.enter hn (h.absent n hn le_rfl) hfree hgrown hent, fun v hv hk => ?_,
    fun v hv => ?_, fun v hv hlo => ?_⟩
  · rw [hent v hv, if_neg (by omega)]
    exact h.kernel v hv hk
  · rcases Nat.lt_succ_iff_lt_or_eq.mp hv with hlt | rfl
    · obtain ⟨hp, hflags, hcontents⟩ := h.page v hlt
      rw [hent v (by omega), if_neg (by omega)]
      refine ⟨hp, hflags, ?_⟩
      -- the pages of the copy are not on the free list
      have hmem : (d.at v).frame ∈ d.frames 0 (2 ^ 19) :=
        PgDir.mem_frames.mpr ⟨v, Nat.zero_le v, by omega, PgDir.look_eq_some.mpr ⟨hp, rfl⟩⟩
      have hout : (d.at v).frame ∉ f :: l := fun hin =>
        List.disjoint_of_nodup_append hused hmem (List.mem_append_right _ hin)
      rw [List.mem_cons, not_or] at hout
      rw [hgrown.kept _ hout.2, ← hcontents]
      exact Function.update_of_ne hout.1 _ _
    · rw [hent v (by omega), if_pos rfl]
      refine ⟨Pte.present_perm _ _, Pte.flags_present hpresent, ?_⟩
      dsimp only
      rw [hgrown.kept f (List.nodup_cons.mp hrest).1, ← h.owned.kept _ hparent]
      exact Function.update_self _ _ _
  · rw [PgDir.look_congr (d := d) (by rw [hent v (by omega), if_neg (by omega)])]
    exact h.absent v hv (by omega)

/-- **The loop of `copyuvm`.** -/
theorem wp_copyLoop {sz : ℕ} (hsz : sz < kernbase) (hram : ∀ f ∈ s₀.freelist, L.IsRam f)
    (h₀ : s₀.freelist.Nodup) (hpresent : ∀ v < npages sz, (pgdir.at v).present = true)
    (hparent : ∀ v < npages sz, (pgdir.at v).frame ∉ s₀.freelist) :
    ∀ (k n : ℕ) (d : PgDir) (s : Ram), npages sz - n < k → n ≤ npages sz →
      Copying L pgdir s₀ n d s →
      wp (copyLoop L pgdir sz k (n * 4096) d) E (fun r s' => Owned s₀ r.1 s' ∧
        (r.2 = true → Copying L pgdir s₀ (npages sz) r.1 s')) s := by
  have hmax := npages_le hsz.le
  intro k
  induction k with
  | zero => intro n d s hk; omega
  | succ k ih =>
    intro n d s hk hn h
    rw [copyLoop]
    by_cases hlt : n * 4096 < sz
    · have hnlt : n < npages sz := by
        rw [npages]
        omega
      have htable : (pgdir.pde (pdx (n * 4096))).isSome = true := by
        rw [pdx_page, Option.isSome_iff_ne_none]
        intro hnone
        have hp := hpresent n hnlt
        rw [PgDir.at_of_none hnone] at hp
        cases hp
      rw [if_pos hlt, wp_bind, wp_walkpgdir]
      dsimp only
      rw [if_pos htable, show pgdir.entry (n * 4096) = pgdir.at n from rfl,
        if_pos (hpresent n hnlt), wp_bind, wp_kalloc]
      split
      · rw [wp_pure]
        exact ⟨h.owned, fun hf => by cases hf⟩
      · next f l hfree =>
        have hf : L.IsRam f := hram f (h.owned.mem_free (by rw [hfree]; exact List.mem_cons_self))
        have hnone : (d.at n).present = false := by
          have hlook := h.absent n (by omega) le_rfl
          rw [← Bool.not_eq_true]
          intro hp
          rw [PgDir.look, if_pos hp] at hlook
          cases hlook
        simp only [wp_bind, wp_get, fill, wp_modify]
        apply wp_imp (wp_mappages_page (by omega) hf.lt hnone)
        rintro ⟨d', ok⟩ s' ⟨hgrown, hent⟩
        dsimp only at hgrown hent ⊢
        cases ok with
        | true =>
          rw [if_pos rfl, next_page (by omega)]
          refine ih (n + 1) d' s' (by omega) (by omega) ?_
          refine h.succ h₀ (by omega) (hpresent n hnlt) (hparent n hnlt) hfree hgrown fun u hu => ?_
          rw [hent u hu]
          exact if_congr (by simp) rfl rfl
        | false =>
          rw [if_neg (by simp), wp_bind, wp_kfree hf, wp_pure]
          refine ⟨h.owned.giveBack hfree hgrown fun u hu => ?_, fun hf => by cases hf⟩
          rw [hent u (by omega), if_neg (by simp)]
    · rw [if_neg hlt, wp_pure]
      have hend : n = npages sz := by
        rw [npages] at hn ⊢
        omega
      exact ⟨h.owned, fun _ => hend ▸ h⟩

/-- `child` is a private copy of the pages of `pgdir` below `n`, on pages that were free. -/
structure IsCopy (L : Layout) (pgdir : PgDir) (s : Ram) (n : ℕ) (child : PgDir) (s' : Ram) :
    Prop where
  kernel : ∀ v < 2 ^ 20, 2 ^ 19 ≤ v → child.at v = kernelPte L v
  page : ∀ v < n, (child.at v).present = true ∧ (child.at v).flags = (pgdir.at v).flags ∧
    s'.page (child.at v).frame = s.page (pgdir.at v).frame
  absent : ∀ v < 2 ^ 19, n ≤ v → child.look v = none
  free : ∀ v < n, (child.at v).frame ∈ s.freelist
  distinct : ∀ v < n, ∀ w < n, (child.at v).frame = (child.at w).frame → v = w
  perm : (child.frame :: (child.frames 0 (2 ^ 19) ++ (child.tables ++ s'.freelist))).Perm s.freelist
  kept : ∀ f, f ∉ s.freelist → s'.page f = s.page f

theorem Copying.isCopy {n : ℕ} (h : Copying L pgdir s₀ n d s) (hn : n ≤ 2 ^ 19)
    (h₀ : s₀.freelist.Nodup) : IsCopy L pgdir s₀ n d s := by
  have hlook : ∀ v < n, d.look v = some (d.at v).frame := fun v hv =>
    PgDir.look_eq_some.mpr ⟨(h.page v hv).1, rfl⟩
  have hmem : ∀ v < n, (d.at v).frame ∈ d.frames 0 (2 ^ 19) := fun v hv =>
    PgDir.mem_frames.mpr ⟨v, Nat.zero_le v, by omega, hlook v hv⟩
  refine ⟨h.kernel, h.page, h.absent, fun v hv => h.owned.mem_frames (hmem v hv),
    fun v hv w hw heq => ?_, h.owned.perm, h.owned.kept⟩
  exact PgDir.look_inj (List.nodup_append.mp (h.owned.nodup h₀)).1 (by omega) (by omega)
    (hlook v hv) ((hlook w hw).trans (by rw [heq]))

/-- **`copyuvm`.**  Let the pages below the size be present, and not on the free list.  Then
`copyuvm` returns a private copy of them under the mappings of the kernel, or 0, with the free
pages that there were before; the pages that were not free stay as they are. -/
theorem copyuvm_copies (L : Layout) (pgdir : PgDir) (s : Ram) {sz : ℕ} (hsz : sz < kernbase)
    (hpresent : ∀ v < npages sz, (pgdir.at v).present = true)
    (hparent : ∀ v < npages sz, (pgdir.at v).frame ∉ s.freelist)
    (hram : ∀ f ∈ s.freelist, L.IsRam f) (hnodup : s.freelist.Nodup) :
    ∃ r s', copyuvm L pgdir sz s = .ok (r, s') ∧
      (∀ child, r = some child → IsCopy L pgdir s (npages sz) child s') ∧
      (r = none → Restored s s') := by
  have hmax := npages_le hsz.le
  apply exists_of_wp
  rw [copyuvm, wp_bind]
  refine wp_imp (wp_setupkvm hram) fun r s₁ hr => ?_
  cases r with
  | none => exact ⟨fun _ hchild => (by cases hchild), fun _ => hr⟩
  | some d =>
    obtain ⟨howned, hkernel⟩ := hr
    have hstart : Copying L pgdir s 0 d s₁ := by
      refine ⟨howned, fun v hv _ => hkernel v hv, fun v hv => by omega, fun v hv _ => ?_⟩
      rw [PgDir.look, hkernel v (by omega), kernelPte_user L hv]
      rfl
    have hloop := wp_copyLoop (L := L) (E := fun _ => False) hsz hram hnodup hpresent hparent
      rounds 0 d s₁ (by rw [rounds]; omega) (Nat.zero_le _) hstart
    rw [Nat.zero_mul] at hloop
    rw [wp_bind]
    refine wp_imp hloop ?_
    rintro ⟨d', ok⟩ s₂ ⟨howned', hcopy⟩
    dsimp only at howned' hcopy ⊢
    cases ok with
    | true =>
      rw [if_pos rfl, wp_pure]
      refine ⟨fun child hchild => ?_, fun hnone => by cases hnone⟩
      rw [← Option.some.inj hchild]
      exact (hcopy rfl).isCopy hmax hnodup
    | false =>
      rw [if_neg (by simp), wp_bind]
      refine wp_imp (wp_freevm_owned howned' hram) fun _ s₃ hback => ?_
      exact ⟨fun _ hchild => (by cases hchild), fun _ => hback⟩

end Specs

theorem copyuvm_copies_onePage :
    ∃ r s', copyuvm smallKernel onePage 4096 ⟨[0x403, 0x404], fun _ _ => 7⟩ = .ok (r, s') ∧
      (∀ child, r = some child →
        IsCopy smallKernel onePage ⟨[0x403, 0x404], fun _ _ => 7⟩ (npages 4096) child s') ∧
      (r = none → Restored ⟨[0x403, 0x404], fun _ _ => 7⟩ s') := by
  have hone : npages 4096 = 1 := rfl
  refine copyuvm_copies smallKernel onePage ⟨[0x403, 0x404], fun _ _ => 7⟩ (by decide)
    (fun v hv => ?_) (fun v hv => ?_) (fun f hf => ?_) (by decide)
  · rw [hone, Nat.lt_one_iff] at hv
    rw [hv, onePage_at (by decide), if_pos rfl]
    rfl
  · rw [hone, Nat.lt_one_iff] at hv
    rw [hv, onePage_at (by decide), if_pos rfl]
    decide
  · simp only [List.mem_cons, List.not_mem_nil, or_false] at hf
    rcases hf with rfl | rfl <;> exact ⟨by decide, by decide⟩

end Vm
end Xv6
