import Xv6.Vm.Copyuvm
import Xv6.Vm.Growproc
import Xv6.Vm.Space

/-!
# Pages that change hands

What `copyuvm`, `growproc` and `freevm` do with the pages that a process uses, and with what
the process sees of them.

* `Traded` — pages in use have been given for others, and no other page is concerned.
* `Page`, `Image`, `Image.resize` — the memory of a process as the process sees it.
* `Proc.Fits` — the pages below the size are mapped, and the kernel is above them.
* `wp_copyuvm`, `wp_growproc` — **the child sees what the parent sees, and a process that grows
  or shrinks what it saw before.**
-/

namespace Xv6
namespace Vm

open Prog

/-! ### Trades -/

/-- The pages `fs` have been given for the pages `fs'`, and the pages of nobody else are
concerned. -/
structure Traded (fs : List ℕ) (s : Ram) (fs' : List ℕ) (s' : Ram) : Prop where
  perm : (fs' ++ s'.freelist).Perm (fs ++ s.freelist)
  kept : ∀ f, f ∉ fs → f ∉ s.freelist → s'.page f = s.page f

section Trades

variable {fs fs' fs'' : List ℕ} {s s' s'' : Ram} {d d' : PgDir}

namespace Traded

theorem refl (fs : List ℕ) (s : Ram) : Traded fs s fs s := ⟨.refl _, fun _ _ _ => rfl⟩

theorem not_mem (h : Traded fs s fs' s') {f : ℕ} (hf : f ∉ fs) (hfree : f ∉ s.freelist) :
    f ∉ fs' ∧ f ∉ s'.freelist := by
  have hnot : f ∉ fs' ++ s'.freelist := by
    rw [h.perm.mem_iff, List.mem_append, not_or]
    exact ⟨hf, hfree⟩
  rwa [List.mem_append, not_or] at hnot

theorem trans (h : Traded fs s fs' s') (h' : Traded fs' s' fs'' s'') : Traded fs s fs'' s'' where
  perm := h'.perm.trans h.perm
  kept f hf hfree := by
    obtain ⟨hf', hfree'⟩ := h.not_mem hf hfree
    exact (h'.kept f hf' hfree').trans (h.kept f hf hfree)

/-- Pages that are held all the time. -/
theorem frame (h : Traded fs s fs' s') (gs : List ℕ) : Traded (gs ++ fs) s (gs ++ fs') s' where
  perm := by
    rw [List.append_assoc, List.append_assoc]
    exact h.perm.append_left gs
  kept f hf hfree := h.kept f (fun hin => hf (List.mem_append_right _ hin)) hfree

end Traded

theorem Freed.traded (h : Freed fs s s') : Traded fs s [] s' where
  perm := by
    rw [h.free, List.nil_append]
    exact (List.reverse_perm fs).append_right _
  kept f hf _ := h.kept f hf

theorem Restored.traded (h : Restored s s') : Traded [] s [] s' :=
  ⟨h.free, fun f _ hfree => h.kept f hfree⟩

/-- The pages of an address space, and others. -/
theorem PgDir.pages_append (d : PgDir) (l : List ℕ) : (d.pages ++ l).Perm
    (d.frame :: (d.frames 0 (2 ^ 19) ++ (d.tables ++ l))) := by
  rw [PgDir.pages, List.append_assoc _ [d.frame], List.singleton_append, ← List.append_assoc]
  exact List.perm_middle

theorem Owned.traded (h : Owned s d s') : Traded [] s d.pages s' :=
  ⟨(d.pages_append _).trans h.perm, fun f _ hfree => h.kept f hfree⟩

/-- A new address space for an old one. -/
theorem Owned.replaced (h : Owned s d s') (hfreed : Freed fs s' s'') :
    Traded fs s d.pages s'' where
  perm := by
    rw [hfreed.free]
    calc (d.pages ++ (fs.reverse ++ s'.freelist)).Perm (fs.reverse ++ (d.pages ++ s'.freelist)) :=
          List.perm_append_comm_assoc _ _ _
      List.Perm _ (fs ++ s.freelist) := (List.reverse_perm fs).append h.traded.perm
  kept f hf hfree := (hfreed.kept f hf).trans (h.kept f hfree)

/-- The user pages and the page tables change. -/
theorem traded_pages (hframe : d'.frame = d.frame)
    (hperm : (d'.frames 0 (2 ^ 19) ++ (d'.tables ++ s'.freelist)).Perm
      (d.frames 0 (2 ^ 19) ++ (d.tables ++ s.freelist)))
    (hkept : ∀ f, f ∉ d.frames 0 (2 ^ 19) → f ∉ s.freelist → s'.page f = s.page f) :
    Traded d.pages s d'.pages s' where
  perm := by
    refine (d'.pages_append _).trans (List.Perm.trans ?_ (d.pages_append _).symm)
    rw [hframe]
    exact hperm.cons _
  kept f hf hfree := by
    rw [PgDir.pages, List.mem_append, List.mem_append, not_or, not_or] at hf
    exact hkept f hf.1.1 hfree

end Trades

/-! ### What a process sees -/

/-- A page as the process sees it. -/
structure Page where
  flags : ℕ
  bytes : ℕ → UInt8

/-- A page of `allocuvm`. -/
def Page.zero : Page := ⟨pteW ||| pteU ||| pteP, fun _ => 0⟩

/-- The memory of a process as the process sees it. -/
structure Image where
  sz : ℕ
  page : ℕ → Option Page

/-- The memory has a new size: what is above it is gone, and what is new is 0. -/
def Image.resize (x : Image) (sz : ℕ) : Image where
  sz := sz
  page v :=
    if v < npages sz then if v < npages x.sz then x.page v else some Page.zero else none

/-- What is mapped. -/
def PgDir.view (d : PgDir) (s : Ram) (v : ℕ) : Option Page :=
  if v < 2 ^ 19 ∧ (d.at v).present = true then some ⟨(d.at v).flags, s.page (d.at v).frame⟩
  else none

def Proc.image (p : Proc) (s : Ram) : Image := ⟨p.sz, p.pgdir.view s⟩

theorem Proc.image_eq_resize {p : Proc} {s s' : Ram} {d' : PgDir} {newsz : ℕ}
    (h : ∀ v, d'.view s' v = if v < npages newsz then
      if v < npages p.sz then p.pgdir.view s v else some Page.zero else none) :
    Proc.image ⟨d', newsz⟩ s' = (p.image s).resize newsz := by
  have hview := congrArg (Image.mk newsz) (funext h)
  exact hview

/-- The pages below the size are mapped, and the kernel is above them. -/
structure Proc.Fits (L : Layout) (p : Proc) : Prop where
  sz_lt : p.sz < kernbase
  mapped : ∀ v < 2 ^ 19, (p.pgdir.at v).present = true ↔ v < npages p.sz
  kernel : ∀ v < 2 ^ 20, 2 ^ 19 ≤ v → p.pgdir.at v = kernelPte L v

section Views

variable {L : Layout} {E : Panic → Prop} {p : Proc} {s s' : Ram} {d d' : PgDir} {n m : ℕ}

theorem PgDir.view_congr {v : ℕ} (hat : v < 2 ^ 19 → d'.at v = d.at v)
    (hpage : v < 2 ^ 19 → (d.at v).present = true →
      s'.page (d.at v).frame = s.page (d.at v).frame) :
    d'.view s' v = d.view s v := by
  rw [PgDir.view, PgDir.view]
  refine if_ctx_congr (and_congr_right fun hv => by rw [hat hv]) (fun hin => ?_) fun _ => rfl
  rw [hat hin.1, hpage hin.1 hin.2]

theorem PgDir.view_none {v : ℕ} (h : v < 2 ^ 19 → (d.at v).present = false) : d.view s v = none :=
  if_neg fun hin => by rw [h hin.1] at hin; cases hin.2

theorem PgDir.frame_mem {v : ℕ} (hv : v < 2 ^ 19) (hp : (d.at v).present = true) :
    (d.at v).frame ∈ d.frames 0 (2 ^ 19) :=
  PgDir.mem_frames.mpr ⟨v, Nat.zero_le v, hv, PgDir.look_eq_some.mpr ⟨hp, rfl⟩⟩

theorem PgDir.frames_pages {f : ℕ} (hf : f ∈ d.frames 0 (2 ^ 19)) : f ∈ d.pages :=
  List.mem_append_left _ (List.mem_append_left _ hf)

namespace Proc.Fits

variable (h : p.Fits L)

include h

theorem npages_le : npages p.sz ≤ 2 ^ 19 := Vm.npages_le h.sz_lt.le

theorem absent {v : ℕ} (hv : v < 2 ^ 19) (hn : npages p.sz ≤ v) :
    (p.pgdir.at v).present = false := by
  rw [← Bool.not_eq_true, h.mapped v hv]
  omega

theorem look_eq_none {v : ℕ} (hv : v < 2 ^ 19) (hn : npages p.sz ≤ v) : p.pgdir.look v = none :=
  if_neg (Bool.not_eq_true _ ▸ h.absent hv hn)

/-- The pages that are mapped are those below the size. -/
theorem frames_eq {n : ℕ} (hlo : npages p.sz ≤ n) (hn : n ≤ 2 ^ 19) :
    p.pgdir.frames 0 (2 ^ 19) = p.pgdir.frames 0 n := by
  rw [PgDir.frames_append _ (Nat.zero_le n) hn,
    PgDir.frames_eq_nil (v := n) fun v hv hv' => h.look_eq_none hv' (hlo.trans hv), List.append_nil]

theorem view_isSome (s : Ram) (v : ℕ) : (p.pgdir.view s v).isSome ↔ v < npages p.sz := by
  have hmax := h.npages_le
  rw [PgDir.view]
  split
  · next hin => exact iff_of_true rfl ((h.mapped v hin.1).mp hin.2)
  · next hout =>
    refine iff_of_false (by simp) fun hv => hout ⟨by omega, (h.mapped v (by omega)).mpr hv⟩

end Proc.Fits

/-! ### `growproc` -/

namespace Proc.Fits

variable (h : p.Fits L)

include h

theorem wellFormed (hnodup : (p.pgdir.pages ++ s.freelist).Nodup)
    (hram : ∀ f ∈ p.pgdir.pages ++ s.freelist, L.IsRam f) : p.WellFormed L s := by
  have hperm := p.pgdir.pages_append s.freelist
  refine ⟨h.sz_lt.le, fun v hv => ?_, fun f hf => ?_, ?_⟩
  · rw [← h.mapped v hv, PgDir.look]
    split
    · next hp => exact iff_of_true rfl hp
    · next hp => exact iff_of_false (by simp) hp
  · exact hram f (hperm.mem_iff.mpr (List.mem_cons_of_mem _ hf))
  · exact (List.nodup_cons.mp (hperm.nodup_iff.mp hnodup)).2

/-- A size of its own changes nothing. -/
theorem resize_self (s : Ram) : (p.image s).resize p.sz = p.image s := by
  refine (Proc.image_eq_resize fun v => ?_).symm
  by_cases hv : v < npages p.sz
  · rw [if_pos hv, if_pos hv]
  · rw [if_neg hv, ← Option.not_isSome_iff_eq_none, h.view_isSome]
    exact hv

/-- The process has grown. -/
theorem allocated (hw : p.WellFormed L s) {newsz : ℕ} (hle : p.sz ≤ newsz)
    (hnew : newsz < kernbase)
    (halloc : Allocated (npages p.sz) (npages newsz) p.pgdir s d' s') :
    Traded p.pgdir.pages s d'.pages s' ∧ Proc.Fits L ⟨d', newsz⟩ ∧
      Proc.image ⟨d', newsz⟩ s' = (p.image s).resize newsz := by
  have hmax := Vm.npages_le hnew.le
  have hmono : npages p.sz ≤ npages newsz := by
    rw [npages, npages]
    omega
  have hpresent : ∀ v < 2 ^ 19, (d'.at v).present = true ↔ v < npages newsz := by
    intro v hv
    by_cases hin : v < npages p.sz ∨ npages newsz ≤ v
    · rw [halloc.entry v (by omega) hin, h.mapped v hv]
      omega
    · obtain ⟨f, -, hat, -⟩ := halloc.new v (by omega) (by omega)
      rw [hat]
      exact iff_of_true (Pte.present_perm _ _) (by omega)
  have hfits : Proc.Fits L ⟨d', newsz⟩ := ⟨hnew, hpresent, fun v hv hk =>
    (halloc.entry v hv (.inr (by omega))).trans (h.kernel v hv hk)⟩
  refine ⟨traded_pages halloc.frame ?_ fun f _ => halloc.kept f, hfits, ?_⟩
  · rw [h.frames_eq le_rfl h.npages_le, hfits.frames_eq le_rfl hmax,
      PgDir.frames_append _ (Nat.zero_le _) hmono, List.append_assoc]
    rw [PgDir.frames_congr fun v _ hv => PgDir.look_congr (halloc.entry v (by omega) (.inl hv))]
    refine List.Perm.append_left _ ?_
    rw [← List.append_assoc]
    exact halloc.owned
  · refine Proc.image_eq_resize fun v => ?_
    by_cases hin : v < npages newsz
    · rw [if_pos hin]
      by_cases hold : v < npages p.sz
      · rw [if_pos hold]
        refine PgDir.view_congr (fun _ => halloc.entry v (by omega) (.inl hold)) fun hv hp => ?_
        exact halloc.kept _ (hw.not_free hv (PgDir.look_eq_some.mpr ⟨hp, rfl⟩))
      · obtain ⟨f, -, hat, hzero⟩ := halloc.new v (by omega) hin
        rw [if_neg hold, PgDir.view, if_pos ⟨by omega, (hpresent v (by omega)).mpr hin⟩, hat,
          hzero]
        rfl
    · rw [if_neg hin]
      exact PgDir.view_none fun hv => by rw [← Bool.not_eq_true, hpresent v hv]; exact hin

/-- The process has not grown. -/
theorem rolledBack (hw : p.WellFormed L s) {newsz : ℕ} (hnew : newsz < kernbase)
    (hback : RolledBack (npages p.sz) (npages newsz) p.pgdir s d' s') :
    Traded p.pgdir.pages s d'.pages s' ∧ Proc.Fits L ⟨d', p.sz⟩ ∧
      Proc.image ⟨d', p.sz⟩ s' = p.image s := by
  have hmax := Vm.npages_le hnew.le
  have hsame : ∀ v < 2 ^ 19, (d'.at v).present = (p.pgdir.at v).present := by
    intro v hv
    by_cases hin : v < npages p.sz ∨ npages newsz ≤ v
    · rw [hback.entry v (by omega) hin]
    · rw [hback.absent v (by omega) (by omega), h.absent hv (by omega)]
  have hentry : ∀ v < 2 ^ 19, (p.pgdir.at v).present = true → d'.at v = p.pgdir.at v :=
    fun v hv hp => hback.entry v (by omega) (.inl ((h.mapped v hv).mp hp))
  have hlook : ∀ v < 2 ^ 19, d'.look v = p.pgdir.look v := by
    intro v hv
    cases hp : (p.pgdir.at v).present with
    | true => exact PgDir.look_congr (hentry v hv hp)
    | false =>
      rw [PgDir.look, PgDir.look, hsame v hv, hp]
      rfl
  refine ⟨traded_pages hback.frame ?_ fun f _ => hback.kept f,
    ⟨h.sz_lt, fun v hv => by rw [hsame v hv, h.mapped v hv],
      fun v hv hk => (hback.entry v hv (.inr (by omega))).trans (h.kernel v hv hk)⟩, ?_⟩
  · rw [PgDir.frames_congr fun v _ hv => hlook v hv]
    exact hback.owned.append_left _
  · rw [Proc.image, Proc.image, Image.mk.injEq]
    refine ⟨rfl, funext fun v => ?_⟩
    dsimp only
    by_cases hin : v < 2 ^ 19 ∧ (p.pgdir.at v).present = true
    · refine PgDir.view_congr (fun _ => hentry v hin.1 hin.2) fun hv hp => ?_
      exact hback.kept _ (hw.not_free hv (PgDir.look_eq_some.mpr ⟨hp, rfl⟩))
    · rw [PgDir.view, PgDir.view, if_neg hin, if_neg fun hin' => hin ⟨hin'.1, ?_⟩]
      rw [← hsame v hin'.1]
      exact hin'.2

/-- The process has shrunk. -/
theorem cleared (hw : p.WellFormed L s) {newsz : ℕ} (hlt : newsz < p.sz)
    (hclear : Cleared (npages newsz) (npages p.sz) p.pgdir d')
    (hfreed : Freed (p.pgdir.frames (npages newsz) (npages p.sz)) s s') :
    Traded p.pgdir.pages s d'.pages s' ∧ Proc.Fits L ⟨d', newsz⟩ ∧
      Proc.image ⟨d', newsz⟩ s' = (p.image s).resize newsz := by
  have hmax := h.npages_le
  have hlt' := h.sz_lt
  have hmono : npages newsz ≤ npages p.sz := by
    rw [npages, npages]
    omega
  have hentry : ∀ v < 2 ^ 20, v < npages newsz ∨ npages p.sz ≤ v → d'.at v = p.pgdir.at v := by
    intro v hv hout
    rw [hclear.entry v hv, if_neg (by omega)]
  have hpresent : ∀ v < 2 ^ 19, (d'.at v).present = true ↔ v < npages newsz := by
    intro v hv
    by_cases hin : v < npages newsz ∨ npages p.sz ≤ v
    · rw [hentry v (by omega) hin, h.mapped v hv]
      omega
    · have hp := (h.mapped v hv).mpr (by omega)
      rw [hclear.entry v (by omega), if_pos ⟨by omega, by omega, hp⟩]
      exact iff_of_false (by simp) (by omega)
  have hfits : Proc.Fits L ⟨d', newsz⟩ := ⟨hlt.trans hlt', hpresent, fun v hv hk =>
    (hentry v hv (.inr (by omega))).trans (h.kernel v hv hk)⟩
  have hframes : p.pgdir.frames 0 (2 ^ 19) =
      d'.frames 0 (2 ^ 19) ++ p.pgdir.frames (npages newsz) (npages p.sz) := by
    rw [h.frames_eq le_rfl hmax, hfits.frames_eq le_rfl (hmono.trans hmax),
      PgDir.frames_append _ (Nat.zero_le _) hmono]
    refine congrArg (· ++ _) (PgDir.frames_congr fun v _ hv => PgDir.look_congr ?_)
    exact (hentry v (by omega) (.inl hv)).symm
  refine ⟨traded_pages hclear.frame ?_ fun f hf _ => hfreed.kept f fun hin => hf ?_, hfits, ?_⟩
  · rw [hclear.tables, hfreed.free, hframes, List.append_assoc]
    refine List.Perm.append_left _ ?_
    refine List.Perm.trans ?_ (List.perm_append_comm_assoc _ _ _)
    exact ((List.reverse_perm _).append_right _).append_left _
  · rw [hframes]
    exact List.mem_append_right _ hin
  · refine Proc.image_eq_resize fun v => ?_
    by_cases hin : v < npages newsz
    · rw [if_pos hin, if_pos (by omega)]
      refine PgDir.view_congr (fun _ => hentry v (by omega) (.inl hin)) fun hv hp => ?_
      -- the page is not one of those that were freed
      refine hfreed.kept _ fun hmem => ?_
      have hnodup := (List.nodup_append.mp hw.nodup).1
      rw [hframes] at hnodup
      refine List.disjoint_of_nodup_append hnodup ?_ hmem
      have hsame := hentry v (by omega) (.inl hin)
      rw [← hsame] at hp ⊢
      exact PgDir.frame_mem hv hp
    · rw [if_neg hin]
      exact PgDir.view_none fun hv => by rw [← Bool.not_eq_true, hpresent v hv]; exact hin

end Proc.Fits

/-- **`growproc`**, but for a process that is to shrink to nothing. -/
theorem wp_growproc (h : p.Fits L) (hw : p.WellFormed L s) {n : Int32}
    (hn : p.sz = 0 ∨ (p.sz : ℤ) + n.toInt ≠ 0) :
    wp (growproc L p n) E (fun r s' => Traded p.pgdir.pages s r.1.pgdir.pages s' ∧ r.1.Fits L ∧
      ((r.2 = -1 ∧ r.1.image s' = p.image s) ∨
        (r.2 = 0 ∧ r.1.image s' = if 0 ≤ (p.sz : ℤ) + n.toInt then
          (p.image s).resize ((p.sz : ℤ) + n.toInt).toNat else p.image s))) s := by
  have hsz := h.sz_lt
  have hlo := n.le_toInt
  have hhi := n.toInt_lt
  have hstay : Traded p.pgdir.pages s p.pgdir.pages s ∧ p.Fits L := ⟨.refl _ s, h⟩
  rw [growproc]
  rw [kernbase] at hsz
  dsimp only
  rcases Int.lt_trichotomy n.toInt 0 with hneg | hzero | hpos
  · rw [if_neg (by omega), if_pos hneg, wp_bind]
    by_cases hlt : 0 < (p.sz : ℤ) + n.toInt
    · -- the process shrinks
      have hnew : (((p.sz : ℤ) + n.toInt) % 2 ^ 32).toNat = ((p.sz : ℤ) + n.toInt).toNat := by omega
      rw [hnew]
      refine wp_imp (wp_deallocuvm (by omega) h.sz_lt.le (hw.ram_frames h.npages_le) s) ?_
      rintro ⟨d', sz⟩ s' ⟨rfl, hclear, hfreed⟩
      dsimp only at hclear ⊢
      obtain ⟨htraded, hfits, himage⟩ := h.cleared hw (by omega) hclear hfreed
      rw [if_neg (by omega), wp_pure, if_pos hlt.le]
      exact ⟨htraded, hfits, .inr ⟨rfl, himage⟩⟩
    · -- the new size is not below the old one
      have hge : (((p.sz : ℤ) + n.toInt) % 2 ^ 32).toNat ≥ p.sz := by omega
      rw [deallocuvm, if_pos hge, wp_pure]
      dsimp only
      split
      · exact ⟨hstay.1, hstay.2, .inl ⟨rfl, rfl⟩⟩
      · rw [wp_pure, if_neg (by omega)]
        exact ⟨hstay.1, hstay.2, .inr ⟨rfl, rfl⟩⟩
  · rw [if_neg (by omega), if_neg (by omega), wp_pure, hzero, add_zero, if_pos (by omega),
      Int.toNat_natCast, h.resize_self]
    exact ⟨hstay.1, hstay.2, .inr ⟨rfl, rfl⟩⟩
  · have hnew : (((p.sz : ℤ) + n.toInt) % 2 ^ 32).toNat = ((p.sz : ℤ) + n.toInt).toNat := by omega
    rw [if_pos hpos, hnew, wp_bind, if_pos (by omega)]
    rcases Nat.lt_or_ge ((p.sz : ℤ) + n.toInt).toNat kernbase with hlt | hge
    · refine wp_imp (wp_allocuvm (by omega) hlt (fun f => hw.ram_free) hw.nodup_rest fun u hu _ =>
        hw.absent ?_ hu) ?_
      · have hmax := npages_le hlt.le
        omega
      · rintro ⟨d', sz⟩ s' (⟨rfl, halloc⟩ | ⟨rfl, hback⟩)
        · obtain ⟨htraded, hfits, himage⟩ := h.allocated hw (by omega) hlt halloc
          dsimp only
          rw [if_neg (by omega)]
          exact ⟨htraded, hfits, .inr ⟨rfl, himage⟩⟩
        · obtain ⟨htraded, hfits, himage⟩ := h.rolledBack hw hlt hback
          exact ⟨htraded, hfits, .inl ⟨rfl, himage⟩⟩
    · rw [allocuvm, if_pos hge, wp_pure]
      exact ⟨hstay.1, hstay.2, .inl ⟨rfl, rfl⟩⟩

/-! ### `copyuvm` -/

/-- The address space of a new program. -/
theorem Space.fits {s₀ : Ram} (h : Space L s₀ n d s) (hn : n * 4096 < kernbase) :
    Proc.Fits L ⟨d, n * 4096⟩ where
  sz_lt := hn
  mapped v hv := by
    rw [npages_page]
    exact h.mapped v hv
  kernel := h.kernel

/-- **`copyuvm`**: the child sees what the parent sees. -/
theorem wp_copyuvm (h : p.Fits L) (hw : p.WellFormed L s) (hnodup : s.freelist.Nodup) :
    wp (copyuvm L p.pgdir p.sz) E (fun r s' =>
      match r with
      | some d => Traded [] s d.pages s' ∧ Proc.Fits L ⟨d, p.sz⟩ ∧
          Proc.image ⟨d, p.sz⟩ s' = p.image s
      | none => Traded [] s [] s') s := by
  have hmax := h.npages_le
  have hram : ∀ f ∈ s.freelist, L.IsRam f := fun f => hw.ram_free
  have hpresent : ∀ v < npages p.sz, (p.pgdir.at v).present = true :=
    fun v hv => (h.mapped v (by omega)).mpr hv
  rw [copyuvm, wp_bind]
  refine wp_imp (wp_setupkvm_space hram) fun r s₁ hr => ?_
  cases r with
  | none => exact hr.traded
  | some d =>
    have hstart : Copying L p.pgdir s 0 d s₁ :=
      ⟨hr.owned, hr.kernel, fun v hv => by omega, fun v hv _ => hr.look_eq_none hv (Nat.zero_le v)⟩
    have hloop := wp_copyLoop (L := L) (E := E) h.sz_lt hram hnodup hpresent
      (fun v hv => hw.not_free (by omega) (hw.look hv)) rounds 0 d s₁ (by rw [rounds]; omega)
      (Nat.zero_le _) hstart
    rw [Nat.zero_mul] at hloop
    rw [wp_bind]
    refine wp_imp hloop ?_
    rintro ⟨d', ok⟩ s₂ ⟨howned, hcopy⟩
    cases ok with
    | true =>
      have hcopied := hcopy rfl
      have hmapped : ∀ v < 2 ^ 19, (d'.at v).present = true ↔ v < npages p.sz := by
        intro v hv
        refine ⟨fun hp => ?_, fun hlt => (hcopied.page v hlt).1⟩
        by_contra hge
        have hnone := hcopied.absent v hv (by omega)
        rw [PgDir.look, if_pos hp] at hnone
        cases hnone
      refine ⟨howned.traded, ⟨h.sz_lt, hmapped, hcopied.kernel⟩, ?_⟩
      rw [Proc.image, Proc.image, Image.mk.injEq]
      refine ⟨rfl, funext fun v => ?_⟩
      rw [PgDir.view, PgDir.view]
      refine if_ctx_congr (and_congr_right fun hv => ?_) (fun hin => ?_) fun _ => rfl
      · rw [hmapped v hv, h.mapped v hv]
      · obtain ⟨-, hflags, hbytes⟩ := hcopied.page v ((h.mapped v hin.1).mp hin.2)
        rw [hflags, hbytes]
    | false =>
      dsimp only
      rw [if_neg (by simp), wp_bind]
      exact wp_imp (wp_freevm_owned howned hram) fun _ s₃ hback => hback.traded

end Views

end Vm
end Xv6
