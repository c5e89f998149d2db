import Xv6.Vm.Alloc

/-!
# Growing and shrinking a process

`growproc` of `proc.c`.  It takes the 0 of `allocuvm` and of `deallocuvm` for a failure,
and the new size is computed modulo 2^32.

* `growproc` — the code.
* `Grew`, `Unchanged` — all, and nothing.
* `growproc_iff` — **when `growproc` does all or nothing**: unless it is to shrink to size 0,
  or below.
-/

namespace Xv6
namespace Vm

open Prog

/-- The address space of a process. -/
structure Proc where
  pgdir : PgDir
  sz : ℕ

/-- `growproc`, with the value that it returns. -/
def growproc (L : Layout) (p : Proc) (n : Int32) : Kern (Proc × ℤ) :=
  let newsz := ((p.sz + n.toInt) % 2 ^ 32).toNat
  if n.toInt > 0 then do
    let (d, sz) ← allocuvm L p.pgdir p.sz newsz
    if sz = 0 then return ({ p with pgdir := d }, -1) else return (⟨d, sz⟩, 0)
  else if n.toInt < 0 then do
    let (d, sz) ← deallocuvm L p.pgdir p.sz newsz
    if sz = 0 then return ({ p with pgdir := d }, -1) else return (⟨d, sz⟩, 0)
  else return (p, 0)

/-! ### All or nothing -/

/-- The pages below the size are the user pages that are mapped, and the pages in use are
distinct pages of the allocator. -/
structure Proc.WellFormed (L : Layout) (p : Proc) (s : Ram) : Prop where
  sz_le : p.sz ≤ kernbase
  mapped : ∀ v < 2 ^ 19, (p.pgdir.look v).isSome ↔ v < npages p.sz
  ram : ∀ f ∈ p.pgdir.frames 0 (2 ^ 19) ++ (p.pgdir.tables ++ s.freelist), L.IsRam f
  nodup : (p.pgdir.frames 0 (2 ^ 19) ++ (p.pgdir.tables ++ s.freelist)).Nodup

/-- The process has grown, or shrunk, by `n`. -/
structure Grew (n : ℤ) (p : Proc) (s : Ram) (p' : Proc) (s' : Ram) : Prop where
  sz : (p'.sz : ℤ) = p.sz + n
  mapped : ∀ v < 2 ^ 19, (p'.pgdir.look v).isSome ↔ v < npages p'.sz
  kernel : ∀ v < 2 ^ 20, 2 ^ 19 ≤ v → p'.pgdir.at v = p.pgdir.at v
  old : ∀ v, v < npages p.sz → v < npages p'.sz → p'.pgdir.at v = p.pgdir.at v ∧
    s'.page (p.pgdir.at v).frame = s.page (p.pgdir.at v).frame
  new : ∀ v, npages p.sz ≤ v → v < npages p'.sz → s'.page (p'.pgdir.at v).frame = fun _ => 0

/-- The size, what is mapped and the contents of the user pages are as before. -/
structure Unchanged (p : Proc) (s : Ram) (p' : Proc) (s' : Ram) : Prop where
  sz : p'.sz = p.sz
  present : ∀ v < 2 ^ 20, (p'.pgdir.at v).present = (p.pgdir.at v).present
  entry : ∀ v < 2 ^ 20, (p.pgdir.at v).present = true → p'.pgdir.at v = p.pgdir.at v
  contents : ∀ v < 2 ^ 19, ∀ f, p.pgdir.look v = some f → s'.page f = s.page f

/-- `growproc` returns 0, and has done all, or −1, and has done nothing. -/
def AllOrNothing (L : Layout) (p : Proc) (s : Ram) (n : Int32) : Prop :=
  wp (growproc L p n) (fun _ => False)
    (fun r s' => (r.2 = 0 ∧ Grew n.toInt p s r.1 s') ∨ (r.2 = -1 ∧ Unchanged p s r.1 s')) s

section Specs

variable {L : Layout} {p : Proc} {s : Ram}

theorem Unchanged.refl (p : Proc) (s : Ram) : Unchanged p s p s :=
  ⟨rfl, fun _ _ => rfl, fun _ _ _ => rfl, fun _ _ _ _ => rfl⟩

namespace Proc.WellFormed

variable (h : p.WellFormed L s)

include h

theorem npages_le : npages p.sz ≤ 2 ^ 19 := Vm.npages_le h.sz_le

/-- The pages of the process are not on the free list. -/
theorem not_free {v f : ℕ} (hv : v < 2 ^ 19) (hf : p.pgdir.look v = some f) : f ∉ s.freelist :=
  fun hfree => List.disjoint_of_nodup_append h.nodup
    (PgDir.mem_frames.mpr ⟨v, Nat.zero_le v, hv, hf⟩) (List.mem_append_right _ hfree)

theorem ram_frames {v w : ℕ} (hw : w ≤ 2 ^ 19) : ∀ f ∈ p.pgdir.frames v w, L.IsRam f := by
  intro f hf
  obtain ⟨u, -, hu, hlook⟩ := PgDir.mem_frames.mp hf
  exact h.ram f
    (List.mem_append_left _ (PgDir.mem_frames.mpr ⟨u, Nat.zero_le u, by omega, hlook⟩))

theorem ram_free {f : ℕ} (hf : f ∈ s.freelist) : L.IsRam f :=
  h.ram f (List.mem_append_right _ (List.mem_append_right _ hf))

theorem nodup_rest : (p.pgdir.tables ++ s.freelist).Nodup := (List.nodup_append.mp h.nodup).2.1

theorem absent {v : ℕ} (hv : v < 2 ^ 19) (hsz : npages p.sz ≤ v) :
    (p.pgdir.at v).present = false := by
  have hnone : ¬ (p.pgdir.look v).isSome := fun hsome => by
    have hlt := (h.mapped v hv).mp hsome
    omega
  rw [PgDir.look] at hnone
  by_contra hp
  rw [Bool.not_eq_false] at hp
  exact hnone (by rw [if_pos hp]; rfl)

theorem look {v : ℕ} (hv : v < npages p.sz) : p.pgdir.look v = some (p.pgdir.at v).frame := by
  have hmax := h.npages_le
  obtain ⟨f, hf⟩ := Option.isSome_iff_exists.mp ((h.mapped v (by omega)).mpr hv)
  rw [hf, (PgDir.look_eq_some.mp hf).2]

/-- The new pages have been given. -/
theorem grew {newsz : ℕ} {n : ℤ} {d' : PgDir} {s' : Ram} (hsz : (newsz : ℤ) = p.sz + n)
    (hle : p.sz ≤ newsz) (hnew : newsz < kernbase)
    (halloc : Allocated (npages p.sz) (npages newsz) p.pgdir s d' s') :
    Grew n p s ⟨d', newsz⟩ s' := by
  have hmax := Vm.npages_le hnew.le
  have hmaxp := h.npages_le
  refine ⟨hsz, fun v hv => ?_, fun v hv hk => halloc.entry v hv (.inr (by omega)),
    fun v hv _ => ⟨?_, ?_⟩, fun v hlo hhi => ?_⟩
  · dsimp only
    by_cases hin : v < npages p.sz ∨ npages newsz ≤ v
    · rw [PgDir.look_congr (halloc.entry v (by omega) hin), h.mapped v hv]
      have hmono : npages p.sz ≤ npages newsz := by
        rw [npages, npages]
        omega
      omega
    · obtain ⟨f, -, hat, -⟩ := halloc.new v (by omega) (by omega)
      rw [PgDir.look, hat, if_pos (Pte.present_perm _ _)]
      exact iff_of_true rfl (by omega)
  · exact halloc.entry v (by omega) (.inl hv)
  · exact halloc.kept _ (h.not_free (by omega) (h.look hv))
  · obtain ⟨f, -, hat, hzero⟩ := halloc.new v hlo hhi
    dsimp only
    rw [hat]
    exact hzero

/-- Nothing has been given. -/
theorem unchanged {newsz : ℕ} {d' : PgDir} {s' : Ram} (hnew : newsz < kernbase)
    (hback : RolledBack (npages p.sz) (npages newsz) p.pgdir s d' s') :
    Unchanged p s { p with pgdir := d' } s' := by
  have hmax := Vm.npages_le hnew.le
  have hout : ∀ v < 2 ^ 20, (p.pgdir.at v).present = true → v < npages p.sz ∨ npages newsz ≤ v := by
    intro v hv hp
    by_contra hin
    rw [h.absent (by omega) (by omega)] at hp
    cases hp
  refine ⟨rfl, fun v hv => ?_, fun v hv hp => hback.entry v hv (hout v hv hp), fun v hv f hf => ?_⟩
  · by_cases hin : v < npages p.sz ∨ npages newsz ≤ v
    · exact congrArg Pte.present (hback.entry v hv hin)
    · exact (hback.absent v (by omega) (by omega)).trans (h.absent (by omega) (by omega)).symm
  · exact hback.kept f (h.not_free hv hf)

/-- The last pages have been taken. -/
theorem shrunk {newsz : ℕ} {n : ℤ} {d' : PgDir} {s' : Ram} (hsz : (newsz : ℤ) = p.sz + n)
    (hlt : newsz < p.sz) (hclear : Cleared (npages newsz) (npages p.sz) p.pgdir d')
    (hfreed : Freed (p.pgdir.frames (npages newsz) (npages p.sz)) s s') :
    Grew n p s ⟨d', newsz⟩ s' := by
  have hmax := h.npages_le
  have hmono : npages newsz ≤ npages p.sz := by
    rw [npages, npages]
    omega
  have hsame : ∀ v < 2 ^ 20, v < npages newsz ∨ npages p.sz ≤ v → d'.at v = p.pgdir.at v := by
    intro v hv hout
    rw [hclear.entry v hv, if_neg (by omega)]
  refine ⟨hsz, fun v hv => ?_, fun v hv hk => hsame v hv (.inr (by omega)),
    fun v _ hv => ⟨hsame v (by dsimp only at hv; omega) (.inl hv), ?_⟩,
    fun v hlo hhi => by dsimp only at hhi; omega⟩
  · dsimp only
    by_cases hin : npages newsz ≤ v ∧ v < npages p.sz
    · have hpresent := (PgDir.look_eq_some.mp (h.look hin.2)).1
      have hzero : d'.at v = Pte.zero := by
        rw [hclear.entry v (by omega), if_pos ⟨hin.1, hin.2, hpresent⟩]
      rw [PgDir.look, hzero]
      exact iff_of_false (by simp) (by omega)
    · rw [PgDir.look_congr (hsame v (by omega) (by omega)), h.mapped v hv]
      omega
  · -- the page is not one of those that were freed
    dsimp only at hv
    refine hfreed.kept _ fun hin => ?_
    have hnodup := (List.nodup_append.mp h.nodup).1
    rw [PgDir.frames_append _ (Nat.zero_le (npages newsz)) (by omega),
      PgDir.frames_append _ hmono hmax] at hnodup
    refine List.disjoint_of_nodup_append hnodup ?_ (List.mem_append_left _ hin)
    exact PgDir.mem_frames.mpr ⟨v, Nat.zero_le v, hv, h.look (by omega)⟩

end Proc.WellFormed

/-! ### `growproc` -/

/-- `growproc` with a positive argument. -/
theorem Proc.WellFormed.grow (h : p.WellFormed L s) {n : Int32} (hn : 0 < n.toInt) :
    AllOrNothing L p s n := by
  have hsz := h.sz_le
  have hn' := n.toInt_lt
  rw [AllOrNothing, growproc]
  rw [kernbase] at hsz
  have hnew : (((p.sz : ℤ) + n.toInt) % 2 ^ 32).toNat = p.sz + n.toInt.toNat := by omega
  dsimp only
  rw [hnew, if_pos hn]
  rcases Nat.lt_or_ge (p.sz + n.toInt.toNat) kernbase with hlt | hge
  · have habsent : ∀ u, npages p.sz ≤ u → u < npages (p.sz + n.toInt.toNat) →
        (p.pgdir.at u).present = false := by
      intro u hlo hhi
      have hmax := Vm.npages_le hlt.le
      exact h.absent (by omega) hlo
    rw [wp_bind]
    apply wp_imp (wp_allocuvm (by omega) hlt (fun f => h.ram_free) h.nodup_rest habsent)
    rintro ⟨d', sz⟩ s' (⟨rfl, halloc⟩ | ⟨rfl, hback⟩)
    · dsimp only
      rw [if_neg (by omega)]
      exact .inl ⟨rfl, h.grew (by omega) (by omega) hlt halloc⟩
    · exact .inr ⟨rfl, h.unchanged hlt hback⟩
  · rw [allocuvm, if_pos hge]
    exact .inr ⟨rfl, Unchanged.refl p s⟩

/-- `growproc` shrinks a process to a size that is not 0. -/
theorem Proc.WellFormed.shrink (h : p.WellFormed L s) {n : Int32} (hn : n.toInt < 0)
    (hpos : 0 < (p.sz : ℤ) + n.toInt) : AllOrNothing L p s n := by
  have hsz := h.sz_le
  have hmax := h.npages_le
  rw [AllOrNothing, growproc]
  obtain ⟨newsz, hnew⟩ := Int.eq_ofNat_of_zero_le hpos.le
  have hmod : (((p.sz : ℤ) + n.toInt) % 2 ^ 32).toNat = newsz := by
    rw [kernbase] at hsz
    omega
  dsimp only
  rw [hmod, if_neg (by omega), if_pos hn, wp_bind]
  apply wp_imp (wp_deallocuvm (by omega) hsz (h.ram_frames hmax) s)
  rintro ⟨d', sz⟩ s' ⟨rfl, hclear, hfreed⟩
  dsimp only at hclear ⊢
  rw [if_neg (by omega)]
  exact .inl ⟨rfl, h.shrunk hnew.symm (by omega) hclear hfreed⟩

/-- `growproc` with 0. -/
theorem Proc.WellFormed.stay (h : p.WellFormed L s) {n : Int32} (hn : n.toInt = 0) :
    AllOrNothing L p s n := by
  rw [AllOrNothing, growproc]
  dsimp only
  rw [if_neg (by omega), if_neg (by omega)]
  refine .inl ⟨rfl, by rw [hn, add_zero], h.mapped, fun _ _ _ => rfl, fun _ _ _ => ⟨rfl, rfl⟩,
    fun v hlo hhi => ?_⟩
  dsimp only at hhi
  omega

/-- A process of size 0 does not shrink. -/
theorem shrink_empty (hsz : p.sz = 0) {n : Int32} (hn : n.toInt < 0) : AllOrNothing L p s n := by
  rw [AllOrNothing, growproc]
  dsimp only
  rw [if_neg (by omega), if_pos hn, deallocuvm, if_pos (by omega), wp_bind, wp_pure, if_pos hsz]
  exact .inr ⟨rfl, Unchanged.refl p s⟩

/-- The size 0 is taken for a failure, when all pages are gone already. -/
theorem Proc.WellFormed.shrink_zero (h : p.WellFormed L s) (hpos : 0 < p.sz) {n : Int32}
    (hn : (p.sz : ℤ) + n.toInt = 0) : ¬ AllOrNothing L p s n := by
  have hsz := h.sz_le
  have hmax := h.npages_le
  have hfirst : 0 < npages p.sz := by
    rw [npages]
    omega
  intro hall
  have hgone : wp (growproc L p n) (fun _ => False)
      (fun r _ => r.2 = -1 ∧ (r.1.pgdir.at 0).present = false) s := by
    rw [growproc]
    dsimp only
    rw [hn, if_neg (by omega), if_pos (by omega), wp_bind]
    apply wp_imp (wp_deallocuvm hpos hsz (h.ram_frames hmax) s)
    rintro ⟨d', sz⟩ s' ⟨rfl, hclear, -⟩
    rw [if_pos rfl]
    refine ⟨rfl, ?_⟩
    dsimp only
    rw [hclear.entry 0 (by omega),
      if_pos ⟨le_rfl, hfirst, (PgDir.look_eq_some.mp (h.look hfirst)).1⟩]
    rfl
  obtain ⟨r, s', hrun, hend⟩ := exists_of_wp hall
  obtain ⟨hret, habsent⟩ := wp_ok hgone hrun
  rcases hend with hend | hend
  · rw [hret] at hend
    exact absurd hend.1 (by decide)
  · rw [hend.2.present 0 (by omega), (PgDir.look_eq_some.mp (h.look hfirst)).1] at habsent
    cases habsent

/-- A size below 0 is a large one, and the process stays as it is. -/
theorem Proc.WellFormed.shrink_below (h : p.WellFormed L s) (hpos : 0 < p.sz) {n : Int32}
    (hn : (p.sz : ℤ) + n.toInt < 0) : ¬ AllOrNothing L p s n := by
  have hsz := h.sz_le
  have hmin := n.le_toInt
  rw [kernbase] at hsz
  have hge : (((p.sz : ℤ) + n.toInt) % 2 ^ 32).toNat ≥ p.sz := by omega
  have hkept : wp (growproc L p n) (fun _ => False) (fun r _ => r = (p, 0)) s := by
    rw [growproc]
    dsimp only
    rw [if_neg (by omega), if_pos (by omega), deallocuvm, if_pos hge, wp_bind, wp_pure,
      if_neg hpos.ne']
    rfl
  intro hall
  obtain ⟨r, s', hrun, hend⟩ := exists_of_wp hall
  rw [wp_ok hkept hrun] at hend
  rcases hend with ⟨-, hgrew⟩ | ⟨hret, -⟩
  · have hsz' := hgrew.sz
    dsimp only at hsz'
    omega
  · cases hret

/-- **When `growproc` does all or nothing**: unless it is to shrink to size 0, or below. -/
theorem growproc_iff (L : Layout) (p : Proc) (s : Ram) (h : p.WellFormed L s) (n : Int32) :
    AllOrNothing L p s n ↔ 0 ≤ n.toInt ∨ p.sz = 0 ∨ 0 < (p.sz : ℤ) + n.toInt := by
  constructor
  · intro hall
    by_contra hno
    rw [not_or, not_or] at hno
    rcases Int.lt_trichotomy ((p.sz : ℤ) + n.toInt) 0 with hlt | heq | hgt
    · exact h.shrink_below (by omega) hlt hall
    · exact h.shrink_zero (by omega) heq hall
    · exact hno.2.2 hgt
  · intro hcond
    rcases Int.lt_trichotomy n.toInt 0 with hlt | heq | hgt
    · rcases hcond with hn | hsz | hpos
      · omega
      · exact shrink_empty hsz hlt
      · exact h.shrink hlt hpos
    · exact h.stay heq
    · exact h.grow hgt

end Specs

/-- A process with one page, and one free page. -/
theorem onePage_wellFormed :
    Proc.WellFormed smallKernel ⟨onePage, 4096⟩ ⟨[0x403], fun _ _ => 0⟩ := by
  refine ⟨by decide, fun v hv => ?_, fun f hf => ?_, ?_⟩
  · rw [Option.isSome_iff_exists]
    have hone : npages 4096 = 1 := rfl
    dsimp only
    rw [hone, Nat.lt_one_iff]
    exact ⟨fun ⟨f, hf⟩ => ((onePage_look (by omega)).mp hf).1,
      fun hzero => ⟨0x402, (onePage_look (by omega)).mpr ⟨hzero, rfl⟩⟩⟩
  · dsimp only at hf
    rw [onePage_frames (by decide) (by decide), onePage_tables] at hf
    simp only [List.mem_append, List.mem_singleton] at hf
    rcases hf with rfl | rfl | rfl <;> exact ⟨by decide, by decide⟩
  · dsimp only
    rw [onePage_frames (by decide) (by decide), onePage_tables]
    decide

theorem growproc_iff_onePage :
    AllOrNothing smallKernel ⟨onePage, 4096⟩ ⟨[0x403], fun _ _ => 0⟩ 4096 :=
  (growproc_iff smallKernel _ _ onePage_wellFormed 4096).mpr (.inl (by decide))

/-- A process gives all its memory back: −1 is returned, and the memory is gone. -/
theorem not_growproc :
    Proc.WellFormed smallKernel ⟨onePage, 4096⟩ ⟨[0x403], fun _ _ => 0⟩ ∧
      ¬ AllOrNothing smallKernel ⟨onePage, 4096⟩ ⟨[0x403], fun _ _ => 0⟩ (-4096) :=
  ⟨onePage_wellFormed, onePage_wellFormed.shrink_zero (by decide) (by decide)⟩

end Vm
end Xv6
