import Xv6.Vm.PageTable

/-!
# Taking an address space down

`deallocuvm` and `freevm` of `vm.c`.  The loop of `deallocuvm` jumps over the addresses
for which there is no page table.

* `deallocuvm`, `freevm` — the code.
* `Cleared` — the entries for a range of pages are gone, and nothing else.
* `wp_deallocLoop` — the loop frees the pages that are mapped, in order, each jump over a
  page table that is missing passing over nothing.
* `deallocuvm_frees` — **what `deallocuvm` does.**
* `wp_freevm` — `freevm` gives all pages back.
-/

namespace Xv6
namespace Vm

open Prog

/-! ### The code -/

/-- The loop of `deallocuvm`. -/
def deallocLoop (L : Layout) (oldsz : ℕ) : ℕ → ℕ → PgDir → Kern PgDir
  | 0, _, _ => stop .diverges
  | n + 1, a, d =>
      if a < oldsz then do
        let (d, found) ← walkpgdir d a false
        if found then
          if (d.entry a).present then
            if (d.entry a).frame = 0 then stop .kfree
            else
              kfree L (d.entry a).frame
              deallocLoop L oldsz n ((a + pgsize) % 2 ^ 32) (d.setEntry a Pte.zero)
          else deallocLoop L oldsz n ((a + pgsize) % 2 ^ 32) d
        else
          -- a = PGADDR(PDX(a) + 1, 0, 0) - PGSIZE, and a += PGSIZE
          let a := (pgaddr (pdx a + 1) 0 0 + (2 ^ 32 - pgsize)) % 2 ^ 32
          deallocLoop L oldsz n ((a + pgsize) % 2 ^ 32) d
      else return d

/-- `deallocuvm`, with the size that it returns. -/
def deallocuvm (L : Layout) (d : PgDir) (oldsz newsz : ℕ) : Kern (PgDir × ℕ) :=
  if newsz ≥ oldsz then return (d, oldsz)
  else do
    let d ← deallocLoop L oldsz rounds (pgroundup newsz) d
    return (d, newsz)

/-- The loop of `freevm`, which frees the page tables. -/
@[irreducible] def freeTables (L : Layout) (d : PgDir) (is : List ℕ) : Kern Unit :=
  is.forM fun i =>
    match d.pde i with
    | some t => kfree L t.frame
    | none => return ()

/-- `freevm` -/
def freevm (L : Layout) (d : PgDir) : Kern Unit := do
  let (d, _) ← deallocuvm L d kernbase 0
  freeTables L d (List.range 1024)
  kfree L d.frame

/-! ### The pages of a range -/

namespace PgDir

variable {d : PgDir} {v w : ℕ}

theorem frames_self (d : PgDir) (v : ℕ) : d.frames v v = [] := by
  rw [frames, Nat.sub_self]
  rfl

theorem frames_of_le (d : PgDir) (h : w ≤ v) : d.frames v w = [] := by
  rw [frames, Nat.sub_eq_zero_of_le h]
  rfl

/-- The first page of a range. -/
theorem frames_cons (d : PgDir) (h : v < w) :
    d.frames v w = (d.look v).toList ++ d.frames (v + 1) w := by
  rw [frames, frames, show w - v = w - (v + 1) + 1 by omega, List.range'_succ,
    List.filterMap_cons]
  cases d.look v <;> rfl

theorem frames_append (d : PgDir) {u : ℕ} (h : v ≤ u) (h' : u ≤ w) :
    d.frames v w = d.frames v u ++ d.frames u w := by
  rw [frames, frames, frames, ← List.filterMap_append]
  congr 1
  rw [show w - v = u - v + (w - u) by omega, ← List.range'_append_1, Nat.add_sub_cancel' h]

/-- A range of which no page is mapped. -/
theorem frames_eq_nil (h : ∀ u, v ≤ u → u < w → d.look u = none) : d.frames v w = [] := by
  rw [frames, List.filterMap_eq_nil_iff]
  intro u hu
  rw [List.mem_range'_1] at hu
  exact h u hu.1 (by omega)

theorem frames_congr {d' : PgDir} (h : ∀ u, v ≤ u → u < w → d'.look u = d.look u) :
    d'.frames v w = d.frames v w := by
  rw [frames, frames]
  refine List.filterMap_congr fun u hu => ?_
  rw [List.mem_range'_1] at hu
  exact h u hu.1 (by omega)

theorem mem_frames {f : ℕ} : f ∈ d.frames v w ↔ ∃ u, v ≤ u ∧ u < w ∧ d.look u = some f := by
  rw [frames, List.mem_filterMap]
  refine exists_congr fun u => ?_
  rw [List.mem_range'_1]
  constructor
  · rintro ⟨hu, hf⟩
    exact ⟨hu.1, by omega, hf⟩
  · rintro ⟨hlo, hhi, hf⟩
    exact ⟨⟨hlo, by omega⟩, hf⟩

/-- Where no page is mapped to twice, a page is known by what it is mapped to. -/
theorem look_inj (h : (d.frames 0 w).Nodup) {u u' f : ℕ} (hu : u < w) (hu' : u' < w)
    (hf : d.look u = some f) (hf' : d.look u' = some f) : u = u' := by
  have hne : ∀ x y, x < y → y < w → d.look x = some f → d.look y ≠ some f := by
    intro x y hxy hy hx hy'
    rw [frames_append d (Nat.zero_le (x + 1)) (by omega)] at h
    exact List.disjoint_of_nodup_append h (mem_frames.mpr ⟨x, Nat.zero_le x, by omega, hx⟩)
      (mem_frames.mpr ⟨y, hxy, hy, hy'⟩)
  rcases Nat.lt_trichotomy u u' with hlt | heq | hgt
  · exact absurd hf' (hne u u' hlt hu' hf)
  · exact heq
  · exact absurd hf (hne u' u hgt hu hf')

end PgDir

/-! ### `deallocuvm` -/

/-- The entries for the pages from `v` to `w` that were present are 0, the others are as they
were, and so are the page tables. -/
structure Cleared (v w : ℕ) (d d' : PgDir) : Prop where
  frame : d'.frame = d.frame
  table : ∀ i, (d'.pde i).map Ptab.frame = (d.pde i).map Ptab.frame
  entry : ∀ u < 2 ^ 20, d'.at u =
    if v ≤ u ∧ u < w ∧ (d.at u).present = true then Pte.zero else d.at u

theorem Cleared.tables {v w : ℕ} {d d' : PgDir} (h : Cleared v w d d') : d'.tables = d.tables :=
  congrArg (List.filterMap · _) (funext h.table)

/-- A range of which no page is mapped is clear. -/
theorem Cleared.refl {v w : ℕ} {d : PgDir} (h : ∀ u, v ≤ u → u < w → d.look u = none) :
    Cleared v w d d := by
  refine ⟨rfl, fun _ => rfl, fun u _ => ?_⟩
  split
  · next hu =>
    have hnone := h u hu.1 hu.2.1
    rw [PgDir.look, if_pos hu.2.2] at hnone
    cases hnone
  · rfl

/-- Clear entries, and then those of the pages that follow. -/
theorem Cleared.trans {v u w : ℕ} {d d' d'' : PgDir} (h : Cleared v u d d')
    (h' : Cleared u w d' d'') (hvu : v ≤ u) (huw : u ≤ w) : Cleared v w d d'' where
  frame := h'.frame.trans h.frame
  table i := (h'.table i).trans (h.table i)
  entry x hx := by
    rw [h'.entry x hx, h.entry x hx]
    by_cases hlo : v ≤ x ∧ x < u ∧ (d.at x).present = true
    · rw [if_pos hlo, if_neg (by omega), if_pos ⟨hlo.1, by omega, hlo.2.2⟩]
    · rw [if_neg hlo]
      refine if_congr ?_ rfl rfl
      constructor
      · rintro ⟨hu, hw, hp⟩
        exact ⟨by omega, hw, hp⟩
      · rintro ⟨hv, hw, hp⟩
        refine ⟨?_, hw, hp⟩
        by_contra hlt
        exact hlo ⟨hv, by omega, hp⟩

/-- From `s` to `s'` the pages `fs` were freed, one after the other. -/
structure Freed (fs : List ℕ) (s s' : Ram) : Prop where
  free : s'.freelist = fs.reverse ++ s.freelist
  kept : ∀ f, f ∉ fs → s'.page f = s.page f

theorem Freed.nil (s : Ram) : Freed [] s s := ⟨rfl, fun _ _ => rfl⟩

theorem Freed.trans {fs fs' : List ℕ} {s s' s'' : Ram} (h : Freed fs s s')
    (h' : Freed fs' s' s'') : Freed (fs ++ fs') s s'' where
  free := by rw [h'.free, h.free, List.reverse_append, List.append_assoc]
  kept f hf := by
    rw [List.mem_append, not_or] at hf
    rw [h'.kept f hf.2, h.kept f hf.1]

section Specs

variable {L : Layout} {E : Panic → Prop}

theorem Layout.IsRam.pos {f : ℕ} (h : L.IsRam f) : f ≠ 0 := by
  have hdata := L.kernlink_lt
  have hkend := L.data_le
  have hram := h.1
  rw [kernlink, extmem, kernbase] at hdata
  rw [kernbase] at hkend
  omega

theorem wp_kfree_freed {f : ℕ} (h : L.IsRam f) (s : Ram) :
    wp (kfree L f) E (fun _ s' => Freed [f] s s') s := by
  rw [wp_kfree h]
  refine ⟨rfl, fun g hg => ?_⟩
  exact Function.update_of_ne (fun heq => hg (List.mem_singleton.mpr heq)) _ _

/-- The jump to the next page table. -/
theorem skip_eq {v : ℕ} (hv : v < 2 ^ 19) :
    ((pgaddr (v / 1024 % 1024 + 1) 0 0 + (2 ^ 32 - pgsize)) % 2 ^ 32 + pgsize) % 2 ^ 32 =
      (v / 1024 + 1) * 1024 * 4096 := by
  rw [pgaddr_next, pgsize]
  omega

/-- **The loop of `deallocuvm`** frees the pages that are mapped, in order. -/
theorem wp_deallocLoop {oldsz : ℕ} (hold : oldsz ≤ kernbase) : ∀ (n v : ℕ) (d : PgDir) (s : Ram),
    npages oldsz - v < n → (∀ f ∈ d.frames v (npages oldsz), L.IsRam f) →
    wp (deallocLoop L oldsz n (v * 4096) d) E
      (fun d' s' => Cleared v (npages oldsz) d d' ∧ Freed (d.frames v (npages oldsz)) s s') s := by
  have hmax := npages_le hold
  intro n
  induction n with
  | zero => intro v d s hn; omega
  | succ n ih =>
    intro v d s hn hram
    rw [deallocLoop]
    by_cases hv : v < npages oldsz
    · have hnext : (v * 4096 + pgsize) % 2 ^ 32 = (v + 1) * 4096 := by
        rw [pgsize]
        omega
      rw [if_pos (by rw [npages] at hv; omega), wp_bind, wp_walkpgdir, pdx_page]
      dsimp only
      rw [show d.entry (v * 4096) = d.at v from rfl, d.frames_cons hv]
      rw [d.frames_cons hv] at hram
      split
      · next hfound =>
        rw [hnext]
        split
        · next hpresent =>
          -- the page is freed, and its entry cleared
          have hlook : d.look v = some (d.at v).frame := if_pos hpresent
          have hf : L.IsRam (d.at v).frame := hram _ (by rw [hlook]; simp)
          have hslot : d.pde (v / 1024 % 1024) ≠ none := Option.isSome_iff_ne_none.mp hfound
          have hset : ∀ u < 2 ^ 20, (d.setEntry (v * 4096) Pte.zero).at u =
              if u = v then Pte.zero else d.at u := fun u hu =>
            PgDir.at_setEntry _ hslot (by omega) hu
          have hrest : (d.setEntry (v * 4096) Pte.zero).frames (v + 1) (npages oldsz) =
              d.frames (v + 1) (npages oldsz) := by
            refine PgDir.frames_congr fun u hlo hhi => PgDir.look_congr ?_
            rw [hset u (by omega), if_neg (by omega)]
          have hfirst : Cleared v (v + 1) d (d.setEntry (v * 4096) Pte.zero) := by
            refine ⟨PgDir.frame_setEntry _ _, fun i => PgDir.map_frame_setEntry _ _ _,
              fun u hu => ?_⟩
            rw [hset u hu]
            by_cases huv : u = v
            · rw [if_pos huv, if_pos ⟨by omega, by omega, by rw [huv]; exact hpresent⟩]
            · rw [if_neg huv, if_neg (by omega)]
          rw [if_neg hf.pos, wp_bind]
          refine wp_imp (wp_kfree_freed hf s) fun _ s₁ hfreed => ?_
          refine wp_imp (ih (v + 1) _ s₁ (by omega) ?_) fun d' s' h => ?_
          · rw [hrest]
            exact fun f hmem => hram f (List.mem_append_right _ hmem)
          · refine ⟨hfirst.trans h.1 (by omega) (by omega), ?_⟩
            rw [hrest] at h
            rw [hlook]
            exact hfreed.trans h.2
        · next habsent =>
          have hlook : d.look v = none := if_neg habsent
          refine wp_imp (ih (v + 1) d s (by omega) ?_) fun d' s' h => ?_
          · exact fun f hmem => hram f (List.mem_append_right _ hmem)
          · have hfirst : Cleared v (v + 1) d d := Cleared.refl fun u hlo hhi => by
              rw [show u = v by omega]
              exact hlook
            rw [hlook]
            exact ⟨hfirst.trans h.1 (by omega) (by omega), h.2⟩
      · next hmissing =>
        -- no page of this page table is mapped
        have hslot : d.pde (v / 1024 % 1024) = none := by simpa using hmissing
        have hnone : ∀ u, v ≤ u → u < (v / 1024 + 1) * 1024 → d.look u = none := by
          intro u hlo hhi
          refine PgDir.look_of_none ?_
          rw [show u / 1024 % 1024 = v / 1024 % 1024 by omega]
          exact hslot
        rw [skip_eq (by omega), ← d.frames_cons hv]
        rw [← d.frames_cons hv] at hram
        rcases Nat.lt_or_ge ((v / 1024 + 1) * 1024) (npages oldsz) with hlt | hge
        · have hframes : d.frames v (npages oldsz) =
              d.frames ((v / 1024 + 1) * 1024) (npages oldsz) := by
            rw [d.frames_append (by omega : v ≤ (v / 1024 + 1) * 1024) hlt.le,
              PgDir.frames_eq_nil hnone]
            rfl
          rw [hframes] at hram ⊢
          refine wp_imp (ih _ d s (by omega) hram) fun d' s' h => ?_
          exact ⟨(Cleared.refl hnone).trans h.1 (by omega) hlt.le, h.2⟩
        · have hnone' : ∀ u, v ≤ u → u < npages oldsz → d.look u = none :=
            fun u hlo hhi => hnone u hlo (by omega)
          refine wp_imp (ih _ d s (by omega) ?_) fun d' s' h => ?_
          · rw [PgDir.frames_of_le _ hge]
            simp
          · have hend : Cleared (npages oldsz) (npages oldsz) d d' := by
              refine ⟨h.1.frame, h.1.table, fun u hu => ?_⟩
              rw [h.1.entry u hu, if_neg (by omega), if_neg (by omega)]
            rw [PgDir.frames_eq_nil hnone']
            rw [PgDir.frames_of_le _ hge] at h
            exact ⟨(Cleared.refl hnone').trans hend hv.le le_rfl, h.2⟩
    · rw [if_neg (by rw [npages] at hv; omega), wp_pure, PgDir.frames_of_le _ (by omega)]
      exact ⟨Cleared.refl fun u hlo hhi => by omega, Freed.nil s⟩

theorem wp_deallocuvm {d : PgDir} {oldsz newsz : ℕ} (hlt : newsz < oldsz) (hold : oldsz ≤ kernbase)
    (hram : ∀ f ∈ d.frames (npages newsz) (npages oldsz), L.IsRam f) (s : Ram) :
    wp (deallocuvm L d oldsz newsz) E
      (fun r s' => r.2 = newsz ∧ Cleared (npages newsz) (npages oldsz) d r.1 ∧
        Freed (d.frames (npages newsz) (npages oldsz)) s s') s := by
  have hmax := npages_le hold
  rw [deallocuvm, if_neg (by omega), pgroundup_eq (by omega), wp_bind]
  refine wp_imp (wp_deallocLoop hold rounds (npages newsz) d s ?_ hram) fun d' s' h => ?_
  · rw [rounds]
    omega
  · exact ⟨rfl, h⟩

/-- Distinct pages are mapped to distinct pages. -/
theorem PgDir.nodup_frames {d : PgDir} {v w : ℕ}
    (h : ∀ u < w, ∀ u' < w, ∀ f, d.look u = some f → d.look u' = some f → u = u') :
    (d.frames v w).Nodup := by
  rw [frames, List.Nodup, List.pairwise_filterMap]
  refine (List.nodup_range' (s := v) (n := w - v)).imp_of_mem ?_
  rintro u u' hu hu' hne f hf f' hf' rfl
  rw [List.mem_range'_1] at hu hu'
  exact hne (h u (by omega) u' (by omega) f hf hf')

/-- **`deallocuvm`.**  Let the user pages of a page directory be distinct pages of the
allocator, with any page tables missing.  Then shrinking ends and returns the new size; it has
freed exactly the pages that were mapped from `PGROUNDUP(newsz)` to `oldsz`, each once, and
cleared their entries, and every other entry and page is as it was. -/
theorem deallocuvm_frees (L : Layout) (d : PgDir) (s : Ram) {oldsz newsz : ℕ} (hlt : newsz < oldsz)
    (hold : oldsz ≤ kernbase) (hram : ∀ v < 2 ^ 19, ∀ f, d.look v = some f → L.IsRam f)
    (hdistinct : ∀ v < 2 ^ 19, ∀ w < 2 ^ 19, ∀ f, d.look v = some f → d.look w = some f → v = w) :
    ∃ d' s', deallocuvm L d oldsz newsz s = .ok ((d', newsz), s') ∧
      Cleared (npages newsz) (npages oldsz) d d' ∧
      (d.frames (npages newsz) (npages oldsz)).Nodup ∧
      Freed (d.frames (npages newsz) (npages oldsz)) s s' := by
  have hmax := npages_le hold
  have hrange : ∀ f ∈ d.frames (npages newsz) (npages oldsz), L.IsRam f := by
    intro f hf
    obtain ⟨v, -, hv, hlook⟩ := PgDir.mem_frames.mp hf
    exact hram v (by omega) f hlook
  obtain ⟨⟨d', sz⟩, s', hrun, rfl, hclear, hfreed⟩ :=
    exists_of_wp (wp_deallocuvm hlt hold hrange s)
  refine ⟨d', s', hrun, hclear, PgDir.nodup_frames fun u hu u' hu' => ?_, hfreed⟩
  exact hdistinct u (by omega) u' (by omega)

/-- A kernel that ends at 4 MB. -/
def smallKernel : Layout where
  data := kernlink + pgsize
  kend := 0x400
  aligned := by decide
  kernlink_lt := by decide
  data_le := by decide
  kend_lt := by decide

theorem smallKernel_isRam {f : ℕ} (hlo : 0x400 ≤ f) (hhi : f < 0xe000) : smallKernel.IsRam f :=
  ⟨hlo, hhi⟩

/-- A page directory with one user page. -/
def onePage : PgDir :=
  ((PgDir.empty 0x400).addTable 0 0x401).setEntry 0 ⟨0x402, pteW ||| pteU ||| pteP⟩

theorem onePage_at {v : ℕ} (hv : v < 2 ^ 20) :
    onePage.at v = if v = 0 then ⟨0x402, pteW ||| pteU ||| pteP⟩ else Pte.zero := by
  have hslot : ((PgDir.empty 0x400).addTable 0 0x401).pde (0 / 1024 % 1024) ≠ none := by
    simp [PgDir.addTable]
  have hset := PgDir.at_setEntry ⟨0x402, pteW ||| pteU ||| pteP⟩ hslot (by decide) hv
  rw [Nat.zero_mul] at hset
  rw [onePage, hset, PgDir.at_addTable rfl, PgDir.at_empty]

theorem onePage_look {v f : ℕ} (hv : v < 2 ^ 20) :
    onePage.look v = some f ↔ v = 0 ∧ f = 0x402 := by
  rw [PgDir.look_eq_some, onePage_at hv]
  split
  · next h => simp [h, eq_comm, Pte.present_perm]
  · next h => simp [h]

theorem onePage_frames {w : ℕ} (hpos : 0 < w) (hw : w ≤ 2 ^ 20) :
    onePage.frames 0 w = [0x402] := by
  rw [PgDir.frames_cons _ hpos, (onePage_look (by decide)).mpr ⟨rfl, rfl⟩,
    PgDir.frames_eq_nil fun u hlo hhi => ?_]
  · rfl
  · rw [Option.eq_none_iff_forall_ne_some]
    intro f hf
    have hzero := ((onePage_look (by omega)).mp hf).1
    omega

theorem onePage_tables : onePage.tables = [0x401] := by
  rw [onePage, PgDir.tables_setEntry, ← List.perm_singleton]
  refine (PgDir.tables_addTable (by decide) rfl 0x401).trans ?_
  rw [PgDir.tables_empty]

theorem deallocuvm_frees_onePage :
    ∃ d' s', deallocuvm smallKernel onePage 4096 0 ⟨[], fun _ _ => 0⟩ = .ok ((d', 0), s') ∧
      Cleared (npages 0) (npages 4096) onePage d' ∧
      (onePage.frames (npages 0) (npages 4096)).Nodup ∧
      Freed (onePage.frames (npages 0) (npages 4096)) ⟨[], fun _ _ => 0⟩ s' := by
  refine deallocuvm_frees smallKernel onePage _ (by decide) (by decide) (fun v hv f hf => ?_)
    fun v hv w hw f hf hf' => ?_
  · rw [((onePage_look (by omega)).mp hf).2]
    exact ⟨by decide, by decide⟩
  · rw [((onePage_look (by omega)).mp hf).1, ((onePage_look (by omega)).mp hf').1]

/-! ### `freevm` -/

theorem wp_freeTables {d : PgDir} (is : List ℕ)
    (hram : ∀ f ∈ is.filterMap fun i => (d.pde i).map Ptab.frame, L.IsRam f) (s : Ram) :
    wp (freeTables L d is) E
      (fun _ s' => Freed (is.filterMap fun i => (d.pde i).map Ptab.frame) s s') s := by
  rw [freeTables]
  refine wp_forM (fun done s' => Freed (done.filterMap fun i => (d.pde i).map Ptab.frame) s s') is
    (Freed.nil s) ?_
  intro done i rest his s₁ hfreed
  rw [List.filterMap_append]
  cases hi : d.pde i with
  | none =>
    simp only [wp_pure, List.filterMap_cons, List.filterMap_nil, hi, Option.map_none,
      List.append_nil]
    exact hfreed
  | some t =>
    have hf : L.IsRam t.frame := by
      refine hram _ (List.mem_filterMap.mpr ⟨i, ?_, by rw [hi]; rfl⟩)
      rw [his]
      simp
    simp only [List.filterMap_cons, List.filterMap_nil, hi, Option.map_some]
    exact wp_imp (wp_kfree_freed hf s₁) fun _ s' h => hfreed.trans h

/-- The pages of an address space: the user pages, the page tables and the page directory. -/
def PgDir.pages (d : PgDir) : List ℕ := d.frames 0 (2 ^ 19) ++ d.tables ++ [d.frame]

theorem mem_onePage_pages {f : ℕ} (hf : f ∈ onePage.pages) : 0x400 ≤ f ∧ f < 0x403 := by
  have hframe : onePage.frame = 0x400 := PgDir.frame_setEntry _ _
  rw [PgDir.pages, onePage_frames (by decide) (by decide), onePage_tables, hframe] at hf
  simp only [List.mem_append, List.mem_singleton] at hf
  omega

/-- **`freevm`** frees the pages of an address space. -/
theorem wp_freevm {d : PgDir} (hram : ∀ f ∈ d.pages, L.IsRam f) (s : Ram) :
    wp (freevm L d) E (fun _ s' => Freed d.pages s s') s := by
  rw [PgDir.pages] at hram ⊢
  have hzero : npages 0 = 0 := rfl
  have hpos : 0 < kernbase := by decide
  have hramp : ∀ f ∈ d.frames (npages 0) (npages kernbase), L.IsRam f := by
    intro f hf
    rw [npages_kernbase, hzero] at hf
    exact hram f (List.mem_append_left _ (List.mem_append_left _ hf))
  rw [freevm, wp_bind]
  refine wp_imp (wp_deallocuvm hpos le_rfl hramp s) fun r s₁ h => ?_
  have hclear := h.2.1
  have hfreed := h.2.2
  rw [npages_kernbase, hzero] at hfreed
  have hframe := hclear.frame
  have htables : (List.range 1024).filterMap (fun i => (r.1.pde i).map Ptab.frame) = d.tables := by
    rw [← hclear.tables, PgDir.tables]
  obtain ⟨d', sz⟩ := r
  have hramt : ∀ f ∈ (List.range 1024).filterMap fun i => (d'.pde i).map Ptab.frame,
      L.IsRam f := by
    intro f hf
    rw [htables] at hf
    exact hram f (List.mem_append_left _ (List.mem_append_right _ hf))
  have hdir : L.IsRam d'.frame := by
    rw [hframe]
    exact hram _ (List.mem_append_right _ (List.mem_singleton_self _))
  show wp (freeTables L d' (List.range 1024) >>= fun _ => kfree L d'.frame) _ _ _
  rw [wp_bind]
  refine wp_imp (wp_freeTables (List.range 1024) hramt s₁) fun _ s₂ hfreed₂ => ?_
  refine wp_imp (wp_kfree_freed hdir s₂) fun _ s₃ hfreed₃ => ?_
  have hall := (hfreed.trans hfreed₂).trans hfreed₃
  rw [hframe, htables] at hall
  exact hall

end Specs

end Vm
end Xv6
