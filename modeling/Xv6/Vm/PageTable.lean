import Xv6.Lib.Wp

/-!
# Page tables

`kalloc.c`, and of `vm.c` the functions that walk a page table and put entries into it.
A page directory is kept as a tree: an entry of the directory is a page table, if it is
present.  The contents of the other pages are apart, by the number of the page.

## Main definitions

* `pdx`, `ptx`, `pgroundup`, … — the parts of an address.
* `Ram`, `kalloc`, `kfree` — the pages, and the free ones.
* `Pte`, `PgDir`, `PgDir.at` — page directories, and the entry for a page.
* `walkpgdir`, `mappages` — the code.
* `Grown`, `Entered` — page tables and entries have been added.

## Main results

* `PgDir.at_setEntry`, `PgDir.tables_addTable` — what the two writes change.
* `wp_walkpgdir_alloc` — a page table is added if there is none.
* `wp_mappages` — **what `mappages` does, also when memory runs out.**
-/

namespace Xv6
namespace Vm

open Prog

/-! ### Addresses -/

/-- `PGSIZE` -/
def pgsize : ℕ := 4096

/-- `KERNBASE` -/
def kernbase : ℕ := 0x80000000

/-- `EXTMEM` -/
def extmem : ℕ := 0x100000

/-- `PHYSTOP` -/
def phystop : ℕ := 0xE000000

/-- `DEVSPACE` -/
def devspace : ℕ := 0xFE000000

/-- `KERNLINK` -/
def kernlink : ℕ := kernbase + extmem

/-- `PDX` -/
def pdx (va : ℕ) : ℕ := va / 2 ^ 22 % 1024

/-- `PTX` -/
def ptx (va : ℕ) : ℕ := va / 2 ^ 12 % 1024

/-- `PGADDR` -/
def pgaddr (d t o : ℕ) : ℕ := (d <<< 22 ||| t <<< 12 ||| o) % 2 ^ 32

/-- `PGROUNDUP` -/
def pgroundup (sz : ℕ) : ℕ := (sz + (pgsize - 1)) % 2 ^ 32 / pgsize * pgsize

/-- `PGROUNDDOWN` -/
def pgrounddown (a : ℕ) : ℕ := a / pgsize * pgsize

/-- `P2V` of a page. -/
def p2v (f : ℕ) : ℕ := (f * pgsize + kernbase) % 2 ^ 32

/-- `V2P` -/
def v2p (a : ℕ) : ℕ := (a + (2 ^ 32 - kernbase)) % 2 ^ 32

/-- The number of pages that a size takes. -/
def npages (sz : ℕ) : ℕ := (sz + 4095) / 4096

theorem pdx_page (v : ℕ) : pdx (v * 4096) = v / 1024 % 1024 := by
  rw [pdx]
  omega

theorem ptx_page (v : ℕ) : ptx (v * 4096) = v % 1024 := by
  rw [ptx]
  omega

theorem pgaddr_next (d : ℕ) : pgaddr d 0 0 = d * 2 ^ 22 % 2 ^ 32 := by
  rw [pgaddr, Nat.zero_shiftLeft, Nat.or_zero, Nat.or_zero, Nat.shiftLeft_eq]

/-- Below the kernel nothing is rounded past the end. -/
theorem pgroundup_eq {sz : ℕ} (h : sz ≤ kernbase) : pgroundup sz = npages sz * 4096 := by
  rw [kernbase] at h
  rw [pgroundup, npages, pgsize, Nat.mod_eq_of_lt (by omega)]

theorem npages_page (n : ℕ) : npages (n * 4096) = n := by
  rw [npages]
  omega

theorem npages_kernbase : npages kernbase = 2 ^ 19 := by
  rw [npages, kernbase]
  norm_num

theorem npages_le {sz : ℕ} (h : sz ≤ kernbase) : npages sz ≤ 2 ^ 19 := by
  rw [kernbase] at h
  rw [npages]
  omega

/-! ### Memory -/

/-- What the linker decides: `data`, which begins a page, and the first page behind `end`. -/
structure Layout where
  data : ℕ
  kend : ℕ
  aligned : data % 4096 = 0
  kernlink_lt : kernlink < data
  data_le : data ≤ kernbase + kend * 4096
  kend_lt : kend < phystop / 4096

/-- A page that the allocator may hand out. -/
structure Layout.IsRam (L : Layout) (f : ℕ) : Prop where
  kend_le : L.kend ≤ f
  lt_phystop : f < phystop / pgsize

/-- The physical memory: `kmem.freelist`, and the bytes of each page. -/
structure Ram where
  freelist : List ℕ
  page : ℕ → ℕ → UInt8

inductive Panic
  | remap
  | kfree
  | copyuvm
  | loaduvm
  | clearpteu
  | phystop
  /-- A null pointer to a page table entry is read through. -/
  | null
  /-- A loop does not end. -/
  | diverges
  deriving DecidableEq

/-- Kernel code. -/
abbrev Kern (α : Type) := Prog Ram Panic α

/-- The bytes of a page are written as a whole. -/
def fill (f : ℕ) (bytes : ℕ → UInt8) : Kern Unit :=
  modify fun s => { s with page := Function.update s.page f bytes }

/-- `kalloc` -/
def kalloc : Kern (Option ℕ) := do
  let s ← get
  match s.freelist with
  | [] => return none
  | f :: l =>
      set { s with freelist := l }
      return some f

/-- `kfree` -/
def kfree (L : Layout) (f : ℕ) : Kern Unit :=
  if f < L.kend ∨ phystop / pgsize ≤ f then stop .kfree
  else do
    fill f fun _ => 1
    modify fun s => { s with freelist := f :: s.freelist }

/-! ### Page directories -/

/-- `PTE_P`, `PTE_W` and `PTE_U` -/
def pteP : ℕ := 1
def pteW : ℕ := 2
def pteU : ℕ := 4

/-- A page table entry: the page of `PTE_ADDR`, and `PTE_FLAGS`. -/
structure Pte where
  frame : ℕ
  flags : ℕ
  deriving DecidableEq

namespace Pte

def zero : Pte := ⟨0, 0⟩

/-- `*pte & PTE_P` -/
def present (e : Pte) : Bool := e.flags.testBit 0

/-- `*pte & PTE_U` -/
def user (e : Pte) : Bool := e.flags.testBit 2

@[simp] theorem present_zero : zero.present = false := rfl

theorem present_perm (f perm : ℕ) : (⟨f, perm ||| pteP⟩ : Pte).present = true := by
  rw [present, Nat.testBit_or]
  exact Bool.or_true _

end Pte

/-- A page table, and the page it is in. -/
structure Ptab where
  frame : ℕ
  pte : ℕ → Pte

/-- A page directory. -/
structure PgDir where
  frame : ℕ
  pde : ℕ → Option Ptab

namespace PgDir

/-- The entry for an address, where there is a page table. -/
def entry (d : PgDir) (va : ℕ) : Pte :=
  match d.pde (pdx va) with
  | some t => t.pte (ptx va)
  | none => Pte.zero

def setEntry (d : PgDir) (va : ℕ) (e : Pte) : PgDir :=
  match d.pde (pdx va) with
  | some t =>
      { d with pde := Function.update d.pde (pdx va)
                (some { t with pte := Function.update t.pte (ptx va) e }) }
  | none => d

/-- A page directory of zeros. -/
def empty (f : ℕ) : PgDir := ⟨f, fun _ => none⟩

/-- An empty page table. -/
def addTable (d : PgDir) (i f : ℕ) : PgDir :=
  { d with pde := Function.update d.pde i (some ⟨f, fun _ => Pte.zero⟩) }

/-- The entry for a page, by its number. -/
def «at» (d : PgDir) (v : ℕ) : Pte := d.entry (v * 4096)

/-- The page that a page is mapped to. -/
def look (d : PgDir) (v : ℕ) : Option ℕ :=
  if (d.at v).present then some (d.at v).frame else none

/-- The pages of the page tables. -/
def tables (d : PgDir) : List ℕ :=
  (List.range 1024).filterMap fun i => (d.pde i).map Ptab.frame

/-- The pages that the pages from `v` to `w` are mapped to. -/
def frames (d : PgDir) (v w : ℕ) : List ℕ := (List.range' v (w - v)).filterMap d.look

end PgDir

/-- `walkpgdir`: whether there is an entry for the address. -/
def walkpgdir (d : PgDir) (va : ℕ) (alloc : Bool) : Kern (PgDir × Bool) :=
  match d.pde (pdx va) with
  | some _ => return (d, true)
  | none =>
      if alloc then do
        match ← kalloc with
        | none => return (d, false)
        | some f =>
            fill f fun _ => 0
            return (d.addTable (pdx va) f, true)
      else return (d, false)

/-- More rounds than any loop over the pages takes that ends. -/
@[irreducible] def rounds : ℕ := 2 ^ 20

/-- The loop of `mappages`. -/
def mapLoop (last perm : ℕ) : ℕ → ℕ → ℕ → PgDir → Kern (PgDir × Bool)
  | 0, _, _, _ => stop .diverges
  | n + 1, a, pa, d => do
      let (d, found) ← walkpgdir d a true
      if found then
        if (d.entry a).present then stop .remap
        else
          let d := d.setEntry a ⟨pa, perm ||| pteP⟩
          if a = last then return (d, true)
          else mapLoop last perm n ((a + pgsize) % 2 ^ 32) ((pa + 1) % 2 ^ 20) d
      else return (d, false)

/-- `mappages`; `pa` is the number of a page.  The flag is whether it returns 0. -/
def mappages (d : PgDir) (va size pa perm : ℕ) : Kern (PgDir × Bool) :=
  mapLoop (pgrounddown ((va + size + (2 ^ 32 - 1)) % 2 ^ 32)) perm rounds (pgrounddown va) pa d

/-! ### Entries and page tables -/

namespace PgDir

variable {d : PgDir}

theorem at_eq (d : PgDir) (v : ℕ) : d.at v =
    match d.pde (v / 1024 % 1024) with
    | some t => t.pte (v % 1024)
    | none => Pte.zero := by
  rw [PgDir.at, entry, pdx_page, ptx_page]

theorem at_of_none {v : ℕ} (h : d.pde (v / 1024 % 1024) = none) : d.at v = Pte.zero := by
  rw [at_eq, h]

theorem look_of_none {v : ℕ} (h : d.pde (v / 1024 % 1024) = none) : d.look v = none := by
  rw [look, at_of_none h]
  rfl

@[simp] theorem at_empty (f v : ℕ) : (empty f).at v = Pte.zero := at_of_none rfl

@[simp] theorem tables_empty (f : ℕ) : (empty f).tables = [] :=
  List.filterMap_eq_nil_iff.mpr fun _ _ => rfl

theorem look_eq_some {v f : ℕ} :
    d.look v = some f ↔ (d.at v).present = true ∧ (d.at v).frame = f := by
  rw [look]
  split
  · next h => rw [Option.some.injEq, and_iff_right h]
  · next h => exact iff_of_false (by simp) fun h' => h h'.1

theorem look_congr {d d' : PgDir} {v : ℕ} (h : d'.at v = d.at v) : d'.look v = d.look v := by
  rw [look, look, h]

@[simp] theorem frame_setEntry (va : ℕ) (e : Pte) : (d.setEntry va e).frame = d.frame := by
  rw [setEntry]
  split <;> rfl

/-- **A new entry** is there for its page, and the entries for the other pages stay. -/
theorem at_setEntry {v u : ℕ} (e : Pte) (h : d.pde (v / 1024 % 1024) ≠ none) (hv : v < 2 ^ 20)
    (hu : u < 2 ^ 20) : (d.setEntry (v * 4096) e).at u = if u = v then e else d.at u := by
  obtain ⟨t, ht⟩ := Option.ne_none_iff_exists'.mp h
  rw [setEntry, pdx_page, ptx_page, ht, at_eq, at_eq]
  dsimp only
  rw [Function.update_apply]
  by_cases hslot : u / 1024 % 1024 = v / 1024 % 1024
  · rw [if_pos hslot, hslot, ht]
    dsimp only
    rw [Function.update_apply]
    exact if_congr (by omega) rfl rfl
  · rw [if_neg hslot, if_neg fun huv => hslot (by rw [huv])]

/-- An entry is put into a page table that is there. -/
theorem map_frame_setEntry (va i : ℕ) (e : Pte) :
    ((d.setEntry va e).pde i).map Ptab.frame = (d.pde i).map Ptab.frame := by
  rw [setEntry]
  split
  · next t ht =>
    dsimp only
    rw [Function.update_apply]
    split
    · next hi => rw [hi, ht]; rfl
    · rfl
  · rfl

theorem isSome_setEntry (va i : ℕ) (e : Pte) :
    ((d.setEntry va e).pde i).isSome = (d.pde i).isSome := by
  rw [← Option.isSome_map (f := Ptab.frame), map_frame_setEntry, Option.isSome_map]

@[simp] theorem tables_setEntry (va : ℕ) (e : Pte) : (d.setEntry va e).tables = d.tables := by
  rw [tables, tables]
  exact congrArg (List.filterMap · _) (funext fun i => map_frame_setEntry va i e)

/-- **An empty page table** has the entries that were missing before. -/
theorem at_addTable {i : ℕ} (h : d.pde i = none) (f v : ℕ) : (d.addTable i f).at v = d.at v := by
  rw [at_eq, at_eq, addTable]
  dsimp only
  rw [Function.update_apply]
  by_cases hi : v / 1024 % 1024 = i
  · rw [if_pos hi, hi, h]
  · rw [if_neg hi]

theorem isSome_addTable {i : ℕ} (f j : ℕ) :
    ((d.addTable i f).pde j).isSome = (decide (j = i) || (d.pde j).isSome) := by
  rw [addTable]
  dsimp only
  rw [Function.update_apply]
  split
  · next hi => rw [decide_eq_true hi]; rfl
  · next hi => rw [decide_eq_false hi]; rfl

theorem tables_addTable {i : ℕ} (hi : i < 1024) (h : d.pde i = none) (f : ℕ) :
    (d.addTable i f).tables.Perm (f :: d.tables) := by
  have hsplit : List.range 1024 = List.range i ++ i :: List.range' (i + 1) (1023 - i) := by
    rw [List.range_eq_range', show 1024 = i + (1023 - i + 1) by omega, ← List.range'_append_1,
      List.range'_succ, List.range_eq_range', Nat.zero_add]
  have hother : ∀ j, j ≠ i →
      ((d.addTable i f).pde j).map Ptab.frame = (d.pde j).map Ptab.frame := by
    intro j hj
    rw [addTable]
    dsimp only
    rw [Function.update_of_ne hj]
  have hlow : (List.range i).filterMap (fun j => ((d.addTable i f).pde j).map Ptab.frame) =
      (List.range i).filterMap fun j => (d.pde j).map Ptab.frame :=
    List.filterMap_congr fun j hj => hother j (by rw [List.mem_range] at hj; omega)
  have hhigh : (List.range' (i + 1) (1023 - i)).filterMap
        (fun j => ((d.addTable i f).pde j).map Ptab.frame) =
      (List.range' (i + 1) (1023 - i)).filterMap fun j => (d.pde j).map Ptab.frame :=
    List.filterMap_congr fun j hj => hother j (by rw [List.mem_range'_1] at hj; omega)
  have hself : ((d.addTable i f).pde i).map Ptab.frame = some f := by
    rw [addTable]
    dsimp only
    rw [Function.update_self]
    rfl
  rw [tables, tables, hsplit, List.filterMap_append, List.filterMap_append, List.filterMap_cons,
    List.filterMap_cons, hself, h, hlow, hhigh]
  exact List.perm_middle

end PgDir

/-! ### Memory -/

section Specs

variable {L : Layout} {E : Panic → Prop} {s : Ram} {d : PgDir}

theorem wp_kalloc {Q : Option ℕ → Ram → Prop} :
    wp kalloc E Q s ↔
      match s.freelist with
      | [] => Q none s
      | f :: l => Q (some f) { s with freelist := l } := by
  rw [kalloc, wp_bind, wp_get]
  split
  · simp only [wp_pure]
  · simp only [wp_bind, wp_set, wp_pure]

theorem wp_kfree {f : ℕ} (h : L.IsRam f) {Q : Unit → Ram → Prop} :
    wp (kfree L f) E Q s ↔
      Q () { freelist := f :: s.freelist, page := Function.update s.page f fun _ => 1 } := by
  rw [kfree, if_neg (by have := h.1; have := h.2; omega), wp_bind, fill, wp_modify, wp_modify]

/-! ### `walkpgdir` -/

theorem wp_walkpgdir (va : ℕ) {Q : PgDir × Bool → Ram → Prop} :
    wp (walkpgdir d va false) E Q s ↔ Q (d, (d.pde (pdx va)).isSome) s := by
  rw [walkpgdir]
  split
  · next t h => rw [wp_pure, h]; rfl
  · next h => rw [if_neg (by simp), wp_pure, h]; rfl

/-- Nothing but page tables has been added to a page directory, and their pages come from
the free list. -/
structure Grown (d : PgDir) (s : Ram) (d' : PgDir) (s' : Ram) : Prop where
  frame : d'.frame = d.frame
  isSome : ∀ i, (d.pde i).isSome → (d'.pde i).isSome
  owned : (d'.tables ++ s'.freelist).Perm (d.tables ++ s.freelist)
  free : s'.freelist <:+ s.freelist
  kept : ∀ f, f ∉ s.freelist → s'.page f = s.page f

theorem Grown.refl (d : PgDir) (s : Ram) : Grown d s d s :=
  ⟨rfl, fun _ => id, .refl _, List.suffix_rfl, fun _ _ => rfl⟩

theorem Grown.trans {d' d'' : PgDir} {s' s'' : Ram} (h : Grown d s d' s')
    (h' : Grown d' s' d'' s'') : Grown d s d'' s'' where
  frame := h'.frame.trans h.frame
  isSome i hi := h'.isSome i (h.isSome i hi)
  owned := h'.owned.trans h.owned
  free := h'.free.trans h.free
  kept f hf := (h'.kept f fun hmem => hf (h.free.subset hmem)).trans (h.kept f hf)

theorem Grown.setEntry {d' : PgDir} {s' : Ram} (h : Grown d s d' s') (va : ℕ) (e : Pte) :
    Grown d s (d'.setEntry va e) s' where
  frame := (PgDir.frame_setEntry va e).trans h.frame
  isSome i hi := by rw [PgDir.isSome_setEntry]; exact h.isSome i hi
  owned := by rw [PgDir.tables_setEntry]; exact h.owned
  free := h.free
  kept := h.kept

/-- A page table is added if there is none. -/
theorem wp_walkpgdir_alloc (va : ℕ) :
    wp (walkpgdir d va true) E (fun r s' => Grown d s r.1 s' ∧ (∀ v, r.1.at v = d.at v) ∧
      (r.2 = true → r.1.pde (pdx va) ≠ none)) s := by
  rw [walkpgdir]
  split
  · next t h =>
    rw [wp_pure]
    exact ⟨Grown.refl d s, fun _ => rfl, fun _ => by rw [h]; simp⟩
  · next h =>
    have hi : pdx va < 1024 := Nat.mod_lt _ (by decide)
    rw [if_pos rfl, wp_bind, wp_kalloc]
    split
    · exact ⟨Grown.refl d s, fun _ => rfl, fun hf => by cases hf⟩
    · next f l hfree =>
      simp only [wp_bind, fill, wp_modify, wp_pure]
      refine ⟨⟨rfl, fun i hsome => ?_, ?_, ?_, fun g hg => ?_⟩, PgDir.at_addTable h f,
        fun _ => ?_⟩
      · rw [PgDir.isSome_addTable, hsome, Bool.or_true]
      · rw [hfree]
        exact ((PgDir.tables_addTable hi h f).append_right l).trans List.perm_middle.symm
      · rw [hfree]
        exact List.suffix_cons f l
      · rw [hfree, List.mem_cons, not_or] at hg
        exact Function.update_of_ne hg.1 _ _
      · rw [PgDir.addTable]
        dsimp only
        rw [Function.update_self]
        simp

/-! ### `mappages` -/

/-- The entries after `j` pages from `v` on have been mapped. -/
def Entered (v j pa perm : ℕ) (d d' : PgDir) : Prop :=
  ∀ u < 2 ^ 20, d'.at u =
    if v ≤ u ∧ u < v + j then ⟨(pa + (u - v)) % 2 ^ 20, perm ||| pteP⟩ else d.at u

/-- **The loop of `mappages`** maps the pages in order until it has no memory for a page
table. -/
theorem wp_mapLoop (perm : ℕ) : ∀ (n k v pa : ℕ) (d : PgDir) (s : Ram), k < n → v + k < 2 ^ 20 →
    pa < 2 ^ 20 → (∀ u, v ≤ u → u ≤ v + k → (d.at u).present = false) →
    wp (mapLoop ((v + k) * 4096) perm n (v * 4096) pa d) E
      (fun r s' => Grown d s r.1 s' ∧
        ∃ j ≤ k + 1, (r.2 = true ↔ j = k + 1) ∧ Entered v j pa perm d r.1) s := by
  intro n
  induction n with
  | zero => intro k v pa d s hk; omega
  | succ n ih =>
    intro k v pa d s hk hv hpa hfree
    rw [mapLoop, wp_bind]
    apply wp_imp (wp_walkpgdir_alloc (v * 4096))
    rintro ⟨d₁, found⟩ s₁ ⟨hgrown, hat, hfound⟩
    dsimp only at hgrown hat hfound ⊢
    split
    · next hyes =>
      have hslot := hfound hyes
      rw [pdx_page] at hslot
      have hnone : (d₁.entry (v * 4096)).present = false := by
        have hv' := hfree v le_rfl (Nat.le_add_right v k)
        rw [← hat] at hv'
        exact hv'
      rw [if_neg (by rw [hnone]; simp)]
      have hset : ∀ u < 2 ^ 20, (d₁.setEntry (v * 4096) ⟨pa, perm ||| pteP⟩).at u =
          if u = v then ⟨pa, perm ||| pteP⟩ else d.at u := by
        intro u hu
        rw [PgDir.at_setEntry _ hslot (by omega) hu, hat]
      rcases Nat.eq_zero_or_pos k with rfl | hpos
      · -- this is the last page
        rw [if_pos (by rw [Nat.add_zero]), wp_pure]
        refine ⟨hgrown.setEntry _ _, 1, le_rfl, by simp, fun u hu => ?_⟩
        rw [hset u hu]
        by_cases huv : u = v
        · rw [if_pos huv, if_pos (by omega), huv, Nat.sub_self, Nat.add_zero,
            Nat.mod_eq_of_lt hpa]
        · rw [if_neg huv, if_neg (by omega)]
      · have hnext : (v * 4096 + pgsize) % 2 ^ 32 = (v + 1) * 4096 := by
          rw [pgsize, Nat.mod_eq_of_lt (by omega)]
          omega
        have hlast : (v + k) * 4096 = (v + 1 + (k - 1)) * 4096 := by
          rw [show v + 1 + (k - 1) = v + k by omega]
        rw [if_neg (by omega), hnext, hlast]
        refine wp_imp (ih (k - 1) (v + 1) ((pa + 1) % 2 ^ 20) _ s₁ (by omega) (by omega)
          (Nat.mod_lt _ (by decide)) ?_) ?_
        · intro u hlo hhi
          rw [hset u (by omega), if_neg (by omega)]
          exact hfree u (by omega) (by omega)
        · rintro ⟨d₂, ok⟩ s₂ ⟨hgrown₂, j, hj, hok, hent⟩
          refine ⟨(hgrown.setEntry _ _).trans hgrown₂, j + 1, by omega, by rw [hok]; omega,
            fun u hu => ?_⟩
          rw [hent u hu, hset u hu]
          by_cases huv : u = v
          · rw [if_neg (by omega), if_pos huv, if_pos (by omega), huv, Nat.sub_self, Nat.add_zero,
              Nat.mod_eq_of_lt hpa]
          · rw [if_neg huv]
            refine if_ctx_congr (by omega) (fun hin => ?_) fun _ => rfl
            rw [Nat.mod_add_mod, show pa + 1 + (u - (v + 1)) = pa + (u - v) by omega]
    · next hno =>
      rw [wp_pure]
      refine ⟨hgrown, 0, by omega, iff_of_false (by simp) (by omega), fun u hu => ?_⟩
      rw [if_neg (by omega)]
      exact hat u

/-- **`mappages`** of a range that does not wrap and of which no page is mapped yet.  It
returns −1 when there is no memory for a page table, with some of the pages mapped. -/
theorem wp_mappages {va size pa perm : ℕ} (hsize : 0 < size) (hend : va + size ≤ 2 ^ 32)
    (hpa : pa < 2 ^ 20)
    (hfree : ∀ u, va / 4096 ≤ u → u ≤ (va + size - 1) / 4096 → (d.at u).present = false) :
    wp (mappages d va size pa perm) E
      (fun r s' => Grown d s r.1 s' ∧ ∃ j ≤ (va + size - 1) / 4096 - va / 4096 + 1,
        (r.2 = true ↔ j = (va + size - 1) / 4096 - va / 4096 + 1) ∧
          Entered (va / 4096) j pa perm d r.1) s := by
  have hmono : va / 4096 ≤ (va + size - 1) / 4096 := Nat.div_le_div_right (by omega)
  have hlast : pgrounddown ((va + size + (2 ^ 32 - 1)) % 2 ^ 32) =
      (va / 4096 + ((va + size - 1) / 4096 - va / 4096)) * 4096 := by
    rw [pgrounddown, pgsize, Nat.add_sub_cancel' hmono,
      show va + size + (2 ^ 32 - 1) = va + size - 1 + 2 ^ 32 by omega, Nat.add_mod_right,
      Nat.mod_eq_of_lt (by omega)]
  rw [mappages, hlast]
  refine wp_mapLoop perm rounds _ (va / 4096) pa d s ?_ (by omega) hpa ?_
  · rw [rounds]
    omega
  · intro u hlo hhi
    exact hfree u hlo (by omega)

/-- A page is mapped, or not. -/
theorem wp_mappages_page {v f perm : ℕ} (hv : v < 2 ^ 20) (hf : f < 2 ^ 20)
    (hfree : (d.at v).present = false) :
    wp (mappages d (v * 4096) pgsize f perm) E
      (fun r s' => Grown d s r.1 s' ∧ ∀ u < 2 ^ 20, r.1.at u =
        if r.2 = true ∧ u = v then ⟨f, perm ||| pteP⟩ else d.at u) s := by
  have hone : (v * 4096 + pgsize - 1) / 4096 = v := by
    rw [pgsize]
    omega
  refine wp_imp (wp_mappages (by decide) (by rw [pgsize]; omega) hf ?_) ?_
  · intro u hlo hhi
    rw [hone] at hhi
    rw [show u = v by omega]
    exact hfree
  · rintro ⟨d', ok⟩ s' ⟨hgrown, j, hj, hok, hent⟩
    refine ⟨hgrown, fun u hu => ?_⟩
    rw [hone, Nat.mul_div_cancel _ (by decide)] at hok hj
    rw [hent u hu, Nat.mul_div_cancel _ (by decide)]
    dsimp only at hok ⊢
    refine if_ctx_congr ?_ (fun hin => ?_) fun _ => rfl
    · rw [hok]
      omega
    · rw [hin.2, Nat.sub_self, Nat.add_zero, Nat.mod_eq_of_lt hf]

end Specs

end Vm
end Xv6
