import Xv6.Lib.Memory
import Xv6.Vm.PageTable

/-!
# Page tables in memory

`walkpgdir` and `mappages` of `vm.c` once more, on the words of the pages that the page directory
and its page tables are in.  The page directories that the other modules speak of are trees; here
is what they stand for.

* `Words.walkpgdir`, `Words.mappages` — the code, on words.
* `tree`, `Held` — the tree that the words hold, and that its pages are apart.
* `Held.setEntry`, `Held.addTable` — the two writes do to the tree what they are meant to.
* `wp_walkpgdir_held`, `wp_mappages_held` — **what holds of the trees holds of the words.**
* `mappages_words` — **what `mappages` does to the words**, also when memory runs out.
-/

namespace Xv6
namespace Vm

open Prog

/-! ### Words -/

/-- `PTE_ADDR` -/
def pteAddr (w : ℕ) : ℕ := w / pgsize * pgsize

/-- `PTE_FLAGS` -/
def pteFlags (w : ℕ) : ℕ := w % pgsize

/-- The entry that a word holds. -/
def Pte.ofWord (w : ℕ) : Pte := ⟨w / pgsize, w % pgsize⟩

/-- The word `i` of the page `f`. -/
def Ram.word (s : Ram) (f i : ℕ) : ℕ := Bytes.word (s.page f) (4 * i)

def Ram.setWord (s : Ram) (f i w : ℕ) : Ram :=
  { s with page := Function.update s.page f (Bytes.setWord (s.page f) (4 * i) w) }

namespace Words

/-! ### The code -/

/-- `walkpgdir`: the page of the page table and the number of the entry.  The page directory is
the page `pgdir`. -/
def walkpgdir (pgdir va : ℕ) (alloc : Bool) : Kern (Option (ℕ × ℕ)) := do
  let s ← get
  let pde := s.word pgdir (pdx va)
  if pde.testBit 0 then return some (pteAddr pde / pgsize, ptx va)
  else if alloc then do
    match ← kalloc with
    | none => return none
    | some pgtab =>
        fill pgtab fun _ => 0
        modify fun s => s.setWord pgdir (pdx va) (pgtab * pgsize ||| pteP ||| pteW ||| pteU)
        return some (pgtab, ptx va)
  else return none

/-- The loop of `mappages`. -/
def mapLoop (pgdir last perm : ℕ) : ℕ → ℕ → ℕ → Kern ℤ
  | 0, _, _ => stop .diverges
  | n + 1, a, pa => do
      match ← walkpgdir pgdir a true with
      | none => return -1
      | some (f, i) =>
          let s ← get
          if (s.word f i).testBit 0 then stop .remap
          else do
            modify fun s => s.setWord f i (pa ||| perm ||| pteP)
            if a = last then return 0
            else mapLoop pgdir last perm n ((a + pgsize) % 2 ^ 32) ((pa + pgsize) % 2 ^ 32)

/-- `mappages` -/
def mappages (pgdir va size pa perm : ℕ) : Kern ℤ :=
  mapLoop pgdir (pgrounddown ((va + size + (2 ^ 32 - 1)) % 2 ^ 32)) perm rounds (pgrounddown va) pa

end Words

/-! ### The tree that is held -/

/-- The tree that the words of a page directory and its page tables hold. -/
def tree (s : Ram) (pgdir : ℕ) : PgDir where
  frame := pgdir
  pde i :=
    if i < 1024 ∧ (s.word pgdir i).testBit 0 = true then
      some ⟨s.word pgdir i / pgsize, fun x => Pte.ofWord (s.word (s.word pgdir i / pgsize) x)⟩
    else none

/-- The page directory, its page tables and the free pages are different pages of memory. -/
structure Apart (s : Ram) (pgdir : ℕ) : Prop where
  nodup : (pgdir :: ((tree s pgdir).tables ++ s.freelist)).Nodup
  free_lt : ∀ f ∈ s.freelist, f < 2 ^ 20

/-- The words of `s` hold the tree `d`, and but for the pages of the tree the memory is `s₁`. -/
structure Held (pgdir : ℕ) (s : Ram) (d : PgDir) (s₁ : Ram) : Prop extends Apart s pgdir where
  tree_eq : tree s pgdir = d
  free : s₁.freelist = s.freelist
  page : ∀ f, f ≠ pgdir → f ∉ d.tables → s₁.page f = s.page f

section Held

variable {s s₁ : Ram} {d : PgDir} {pgdir f i w x : ℕ}

theorem word_setWord (hw : w < 2 ^ 32) (s : Ram) (f i g x : ℕ) :
    (s.setWord f i w).word g x = if g = f ∧ x = i then w else s.word g x := by
  rw [Ram.word, Ram.setWord]
  dsimp only
  rw [Function.update_apply]
  by_cases hg : g = f
  · rw [if_pos hg, hg]
    by_cases hx : x = i
    · rw [if_pos ⟨rfl, hx⟩, hx, Bytes.word_setWord_self hw]
    · rw [if_neg fun h => hx h.2, Bytes.word_setWord_of_disjoint (by omega), Ram.word]
  · rw [if_neg hg, if_neg fun h => hg h.1, Ram.word]

/-- An address of a page, and flags. -/
theorem or_flags {n flags : ℕ} (hflags : flags < pgsize) :
    n * pgsize ||| flags = n * pgsize + flags := by
  rw [show n * pgsize = n <<< 12 from (Nat.shiftLeft_eq n 12).symm,
    Nat.shiftLeft_add_eq_or_of_lt (show flags < 2 ^ 12 from hflags)]

theorem ofWord_or {n flags : ℕ} (hflags : flags < pgsize) :
    Pte.ofWord (n * pgsize ||| flags) = ⟨n, flags⟩ := by
  rw [or_flags hflags, Pte.ofWord]
  rw [pgsize] at hflags ⊢
  congr 1 <;> omega

theorem present_ofWord (w : ℕ) : (Pte.ofWord w).present = w.testBit 0 := by
  rw [Pte.present, Pte.ofWord]
  dsimp only
  rw [show pgsize = 2 ^ 12 from rfl, Nat.testBit_mod_two_pow]
  simp

/-- An entry of the directory that is present. -/
theorem pde_tree (hi : i < 1024) :
    (tree s pgdir).pde i = if (s.word pgdir i).testBit 0 = true then
      some ⟨s.word pgdir i / pgsize, fun x => Pte.ofWord (s.word (s.word pgdir i / pgsize) x)⟩
      else none := by
  rw [tree]
  exact if_congr (and_iff_right hi) rfl rfl

theorem mem_tables {t : Ptab} (hi : i < 1024) (ht : d.pde i = some t) : t.frame ∈ d.tables :=
  List.mem_filterMap.mpr ⟨i, List.mem_range.mpr hi, by rw [ht]; rfl⟩

/-- Two page tables in one page are one. -/
theorem pde_inj {j : ℕ} {t u : Ptab} (h : d.tables.Nodup) (hi : i < 1024) (hj : j < 1024)
    (ht : d.pde i = some t) (hu : d.pde j = some u) (hframe : t.frame = u.frame) : i = j := by
  rw [PgDir.tables, List.Nodup, List.pairwise_filterMap] at h
  by_contra hne
  have : Std.Symm fun i j => ∀ f, (d.pde i).map Ptab.frame = some f →
      ∀ g, (d.pde j).map Ptab.frame = some g → f ≠ g :=
    ⟨fun i j hij f hf g hg => (hij g hg f hf).symm⟩
  exact h.forall (List.mem_range.mpr hi) (List.mem_range.mpr hj) hne t.frame (by rw [ht]; rfl)
    u.frame (by rw [hu]; rfl) hframe

theorem Held.nodup_tree (h : Held pgdir s d s₁) :
    (pgdir :: (d.tables ++ s.freelist)).Nodup := by
  rw [← h.tree_eq]
  exact h.nodup

theorem Held.frame_ne (h : Held pgdir s d s₁) {t : Ptab} (hi : i < 1024) (ht : d.pde i = some t) :
    t.frame ≠ pgdir := by
  rintro hframe
  refine (List.nodup_cons.mp h.nodup_tree).1 (List.mem_append_left _ ?_)
  rw [← hframe]
  exact mem_tables hi ht

theorem Held.frame_eq (h : Held pgdir s d s₁) : d.frame = pgdir := by
  rw [← h.tree_eq]
  rfl

/-- The page table that an entry of the directory stands for. -/
theorem Held.pde_eq (h : Held pgdir s d s₁) (i : ℕ) :
    d.pde i = if i < 1024 ∧ (s.word pgdir i).testBit 0 = true then
      some ⟨s.word pgdir i / pgsize, fun x => Pte.ofWord (s.word (s.word pgdir i / pgsize) x)⟩
      else none := by
  rw [← h.tree_eq]
  rfl

/-- The words that a page table is made of. -/
theorem Held.table (h : Held pgdir s d s₁) {t : Ptab} (hi : i < 1024) (ht : d.pde i = some t) :
    (s.word pgdir i).testBit 0 = true ∧ s.word pgdir i / pgsize = t.frame ∧
      ∀ x, Pte.ofWord (s.word t.frame x) = t.pte x := by
  rw [← h.tree_eq, pde_tree hi] at ht
  split at ht
  · next hpresent =>
    rw [Option.some.injEq] at ht
    subst ht
    exact ⟨hpresent, rfl, fun _ => rfl⟩
  · cases ht

theorem Held.absent (h : Held pgdir s d s₁) (hi : i < 1024) (hnone : d.pde i = none) :
    (s.word pgdir i).testBit 0 = false := by
  rw [← h.tree_eq, pde_tree hi] at hnone
  split at hnone
  · cases hnone
  · next habsent => exact Bool.not_eq_true _ ▸ habsent

theorem pdx_lt (va : ℕ) : pdx va < 1024 := Nat.mod_lt _ (by norm_num)

/-- The tree after a word of a page table has been written. -/
theorem Held.tree_setEntry (h : Held pgdir s d s₁) {va : ℕ} {t : Ptab}
    (ht : d.pde (pdx va) = some t) (hw : w < 2 ^ 32) :
    tree (s.setWord t.frame (ptx va) w) pgdir = d.setEntry va (Pte.ofWord w) := by
  have hi := pdx_lt va
  have hdir : ∀ i, (s.setWord t.frame (ptx va) w).word pgdir i = s.word pgdir i := fun i => by
    rw [word_setWord hw, if_neg fun hin => h.frame_ne hi ht hin.1.symm]
  rw [PgDir.setEntry, ht, tree]
  dsimp only
  rw [h.frame_eq]
  congr 1
  funext j
  rw [Function.update_apply, hdir]
  have hj := h.pde_eq j
  split
  · next hpresent =>
    rw [if_pos hpresent] at hj
    -- the page that is written is that of no other page table
    have hframe : s.word pgdir j / pgsize = t.frame ↔ j = pdx va := by
      constructor
      · intro heq
        have hnodup := (List.nodup_append.mp (List.nodup_cons.mp h.nodup_tree).2).1
        exact pde_inj hnodup hpresent.1 hi hj ht heq
      · rintro rfl
        exact (h.table hi ht).2.1
    by_cases hjva : j = pdx va
    · rw [if_pos hjva, Option.some.injEq, hframe.mpr hjva]
      congr 1
      funext x
      rw [word_setWord hw, Function.update_apply]
      by_cases hx : x = ptx va
      · rw [if_pos ⟨rfl, hx⟩, if_pos hx]
      · rw [if_neg fun hin => hx hin.2, if_neg hx]
        exact (h.table hi ht).2.2 x
    · rw [if_neg hjva, hj, Option.some.injEq]
      congr 1
      funext x
      rw [word_setWord hw, if_neg fun hin => hjva (hframe.mp hin.1)]
  · next habsent =>
    rw [if_neg habsent] at hj
    rw [if_neg, hj]
    rintro rfl
    rw [ht] at hj
    cases hj

/-- **An entry of a page table is written.** -/
theorem Held.setEntry (h : Held pgdir s d s₁) {va : ℕ} {t : Ptab} (ht : d.pde (pdx va) = some t)
    (hw : w < 2 ^ 32) :
    Held pgdir (s.setWord t.frame (ptx va) w) (d.setEntry va (Pte.ofWord w)) s₁ := by
  have hi := pdx_lt va
  have htree := h.tree_setEntry ht hw
  refine ⟨⟨?_, h.free_lt⟩, htree, h.free, fun f hf hout => ?_⟩
  · rw [htree, PgDir.tables_setEntry]
    exact h.nodup_tree
  · rw [PgDir.tables_setEntry] at hout
    have hne : f ≠ t.frame := fun heq => hout (by rw [heq]; exact mem_tables hi ht)
    rw [h.page f hf hout, Ram.setWord]
    exact (Function.update_of_ne hne _ _).symm

/-- The bytes of an empty page are words that are zero. -/
theorem word_zero (i : ℕ) : Bytes.word (fun _ => 0) i = 0 := rfl

/-- The word of a new page table. -/
theorem word_newTable (f : ℕ) : f * pgsize ||| pteP ||| pteW ||| pteU = f * pgsize + 7 := by
  rw [Nat.or_assoc, Nat.or_assoc]
  exact or_flags (by decide)

/-- The tree after a page of zeros has been entered as a page table. -/
theorem Held.tree_addTable (h : Held pgdir s d s₁) {s' : Ram} {f : ℕ} (hi : i < 1024)
    (hdir : f ≠ pgdir) (hfresh : f ∉ d.tables) (hself : s'.word pgdir i = f * pgsize + 7)
    (hnew : ∀ x, s'.word f x = 0)
    (hother : ∀ g x, g ≠ f → ¬ (g = pgdir ∧ x = i) → s'.word g x = s.word g x) :
    tree s' pgdir = d.addTable i f := by
  rw [PgDir.addTable, tree, h.frame_eq]
  congr 1
  funext j
  rw [Function.update_apply]
  by_cases hj : j = i
  · have hpresent : (f * pgsize + 7).testBit 0 = true := by
      rw [Nat.testBit_zero, pgsize]
      simp
      omega
    rw [if_pos hj, hj, hself, if_pos ⟨hi, hpresent⟩, Option.some.injEq,
      show (f * pgsize + 7) / pgsize = f by rw [pgsize]; omega]
    congr 1
    funext x
    rw [hnew]
    rfl
  · have hpde := h.pde_eq j
    rw [if_neg hj, hother pgdir j hdir.symm fun hin => hj hin.2, hpde]
    split
    · next hpresent =>
      rw [if_pos hpresent] at hpde
      have hmem := mem_tables hpresent.1 hpde
      dsimp only at hmem
      rw [Option.some.injEq]
      congr 1
      funext x
      -- the words of a page table that was there are neither of the two that are written
      rw [hother _ x]
      · intro heq
        rw [heq] at hmem
        exact hfresh hmem
      · intro hin
        rw [hin.1] at hmem
        exact (List.nodup_cons.mp h.nodup_tree).1 (List.mem_append_left _ hmem)
    · rfl

/-- **A page table is added.** -/
theorem Held.addTable (h : Held pgdir s d s₁) {f : ℕ} {l : List ℕ} (hfree : s.freelist = f :: l)
    (hi : i < 1024) (hnone : d.pde i = none) :
    Held pgdir
      (Ram.setWord { s with freelist := l, page := Function.update s.page f fun _ => 0 } pgdir i
        (f * pgsize ||| pteP ||| pteW ||| pteU))
      (d.addTable i f) { s₁ with freelist := l, page := Function.update s₁.page f fun _ => 0 } := by
  have hf : f < 2 ^ 20 := h.free_lt f (by rw [hfree]; exact List.mem_cons_self)
  have hnodup := h.nodup_tree
  rw [hfree] at hnodup
  have hne : f ≠ pgdir := by
    rintro rfl
    exact (List.nodup_cons.mp hnodup).1 (List.mem_append_right _ List.mem_cons_self)
  have hfresh : f ∉ d.tables := fun hmem =>
    List.disjoint_of_nodup_append (List.nodup_cons.mp hnodup).2 hmem List.mem_cons_self
  have hw : f * pgsize + 7 < 2 ^ 32 := by
    rw [pgsize]
    omega
  obtain ⟨s', hs'⟩ : ∃ s', s' = Ram.setWord
      { s with freelist := l, page := Function.update s.page f fun _ => 0 } pgdir i
      (f * pgsize + 7) := ⟨_, rfl⟩
  have hnew : ∀ x, s'.word f x = 0 := fun x => by
    rw [hs', word_setWord hw, if_neg fun hin => hne hin.1, Ram.word]
    dsimp only
    rw [Function.update_self, word_zero]
  have hself : s'.word pgdir i = f * pgsize + 7 := by
    rw [hs', word_setWord hw, if_pos ⟨rfl, rfl⟩]
  have hother : ∀ g x, g ≠ f → ¬ (g = pgdir ∧ x = i) → s'.word g x = s.word g x := by
    intro g x hg hx
    rw [hs', word_setWord hw, if_neg hx, Ram.word, Ram.word]
    dsimp only
    rw [Function.update_of_ne hg]
  have htree := h.tree_addTable hi hne hfresh hself hnew hother
  rw [word_newTable, ← hs']
  have hfree' : s'.freelist = l := by
    rw [hs']
    rfl
  have hperm := PgDir.tables_addTable hi hnone f
  refine ⟨⟨?_, fun g hg => ?_⟩, htree, hfree'.symm, fun g hg hout => ?_⟩
  · rw [htree, hfree']
    refine (List.Perm.nodup_iff ?_).mp hnodup
    exact ((hperm.append_right l).trans List.perm_middle.symm).symm.cons _
  · rw [hfree'] at hg
    exact h.free_lt g (by rw [hfree]; exact List.mem_cons_of_mem f hg)
  · have hout' : g ∉ f :: d.tables := fun hin => hout (hperm.symm.subset hin)
    rw [List.mem_cons, not_or] at hout'
    rw [hs', Ram.setWord]
    dsimp only
    rw [Function.update_of_ne hg, Function.update_of_ne hout'.1, Function.update_of_ne hout'.1]
    exact h.page g hg hout'.2

/-! ### What holds of the trees holds of the words -/

variable {E : Panic → Prop} {va : ℕ}

/-- **`walkpgdir`** finds the entry in the words where it finds it in the tree. -/
theorem wp_walkpgdir_held (h : Held pgdir s d s₁) (alloc : Bool) {Q : PgDir × Bool → Ram → Prop}
    (hwp : wp (walkpgdir d va alloc) E Q s₁) :
    wp (Words.walkpgdir pgdir va alloc) E (fun r s' => ∃ d' s₁', Held pgdir s' d' s₁' ∧
      Q (d', r.isSome) s₁' ∧ ∀ f i, r = some (f, i) →
        i = ptx va ∧ ∃ t, d'.pde (pdx va) = some t ∧ f = t.frame) s := by
  have hi := pdx_lt va
  rw [walkpgdir] at hwp
  rw [Words.walkpgdir, wp_bind, wp_get]
  dsimp only
  cases hpde : d.pde (pdx va) with
  | some t =>
    rw [hpde] at hwp
    obtain ⟨hpresent, hframe, -⟩ := h.table hi hpde
    rw [if_pos hpresent, wp_pure]
    refine ⟨d, s₁, h, hwp, fun f i hsome => ?_⟩
    rw [Option.some.injEq, Prod.mk.injEq] at hsome
    refine ⟨hsome.2.symm, t, hpde, ?_⟩
    rw [← hsome.1, ← hframe, pteAddr, Nat.mul_div_cancel _ (by decide)]
  | none =>
    rw [hpde] at hwp
    dsimp only at hwp
    rw [if_neg (by rw [h.absent hi hpde]; simp)]
    cases alloc with
    | false => exact ⟨d, s₁, h, hwp, fun f i hsome => by cases hsome⟩
    | true =>
      rw [if_pos rfl, wp_bind, wp_kalloc, h.free] at hwp
      rw [if_pos rfl, wp_bind, wp_kalloc]
      cases hfree : s.freelist with
      | nil =>
        rw [hfree] at hwp
        exact ⟨d, s₁, h, hwp, fun f i hsome => by cases hsome⟩
      | cons f l =>
        rw [hfree] at hwp
        simp only [wp_bind, fill, wp_modify, wp_pure] at hwp ⊢
        refine ⟨_, _, h.addTable hfree hi hpde, hwp, fun g i hsome => ?_⟩
        rw [Option.some.injEq, Prod.mk.injEq] at hsome
        refine ⟨hsome.2.symm, ⟨f, fun _ => Pte.zero⟩, ?_, hsome.1.symm⟩
        rw [PgDir.addTable]
        exact Function.update_self _ _ _

theorem Held.entry (h : Held pgdir s d s₁) {t : Ptab} (ht : d.pde (pdx va) = some t) :
    (s.word t.frame (ptx va)).testBit 0 = (d.entry va).present := by
  rw [PgDir.entry, ht]
  dsimp only
  rw [← (h.table (pdx_lt va) ht).2.2, present_ofWord]

/-- **The loop of `mappages`.** -/
theorem wp_mapLoop_held {last perm : ℕ} (hperm : perm < pgsize) {Q : PgDir × Bool → Ram → Prop} :
    ∀ (n a q : ℕ) (d : PgDir) (s s₁ : Ram), q < 2 ^ 20 → Held pgdir s d s₁ →
    wp (mapLoop last perm n a q d) E Q s₁ →
    wp (Words.mapLoop pgdir last perm n a (q * pgsize)) E (fun r s' => ∃ d' s₁',
      Held pgdir s' d' s₁' ∧ (r = 0 ∨ r = -1) ∧ Q (d', decide (r = 0)) s₁') s := by
  intro n
  induction n with
  | zero => intro a q d s s₁ _ _ hwp; exact hwp
  | succ n ih =>
    intro a q d s s₁ hq h hwp
    rw [mapLoop, wp_bind] at hwp
    rw [Words.mapLoop, wp_bind]
    refine wp_imp (wp_walkpgdir_held h true hwp) ?_
    rintro r s' ⟨d', s₁', h', hwp', hfound⟩
    cases r with
    | none => exact ⟨d', s₁', h', .inr rfl, hwp'⟩
    | some p =>
      obtain ⟨f, i⟩ := p
      obtain ⟨rfl, t, ht, rfl⟩ := hfound f i rfl
      have hpresent := h'.entry ht
      dsimp only [Option.isSome_some] at hwp'
      rw [if_pos rfl] at hwp'
      dsimp only
      rw [wp_bind, wp_get, hpresent]
      by_cases hp : (d'.entry a).present = true
      · rw [if_pos hp] at hwp' ⊢
        exact hwp'
      · have hflags : perm ||| pteP < pgsize := Nat.or_lt_two_pow (n := 12) hperm (by decide)
        have hword : q * pgsize ||| perm ||| pteP < 2 ^ 32 := by
          rw [Nat.or_assoc, or_flags hflags]
          rw [pgsize] at hflags ⊢
          omega
        have hset := h'.setEntry ht hword
        rw [Nat.or_assoc, ofWord_or hflags] at hset
        rw [if_neg hp] at hwp' ⊢
        rw [wp_bind, wp_modify, Nat.or_assoc]
        by_cases hlast : a = last
        · rw [if_pos hlast] at hwp' ⊢
          exact ⟨_, _, hset, .inl rfl, hwp'⟩
        · have hnext : (q * pgsize + pgsize) % 2 ^ 32 = (q + 1) % 2 ^ 20 * pgsize := by
            rw [pgsize]
            omega
          rw [if_neg hlast] at hwp' ⊢
          rw [hnext]
          exact ih _ _ _ _ _ (Nat.mod_lt _ (by norm_num)) hset hwp'

theorem wp_mappages_held {size q perm : ℕ} (hperm : perm < pgsize) (hq : q < 2 ^ 20)
    {Q : PgDir × Bool → Ram → Prop} (h : Held pgdir s d s₁)
    (hwp : wp (mappages d va size q perm) E Q s₁) :
    wp (Words.mappages pgdir va size (q * pgsize) perm) E (fun r s' => ∃ d' s₁',
      Held pgdir s' d' s₁' ∧ (r = 0 ∨ r = -1) ∧ Q (d', decide (r = 0)) s₁') s :=
  wp_mapLoop_held hperm rounds _ q d s s₁ hq h hwp

end Held

/-! ### What `mappages` does to the words -/

/-- The word of the entry for the page `v`, or 0 where there is no page table. -/
def Ram.entry (s : Ram) (pgdir v : ℕ) : ℕ :=
  if (s.word pgdir (v / 1024)).testBit 0 then s.word (s.word pgdir (v / 1024) / pgsize) (v % 1024)
  else 0

theorem ofWord_inj {v w : ℕ} (h : Pte.ofWord v = Pte.ofWord w) : v = w := by
  rw [Pte.ofWord, Pte.ofWord, Pte.mk.injEq, pgsize] at h
  omega

theorem ofWord_entry (s : Ram) (pgdir : ℕ) {v : ℕ} (hv : v < 2 ^ 20) :
    Pte.ofWord (s.entry pgdir v) = (tree s pgdir).at v := by
  rw [PgDir.at_eq, show v / 1024 % 1024 = v / 1024 by omega, pde_tree (by omega), Ram.entry]
  split
  · rfl
  · rfl

/-- **What `mappages` does to the words.**  Let a page directory, its page tables and the free
pages be different pages, and let no page of a range be mapped that does not wrap, though it may
end at the top of the address space.  Then `mappages` returns; if it returns 0, the pages of the
range are mapped to the pages from `pa` on, with the flags `perm|PTE_P`; and whatever it returns,
the entries outside of the range are as they were, and page tables that are new are zero but for
entries of the range. -/
theorem mappages_words (s : Ram) {pgdir va size pa perm : ℕ} (hapart : Apart s pgdir)
    (hsize : 0 < size) (hend : va + size ≤ 2 ^ 32) (hpa : pa % pgsize = 0) (hmax : pa < 2 ^ 32)
    (hperm : perm < pgsize) (hfree : ∀ v, va / pgsize ≤ v → v ≤ (va + size - 1) / pgsize →
      (s.entry pgdir v).testBit 0 = false) :
    ∃ r s', Words.mappages pgdir va size pa perm s = .ok (r, s') ∧ (r = 0 ∨ r = -1) ∧
      Apart s' pgdir ∧
      (r = 0 → ∀ k, va / pgsize + k ≤ (va + size - 1) / pgsize →
        pteAddr (s'.entry pgdir (va / pgsize + k)) = (pa + k * pgsize) % 2 ^ 32 ∧
        pteFlags (s'.entry pgdir (va / pgsize + k)) = perm ||| pteP) ∧
      (∀ v < 2 ^ 20, v < va / pgsize ∨ (va + size - 1) / pgsize < v →
        s'.entry pgdir v = s.entry pgdir v) ∧
      ∀ i < 1024, (s.word pgdir i).testBit 0 = false → (s'.word pgdir i).testBit 0 = true →
        ∀ x < 1024, i * 1024 + x < va / pgsize ∨ (va + size - 1) / pgsize < i * 1024 + x →
          s'.word (s'.word pgdir i / pgsize) x = 0 := by
  have hheld : Held pgdir s (tree s pgdir) s := ⟨hapart, rfl, rfl, fun _ _ _ => rfl⟩
  have hq : pa / pgsize < 2 ^ 20 := by
    rw [pgsize]
    omega
  have hpage : pa / pgsize * pgsize = pa := by
    rw [pgsize] at hpa ⊢
    omega
  have habsent : ∀ v, va / 4096 ≤ v → v ≤ (va + size - 1) / 4096 →
      ((tree s pgdir).at v).present = false := by
    intro v hlo hhi
    rw [← ofWord_entry s pgdir (by omega), present_ofWord]
    exact hfree v hlo hhi
  have hwords := wp_mappages_held hperm hq hheld
    (wp_mappages (E := fun _ => False) (s := s) hsize hend hq habsent)
  rw [hpage] at hwords
  obtain ⟨r, s', hrun, d', s₁', hheld', hr, -, j, hj, hall, hent⟩ := exists_of_wp hwords
  have htree := hheld'.tree_eq
  -- the entries are those of the tree
  have hat : ∀ v < 2 ^ 20, Pte.ofWord (s'.entry pgdir v) =
      if va / pgsize ≤ v ∧ v < va / pgsize + j then
        ⟨(pa / pgsize + (v - va / pgsize)) % 2 ^ 20, perm ||| pteP⟩
      else Pte.ofWord (s.entry pgdir v) := by
    intro v hv
    rw [ofWord_entry s' pgdir hv, ofWord_entry s pgdir hv, htree]
    exact hent v hv
  have hout : ∀ v < 2 ^ 20, v < va / pgsize ∨ (va + size - 1) / pgsize < v →
      s'.entry pgdir v = s.entry pgdir v := by
    intro v hv hrange
    apply ofWord_inj
    rw [hat v hv, if_neg]
    rw [pgsize] at hrange ⊢
    omega
  refine ⟨r, s', hrun, hr, hheld'.toApart, fun hzero k hk => ?_, hout,
    fun i hi hno hyes x hx hrange => ?_⟩
  · have hcount := hall.mp (decide_eq_true hzero)
    rw [pgsize] at hk
    have hentry := hat (va / pgsize + k) (by rw [pgsize]; omega)
    rw [if_pos ⟨Nat.le_add_right _ _, by rw [pgsize]; omega⟩, Nat.add_sub_cancel_left, Pte.ofWord,
      Pte.mk.injEq] at hentry
    refine ⟨?_, hentry.2⟩
    rw [pteAddr, hentry.1]
    rw [pgsize] at hpa ⊢
    omega
  · have hentry := hout (i * 1024 + x) (by omega) hrange
    have hdiv : (i * 1024 + x) / 1024 = i := by omega
    have hmod : (i * 1024 + x) % 1024 = x := by omega
    rw [Ram.entry, Ram.entry, hdiv, hmod, if_pos hyes, if_neg (by rw [hno]; simp)] at hentry
    exact hentry

/-- A memory of zeros with one free page. -/
def blank : Ram := ⟨[0x401], fun _ _ => 0⟩

theorem word_blank (f i : ℕ) : blank.word f i = 0 := word_zero _

theorem apart_blank : Apart blank 0x400 := by
  have htables : (tree blank 0x400).tables = [] := by
    rw [PgDir.tables, List.filterMap_eq_nil_iff]
    intro i hi
    rw [pde_tree (List.mem_range.mp hi), word_blank]
    rfl
  refine ⟨?_, fun f hf => ?_⟩
  · rw [htables]
    decide
  · rw [List.mem_singleton.mp hf]
    norm_num

/-- The last page of the address space. -/
theorem mappages_words_last :
    ∃ r s', Words.mappages 0x400 0xFFFFF000 4096 0x5000 pteW blank = .ok (r, s') ∧
      (r = 0 ∨ r = -1) ∧ Apart s' 0x400 ∧
      (r = 0 → ∀ k, 0xFFFFF000 / pgsize + k ≤ (0xFFFFF000 + 4096 - 1) / pgsize →
        pteAddr (s'.entry 0x400 (0xFFFFF000 / pgsize + k)) = (0x5000 + k * pgsize) % 2 ^ 32 ∧
        pteFlags (s'.entry 0x400 (0xFFFFF000 / pgsize + k)) = pteW ||| pteP) ∧
      (∀ v < 2 ^ 20, v < 0xFFFFF000 / pgsize ∨ (0xFFFFF000 + 4096 - 1) / pgsize < v →
        s'.entry 0x400 v = blank.entry 0x400 v) ∧
      ∀ i < 1024, (blank.word 0x400 i).testBit 0 = false → (s'.word 0x400 i).testBit 0 = true →
        ∀ x < 1024, i * 1024 + x < 0xFFFFF000 / pgsize ∨
            (0xFFFFF000 + 4096 - 1) / pgsize < i * 1024 + x →
          s'.word (s'.word 0x400 i / pgsize) x = 0 :=
  mappages_words blank apart_blank (by norm_num) (by norm_num) (by decide) (by norm_num) (by decide)
    fun v _ _ => by rw [Ram.entry, word_blank, word_blank, ite_self, Nat.zero_testBit]

end Vm
end Xv6
