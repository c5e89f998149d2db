import Xv6.Lib.Loads
import Xv6.Proc.Exec
import Xv6.Vm.Room

/-!
# The arguments of a program

`exec` writes the arguments to the stack of the new program, strings first, each of them on a
multiple of four, and `main` finds them there.

* `userView`, `mainCall` — what the program can read, and what `main` reads from `esp` on.
* `Passed` — what there is on the stack.
* `Guarded` — the invariant: there is a guard page below the stack page.
* `Stacked`, `Laid` — the strings, and all of the stack.
* `exec_passes_arguments` — **`main` gets the arguments of `exec`.**
-/

namespace Xv6
namespace Exec

open Prog Bytes Vm

/-- The memory as the program sees it. -/
def userView (d : PgDir) (s : Ram) : View := fun a =>
  if (d.at (a / pgsize)).present && (d.at (a / pgsize)).user then
    some (s.page (d.at (a / pgsize)).frame (a % pgsize))
  else none

/-- What `main` is called with. -/
structure MainCall where
  ret : ℕ
  argc : ℕ
  argv : ℕ
  pointers : List ℕ
  strings : List (List UInt8)

/-- The call that is found from `esp` on. -/
def mainCall (m : View) (esp : ℕ) : Option MainCall := do
  let ret ← loadWord m esp
  let argc ← loadWord m (esp + 4)
  let argv ← loadWord m (esp + 8)
  let pointers ← loadWords m pgsize argv
  let strings ← pointers.mapM (loadString m pgsize)
  return ⟨ret, argc, argv, pointers, strings⟩

/-- The address and the size of a string with its zero. -/
def room (p : ℕ) (arg : List UInt8) : ℕ × ℕ := (p, arg.length + 1)

/-- The addresses and the sizes of all that is on the stack: the three words, the array, and
the strings. -/
def MainCall.storage (c : MainCall) (esp : ℕ) : List (ℕ × ℕ) :=
  (esp, 12) :: (c.argv, 4 * (c.pointers.length + 1)) :: List.zipWith room c.pointers c.strings

/-- The two have no byte in common. -/
def Apart (r q : ℕ × ℕ) : Prop := r.1 + r.2 ≤ q.1 ∨ q.1 + q.2 ≤ r.1

/-- The stack of a new program: its one page is behind a page that is not for the user. -/
structure Passed (argv : List (List UInt8)) (n : ℕ) (c : MainCall) (k : Kernel) : Prop where
  size : k.proc.sz = (n + 2) * pgsize
  guard : (k.proc.pgdir.at n).present = true ∧ (k.proc.pgdir.at n).user = false
  call : mainCall (userView k.proc.pgdir k.ram) k.proc.tf.esp = some c
  ret : c.ret = 0xffffffff
  argc : c.argc = argv.length
  strings : c.strings = argv
  apart : (c.storage k.proc.tf.esp).Pairwise Apart
  inside : ∀ r ∈ c.storage k.proc.tf.esp, (n + 1) * pgsize ≤ r.1 ∧ r.1 + r.2 ≤ (n + 2) * pgsize

/-! ### The strings -/

/-- The strings are one below the other, the first one below `hi` and the last one at `lo`, and
these are their addresses. -/
inductive Stacked (m : View) : ℕ → List (List UInt8) → List ℕ → ℕ → Prop
  | nil (hi : ℕ) : Stacked m hi [] [] hi
  | cons {hi p lo : ℕ} {arg : List UInt8} {argv : List (List UInt8)} {ptrs : List ℕ}
      (str : Holds m p (arg ++ [0])) (below : p + (arg.length + 1) ≤ hi)
      (rest : Stacked m p argv ptrs lo) : Stacked m hi (arg :: argv) (p :: ptrs) lo

namespace Stacked

variable {m m' : View} {hi lo : ℕ} {argv : List (List UInt8)} {ptrs : List ℕ}

theorem le (h : Stacked m hi argv ptrs lo) : lo ≤ hi := by
  induction h with
  | nil hi => exact le_rfl
  | cons str below rest ih => omega

theorem length_eq (h : Stacked m hi argv ptrs lo) : ptrs.length = argv.length := by
  induction h with
  | nil hi => rfl
  | cons str below rest ih => rw [List.length_cons, List.length_cons, ih]

theorem congr (h : Stacked m hi argv ptrs lo) (heq : ∀ a, lo ≤ a → a < hi → m' a = m a) :
    Stacked m' hi argv ptrs lo := by
  induction h with
  | nil hi => exact .nil hi
  | cons str below rest ih =>
    have hle := rest.le
    refine .cons (str.congr fun a hlo hhi => ?_) below (ih fun a hlo hhi => ?_)
    · rw [List.length_append, List.length_singleton] at hhi
      exact heq a (by omega) (by omega)
    · exact heq a hlo (by omega)

theorem pointer (h : Stacked m hi argv ptrs lo) : ∀ p ∈ ptrs, lo ≤ p ∧ p < hi := by
  induction h with
  | nil hi => exact fun p hp => by cases hp
  | cons str below rest ih =>
    intro p hp
    have hle := rest.le
    rcases List.mem_cons.mp hp with rfl | hp
    · exact ⟨hle, by omega⟩
    · have hrest := ih p hp
      exact ⟨hrest.1, by omega⟩

theorem inside (h : Stacked m hi argv ptrs lo) :
    ∀ r ∈ List.zipWith room ptrs argv, lo ≤ r.1 ∧ r.1 + r.2 ≤ hi := by
  induction h with
  | nil hi => exact fun r hr => by cases hr
  | cons str below rest ih =>
    intro r hr
    have hle := rest.le
    rw [List.zipWith_cons_cons] at hr
    rcases List.mem_cons.mp hr with rfl | hr
    · exact ⟨hle, below⟩
    · have hrest := ih r hr
      exact ⟨hrest.1, by omega⟩

theorem apart (h : Stacked m hi argv ptrs lo) : (List.zipWith room ptrs argv).Pairwise Apart := by
  induction h with
  | nil hi => exact .nil
  | cons str below rest ih =>
    rw [List.zipWith_cons_cons]
    exact .cons (fun r hr => .inr (rest.inside r hr).2) ih

/-- **The strings are read back.** -/
theorem strings {n : ℕ} (h : Stacked m hi argv ptrs lo) (hstr : ∀ arg ∈ argv, 0 ∉ arg)
    (hn : hi - lo ≤ n) : ptrs.mapM (loadString m n) = some argv := by
  induction h with
  | nil hi => rfl
  | cons str below rest ih =>
    have hle := rest.le
    have hrest := ih (fun arg harg => hstr arg (List.mem_cons_of_mem _ harg)) (by omega)
    have hload := str.loadString (n := n) (hstr _ List.mem_cons_self) (by omega)
    rw [List.mapM_cons, hload, Option.bind_eq_bind, Option.bind_some, hrest]
    rfl

end Stacked

/-- All of the stack. -/
structure Laid (m : View) (hi : ℕ) (argv : List (List UInt8)) (ptrs : List ℕ) (lo esp : ℕ) :
    Prop where
  stacked : Stacked m hi argv ptrs lo
  frame : Holds m esp (stackFrame lo ptrs)
  below : esp + 4 * (ptrs.length + 4) = lo

namespace Laid

variable {m m' : View} {hi lo esp : ℕ} {argv : List (List UInt8)} {ptrs : List ℕ}

theorem congr (h : Laid m hi argv ptrs lo esp) (heq : ∀ a, esp ≤ a → a < hi → m' a = m a) :
    Laid m' hi argv ptrs lo esp := by
  have hle := h.stacked.le
  have hbelow := h.below
  refine ⟨h.stacked.congr fun a hlo hhi => heq a (by omega) hhi, h.frame.congr fun a hlo hhi => ?_,
    hbelow⟩
  rw [length_stackFrame] at hhi
  exact heq a hlo (by omega)

/-- **The call is read back.** -/
theorem mainCall (h : Laid m hi argv ptrs lo esp) (hstr : ∀ arg ∈ argv, 0 ∉ arg)
    (hpage : hi - esp ≤ pgsize) (hpos : 0 < esp) (hhi : hi < 2 ^ 32) :
    mainCall m esp = some ⟨0xffffffff, argv.length, esp + 12, ptrs, argv⟩ := by
  have hle := h.stacked.le
  have hbelow := h.below
  have hlen := h.stacked.length_eq
  -- the pointer to the array
  have hargv : (lo + (2 ^ 32 - (ptrs.length + 1) * 4)) % 2 ^ 32 = esp + 12 := by omega
  have hframe := h.frame
  rw [stackFrame, hargv, hlen, List.append_assoc, List.flatMap_append, holds_append] at hframe
  obtain ⟨hwords, hptrs⟩ := hframe
  simp only [List.flatMap_cons, List.flatMap_nil, holds_append, length_toLe] at hwords
  have hthree : ([0xffffffff, argv.length, esp + 12].flatMap (toLe 4)).length = 12 := by
    simp only [List.flatMap_cons, List.flatMap_nil, List.length_append, length_toLe,
      List.length_nil]
  rw [hthree] at hptrs
  rw [pgsize] at hpage
  -- the three words, and the array
  have hret := hwords.1.loadWord (by norm_num)
  have hargc := hwords.2.1.loadWord (by omega)
  have hargv' := hwords.2.2.1.loadWord (by omega)
  have hload := hptrs.loadWords (n := pgsize) (fun p hp => ?_) (by rw [pgsize]; omega)
  · have hstrings := h.stacked.strings (n := pgsize) hstr (by rw [pgsize]; omega)
    rw [Exec.mainCall, hret, Option.bind_eq_bind, Option.bind_some, hargc, Option.bind_eq_bind,
      Option.bind_some, hargv', Option.bind_eq_bind, Option.bind_some, hload, Option.bind_some,
      hstrings]
    rfl
  · have hp := h.stacked.pointer p hp
    omega

/-- **Nothing on the stack is at one place with anything else.** -/
theorem apart (h : Laid m hi argv ptrs lo esp) :
    (MainCall.storage ⟨0xffffffff, argv.length, esp + 12, ptrs, argv⟩ esp).Pairwise Apart := by
  have hbelow := h.below
  have hlow : ∀ r ∈ List.zipWith room ptrs argv, lo ≤ r.1 := fun r hr => (h.stacked.inside r hr).1
  rw [MainCall.storage, List.pairwise_cons, List.pairwise_cons]
  refine ⟨fun r hr => .inl ?_, fun r hr => .inl ?_, h.stacked.apart⟩
  · rcases List.mem_cons.mp hr with rfl | hr
    · exact le_rfl
    · have hr := hlow r hr
      dsimp only
      omega
  · have hr := hlow r hr
    dsimp only
    omega

theorem inside (h : Laid m hi argv ptrs lo esp) :
    ∀ r ∈ MainCall.storage ⟨0xffffffff, argv.length, esp + 12, ptrs, argv⟩ esp,
      esp ≤ r.1 ∧ r.1 + r.2 ≤ hi := by
  have hle := h.stacked.le
  have hbelow := h.below
  intro r hr
  rw [MainCall.storage, List.mem_cons, List.mem_cons] at hr
  rcases hr with rfl | rfl | hr
  · exact ⟨le_rfl, by dsimp only; omega⟩
  · exact ⟨Nat.le_add_right _ _, by dsimp only; omega⟩
  · have hr := h.stacked.inside r hr
    exact ⟨by omega, hr.2⟩

end Laid

/-! ### The pages -/

/-- The address space has a stack page, and below it a page that is not for the user. -/
structure Guarded (L : Layout) (s₀ : Ram) (n : ℕ) (d : PgDir) (s : Ram) : Prop
    extends Space L s₀ (n + 2) d s where
  guard : (d.at n).user = false
  stack : (d.at (n + 1)).user = true
  top : n + 2 ≤ 2 ^ 19

section Specs

variable {L : Layout} {s₀ s s' : Ram} {d : PgDir} {n : ℕ}

theorem wp_clearpteu_guarded (h : Space L s₀ (n + 2) d s) (hn : n + 2 ≤ 2 ^ 19)
    (hstack : d.Accessible (n + 1)) :
    wp (clearpteu d (n * 4096)) (fun _ => True) (fun d' s' => Guarded L s₀ n d' s') s := by
  have htable := h.hasTable (by omega : n < 2 ^ 19) (by omega)
  have hspace := wp_clearpteu (E := fun _ => True) h hn (by omega : n < n + 2)
  rw [wp_clearpteu_iff htable] at hspace ⊢
  refine ⟨hspace, ?_, ?_, hn⟩
  · rw [PgDir.at_setEntry _ htable (by omega) (by omega), if_pos rfl, Pte.user, Nat.testBit_and,
      show (0xFFF ^^^ pteU).testBit 2 = false by decide, Bool.and_false]
  · rw [PgDir.at_setEntry _ htable (by omega) (by omega), if_neg (by omega)]
    exact hstack.2

namespace Guarded

theorem accessible (h : Guarded L s₀ n d s) {v : ℕ} (hv : v < 2 ^ 20) (hacc : d.Accessible v) :
    v < n + 2 ∧ v ≠ n := by
  refine ⟨?_, fun heq => ?_⟩
  · rcases Nat.lt_or_ge v (2 ^ 19) with hlt | hge
    · exact (h.mapped v hlt).mp hacc.1
    · have huser := hacc.2
      rw [h.kernel v hv hge, kernelPte_user_eq_false] at huser
      cases huser
  · have huser := hacc.2
    rw [heq, h.guard] at huser
    cases huser

/-- **What is pushed is on the stack page**, where `copyout` has not failed: it is not so long
that it would be below the guard page. -/
theorem inside (h : Guarded L s₀ n d s) {sp va len : ℕ} (hlo : (n + 1) * 4096 ≤ sp)
    (hhi : sp ≤ (n + 2) * 4096) (hle : va ≤ (sp + (2 ^ 32 - len)) % 2 ^ 32)
    (hlt : (sp + (2 ^ 32 - len)) % 2 ^ 32 < va + 4) (hpos : 0 < len)
    (hacc : ∀ i < len, d.Accessible (pageOf va i)) : (n + 1) * 4096 ≤ va ∧ va + len ≤ sp := by
  have hn := h.top
  have hpage : ∀ i < len, (va + i) % 2 ^ 32 / 4096 < n + 2 ∧ (va + i) % 2 ^ 32 / 4096 ≠ n :=
    fun i hi => h.accessible (pageOf_lt va i) (hacc i hi)
  -- some byte would be on the guard page
  have hguard : ∀ i < len, (va + i) % 2 ^ 32 ≠ n * 4096 := fun i hi heq =>
    (hpage i hi).2 (by rw [heq, Nat.mul_div_cancel _ (Nat.zero_lt_succ 4095)])
  rcases Nat.lt_or_ge len (2 ^ 32) with hshort | hlong
  · rcases Nat.lt_or_ge sp len with hwrap | hfits
    · -- below zero there are the pages of the kernel
      rcases Nat.lt_or_ge va (2 ^ 31) with hlow | hhigh
      · have hkernel := (hpage (2 ^ 31 - va) (by omega)).1
        omega
      · have hfirst := (hpage 0 hpos).1
        omega
    · refine ⟨?_, by omega⟩
      by_contra hbelow
      rcases Nat.lt_or_ge va (n * 4096) with hlow | hhigh
      · exact hguard (n * 4096 - va) (by omega) (by omega)
      · have hfirst := (hpage 0 hpos).2
        omega
  · exact absurd (by omega) (hguard ((n * 4096 + 2 ^ 32 - va) % 2 ^ 32) (by omega))

/-- A byte of the stack page. -/
theorem userView_stack (h : Guarded L s₀ n d s) (t : Ram) {a : ℕ} (hlo : (n + 1) * 4096 ≤ a)
    (hhi : a < (n + 2) * 4096) :
    userView d t a = some (t.page (d.at (n + 1)).frame (a % 4096)) := by
  have hn := h.top
  have hpage : a / pgsize = n + 1 := by
    rw [pgsize]
    omega
  rw [userView, hpage, (h.mapped (n + 1) (by omega)).mpr (by omega), h.stack, pgsize]
  rfl

/-- The memory has changed elsewhere. -/
theorem userView_congr (h : Guarded L s₀ n d s) {t t' : Ram}
    (heq : t'.page (d.at (n + 1)).frame = t.page (d.at (n + 1)).frame) {a : ℕ}
    (hlo : (n + 1) * 4096 ≤ a) (hhi : a < (n + 2) * 4096) : userView d t' a = userView d t a := by
  rw [h.userView_stack t' hlo hhi, h.userView_stack t hlo hhi, heq]

end Guarded

/-- Bytes have been written to the stack page, below `sp`. -/
structure Put (L : Layout) (s₀ : Ram) (n : ℕ) (d : PgDir) (va : ℕ) (p : List UInt8) (sp : ℕ)
    (s s' : Ram) : Prop where
  guarded : Guarded L s₀ n d s'
  low : (n + 1) * 4096 ≤ va
  below : va + p.length ≤ sp
  holds : Holds (userView d s') va p
  kept : ∀ a, (n + 1) * 4096 ≤ a → a < (n + 2) * 4096 → a < va ∨ va + p.length ≤ a →
    userView d s' a = userView d s a

theorem wp_copyout_put (h : Guarded L s₀ n d s) (hram : ∀ f ∈ s₀.freelist, L.IsRam f) {sp va : ℕ}
    {p : List UInt8} (hlo : (n + 1) * 4096 ≤ sp) (hhi : sp ≤ (n + 2) * 4096)
    (hle : va ≤ (sp + (2 ^ 32 - p.length)) % 2 ^ 32)
    (hlt : (sp + (2 ^ 32 - p.length)) % 2 ^ 32 < va + 4) (hpos : 0 < p.length) :
    wp (copyout d va p) (fun _ => True) (fun r s' => ¬ r < 0 → Put L s₀ n d va p sp s s') s := by
  have hn := h.top
  refine wp_mono (wp_copyoutLoop (h.physical hram) _ va p s (by omega) (Nat.lt_succ_self _))
    (fun r s' hend hr => ?_) fun _ _ => trivial
  rcases hend with ⟨-, hacc, hcopied⟩ | ⟨hminus, -, -⟩
  · obtain ⟨hlow, hbelow⟩ := h.inside hlo hhi hle hlt hpos hacc
    -- all bytes are on one page, so that no two of them are at one place
    have hloc : ∀ i < p.length, d.loc va i = ((d.at (n + 1)).frame, (va + i) % 4096) := by
      intro i hi
      have hpage : pageOf va i = n + 1 := by
        rw [pageOf]
        omega
      rw [PgDir.loc, hpage]
    refine ⟨⟨h.within hn (by omega) hcopied.toWithin, h.guard, h.stack, hn⟩, hlow, hbelow,
      holds_iff.mpr fun i hi => ?_, fun a hlo' hhi' hout => ?_⟩
    · have hbyte := hcopied.byte i hi fun j hj hjlen => by
        rw [hloc j hjlen, hloc i hi]
        exact fun heq => absurd (congrArg Prod.snd heq) (by dsimp only; omega)
      rw [hloc i hi] at hbyte
      rw [h.userView_stack s' (by omega) (by omega), hbyte]
    · rw [h.userView_stack s' hlo' hhi', h.userView_stack s hlo' hhi', hcopied.kept]
      intro i hi _ heq
      rw [hloc i hi] at heq
      exact absurd (congrArg Prod.snd heq) (by dsimp only; omega)
  · omega

/-- The arguments have been pushed. -/
structure Pushed (L : Layout) (s₀ : Ram) (n : ℕ) (d : PgDir) (argv : List (List UInt8))
    (sp : ℕ) (ustack : List ℕ) (sp' : ℕ) (ustack' : List ℕ) (s s' : Ram) : Prop where
  guarded : Guarded L s₀ n d s'
  low : (n + 1) * 4096 ≤ sp'
  stacked : ∃ ptrs, ustack' = ustack ++ ptrs ∧ Stacked (userView d s') sp argv ptrs sp'
  kept : ∀ a, sp ≤ a → a < (n + 2) * 4096 → userView d s' a = userView d s a

/-- One more is pushed first. -/
theorem Pushed.cons {arg : List UInt8} {argv : List (List UInt8)} {sp p sp' : ℕ}
    {ustack ustack' : List ℕ} {s'' : Ram} (hhi : sp ≤ (n + 2) * 4096)
    (hput : Put L s₀ n d p (arg ++ [0]) sp s s')
    (h : Pushed L s₀ n d argv p (ustack ++ [p]) sp' ustack' s' s'') :
    Pushed L s₀ n d (arg :: argv) sp ustack sp' ustack' s s'' := by
  obtain ⟨ptrs, hptrs, hstacked⟩ := h.stacked
  have hlow := hput.low
  have hbelow := hput.below
  have hlen : (arg ++ [0]).length = arg.length + 1 := List.length_append
  refine ⟨h.guarded, h.low, ⟨p :: ptrs, ?_, .cons (hput.holds.congr fun a hlo hhi' => ?_)
    (by omega) hstacked⟩, fun a hlo hhi' => ?_⟩
  · rw [hptrs, List.append_assoc, List.singleton_append]
  · exact h.kept a hlo (by omega)
  · rw [h.kept a (by omega) hhi', hput.kept a (by omega) hhi' (.inr (by omega))]

/-- **The loop that pushes the arguments** either fails or pushes them all. -/
theorem wp_pushArgs_pushed (hram : ∀ f ∈ s₀.freelist, L.IsRam f) :
    ∀ (argv : List (List UInt8)) (sp : ℕ) (ustack : List ℕ) (s : Ram), Guarded L s₀ n d s →
    (n + 1) * 4096 ≤ sp → sp ≤ (n + 2) * 4096 →
    wp (pushArgs d argv sp ustack) (fun _ => True) (fun r s' => ∀ sp' ustack',
      r = some (sp', ustack') → Pushed L s₀ n d argv sp ustack sp' ustack' s s') s := by
  intro argv
  induction argv with
  | nil =>
    intro sp ustack s h hlo hhi
    rw [pushArgs, wp_pure]
    intro sp' ustack' hsome
    cases hsome
    exact ⟨h, hlo, ⟨[], (List.append_nil _).symm, .nil sp⟩, fun _ _ _ => rfl⟩
  | cons arg argv ih =>
    intro sp ustack s h hlo hhi
    rw [pushArgs, wp_ite]
    refine ⟨fun _ _ _ hsome => (by cases hsome), fun _ => ?_⟩
    have hlen : (arg ++ [0]).length = arg.length + 1 := List.length_append
    rw [← hlen, wp_bind]
    refine wp_imp (wp_copyout_put h hram hlo hhi (Nat.div_mul_le_self _ _) (by omega)
      (by omega)) fun r s' hput => ?_
    rw [wp_ite]
    refine ⟨fun _ _ _ hsome => (by cases hsome), fun hr => ?_⟩
    have hput := hput hr
    have hlow := hput.low
    have hbelow := hput.below
    refine wp_imp (ih _ _ s' hput.guarded hlow (by omega)) fun r' s'' hrest sp' ustack' hsome => ?_
    exact (hrest sp' ustack' hsome).cons hhi hput

/-- **The frame below the strings** is the last one that is written. -/
theorem Pushed.laid {argv : List (List UInt8)} {sp esp : ℕ} {ptrs : List ℕ} {s'' : Ram}
    (h : Pushed L s₀ n d argv ((n + 2) * 4096) [] sp ptrs s s')
    (hesp : esp = (sp + (2 ^ 32 - (stackFrame sp ptrs).length)) % 2 ^ 32)
    (hput : Put L s₀ n d esp (stackFrame sp ptrs) sp s' s'') :
    Laid (userView d s'') ((n + 2) * 4096) argv ptrs sp esp := by
  obtain ⟨ptrs', hptrs, hstacked⟩ := h.stacked
  rw [List.nil_append] at hptrs
  subst hptrs
  have hn := h.guarded.top
  have hlow := hput.low
  have hbelow := hput.below
  have hle := hstacked.le
  rw [length_stackFrame] at hesp
  have hkept := hput.kept
  rw [length_stackFrame] at hbelow hkept
  refine ⟨hstacked.congr fun a hlo hhi => ?_, hput.holds, by omega⟩
  exact hkept a (by omega) hhi (.inr (by omega))

/-! ### The whole -/

variable {k : Kernel}

theorem wp_bad_minus (d? : Option PgDir) (ip : Option ℕ) :
    wp (bad L d? ip) (fun _ => True) (fun r _ => r = -1) k := by
  rw [bad, wp_bind]
  refine wp_imp (wp_trivial _) fun _ k' _ => ?_
  rw [wp_bind, wp_putFile, wp_pure]

/-- Where −1 is returned nothing is asked. -/
theorem wp_bad_ret {Q : Kernel → Prop} (d? : Option PgDir) (ip : Option ℕ) :
    wp (bad L d? ip) (fun _ => True) (fun r k' => r = 0 → Q k') k := by
  refine wp_imp (wp_bad_minus d? ip) fun r k' hr hzero => ?_
  omega

/-- **The stack of the new image.** -/
theorem wp_newImage_passed {sz entry : ℕ} {path : List UInt8} {argv : List (List UInt8)}
    (hram : ∀ f ∈ s₀.freelist, L.IsRam f) (h₀ : s₀.freelist.Nodup)
    (hold : ∀ f ∈ k.proc.pgdir.pages, L.IsRam f ∧ f ∉ s₀.freelist)
    (hstr : ∀ arg ∈ argv, 0 ∉ arg) (hsz : sz < kernbase) (h : Space L s₀ (npages sz) d k.ram) :
    wp (newImage L path argv entry d sz) (fun _ => True)
      (fun r k' => r = 0 → ∃ n c, Passed argv n c k') k := by
  rw [newImage, wp_bind, wp_onRam]
  -- the guard page and the stack page
  refine wp_imp (wp_allocuvm_stack hram h₀ hsz h) ?_
  rintro ⟨d₁, sz₁⟩ m₁ ⟨-, hspace₁⟩
  dsimp only at hspace₁ ⊢
  rw [wp_ite]
  refine ⟨fun _ => wp_bad_ret _ _, fun hne => ?_⟩
  obtain ⟨rfl, hlt, hspace₁, hstack⟩ := hspace₁ hne
  have hn := hlt.le
  rw [guard_page, wp_bind, wp_onRam]
  refine wp_imp (wp_clearpteu_guarded hspace₁ hn hstack) fun d₂ m₂ hguarded => ?_
  -- the strings
  rw [wp_bind, wp_onRam]
  refine wp_imp (wp_pushArgs_pushed hram argv _ [] m₂ hguarded (by omega) le_rfl) ?_
  rintro (_ | ⟨sp, ustack⟩) m₃ hpushed
  · exact wp_bad_ret _ _
  · have hpushed := hpushed sp ustack rfl
    have hlow := hpushed.low
    obtain ⟨ptrs, -, hstacked⟩ := hpushed.stacked
    have hle := hstacked.le
    have hpos : 0 < (stackFrame sp ustack).length := by
      rw [length_stackFrame]
      omega
    -- the frame
    dsimp only
    generalize hesp : (sp + (2 ^ 32 - (stackFrame sp ustack).length)) % 2 ^ 32 = esp
    rw [wp_bind, wp_onRam]
    refine wp_imp (wp_copyout_put hpushed.guarded hram hlow hle hesp.ge (by omega) hpos)
      fun r m₄ hput => ?_
    rw [wp_ite]
    refine ⟨fun _ => wp_bad_ret _ _, fun hr => ?_⟩
    have hput := hput hr
    have hlaid := hpushed.laid hesp.symm hput
    have hlow' := hput.low
    have hend : (npages sz + 2) * 4096 - esp ≤ pgsize := by
      rw [pgsize]
      omega
    -- the old image has none of the new pages
    rw [wp_bind, wp_get, wp_bind, wp_set, wp_bind, wp_onRam]
    refine wp_imp (wp_freevm (fun f hf => (hold f hf).1) _) fun _ m₅ hfreed => ?_
    rw [wp_pure]
    intro _
    have hframe := hput.guarded.frame_mem (by omega)
      ((hput.guarded.mapped (npages sz + 1) (by omega)).mpr (by omega))
    have hpage := hfreed.kept _ fun hin => (hold _ hin).2 hframe
    have hlaid' := hlaid.congr fun a hlo hhi =>
      hput.guarded.userView_congr hpage (hlow'.trans hlo) hhi
    have hcall := hlaid'.mainCall hstr hend (by omega) (by omega)
    refine ⟨npages sz, _, rfl, ⟨?_, hput.guarded.guard⟩, hcall, rfl, rfl, rfl, hlaid'.apart,
      fun q hq => ?_⟩
    · exact (hput.guarded.mapped (npages sz) (by omega)).mpr (by omega)
    · have hinside := hlaid'.inside q hq
      exact ⟨hlow'.trans hinside.1, hinside.2⟩

/-- **`exec`** either fails or passes the arguments on. -/
theorem wp_exec_passed (namei : List UInt8 → Option (ℕ × List UInt8)) (path : List UInt8)
    {argv : List (List UInt8)} (hram : ∀ f ∈ k.ram.freelist, L.IsRam f)
    (h₀ : k.ram.freelist.Nodup)
    (hold : ∀ f ∈ k.proc.pgdir.pages, L.IsRam f ∧ f ∉ k.ram.freelist)
    (hstr : ∀ arg ∈ argv, 0 ∉ arg) :
    wp (exec L namei path argv) (fun _ => True)
      (fun r k' => r = 0 → ∃ n c, Passed argv n c k') k := by
  unfold exec
  simp only [call, wp_bind, wp_modify]
  cases hfile : namei path with
  | none =>
    simp only [wp_bind, wp_modify, wp_pure]
    exact fun hr => absurd hr (by decide)
  | some file =>
    obtain ⟨ip, c⟩ := file
    simp only [wp_bind, wp_modify]
    rw [wp_ite]
    refine ⟨fun _ => wp_bad_ret _ _, fun _ => ?_⟩
    rw [wp_ite]
    refine ⟨fun _ => wp_bad_ret _ _, fun _ => ?_⟩
    rw [wp_bind, wp_onRam]
    refine wp_imp (wp_setupkvm_space hram) fun d? m hd => ?_
    cases d? with
    | none => exact wp_bad_ret _ _
    | some d =>
      rw [wp_bind, wp_onRam]
      refine wp_imp (wp_loadProgram hram h₀ c _ _ d 0 m (by decide) hd) ?_
      rintro ⟨d', sz⟩ m' ⟨-, hloaded⟩
      cases sz with
      | none => exact wp_bad_ret _ _
      | some sz =>
        obtain ⟨hsz, hspace⟩ := hloaded sz rfl
        simp only [wp_bind, wp_modify]
        exact wp_newImage_passed hram h₀ hold hstr hsz hspace

/-! ### Where there is room -/

theorem wp_copyout_fits (h : Guarded L s₀ n d s) (hram : ∀ f ∈ s₀.freelist, L.IsRam f) {va : ℕ}
    {p : List UInt8} (hlo : (n + 1) * 4096 ≤ va) (hpos : 0 < p.length)
    (hhi : va + p.length ≤ (n + 2) * 4096) :
    wp (copyout d va p) (fun _ => True) (fun r s' => r = 0 ∧ Guarded L s₀ n d s') s := by
  have hn := h.top
  refine wp_mono (wp_copyoutLoop (h.physical hram) _ va p s (by omega) (Nat.lt_succ_self _))
    (fun r s' hend => ?_) fun _ _ => trivial
  rcases hend with ⟨hr, -, hcopied⟩ | ⟨-, -, i, hstop, -⟩
  · exact ⟨hr, h.within hn hhi hcopied.toWithin, h.guard, h.stack, hn⟩
  · have hlt := hstop.1
    have hpage : pageOf va i = n + 1 := by
      rw [pageOf]
      omega
    refine absurd ?_ hstop.2.2
    rw [hpage]
    exact ⟨(h.mapped (n + 1) (by omega)).mpr (by omega), h.stack⟩

/-- The bytes that the strings may need. -/
def stringRoom (argv : List (List UInt8)) : ℕ := (argv.map fun arg => arg.length + 4).sum

theorem wp_pushArgs_fits (hram : ∀ f ∈ s₀.freelist, L.IsRam f) :
    ∀ (argv : List (List UInt8)) (sp : ℕ) (ustack : List ℕ) (s : Ram), Guarded L s₀ n d s →
    (n + 1) * 4096 + stringRoom argv ≤ sp → sp ≤ (n + 2) * 4096 →
    ustack.length + argv.length ≤ maxarg →
    wp (pushArgs d argv sp ustack) (fun _ => True) (fun r s' => ∃ sp' ustack',
      r = some (sp', ustack') ∧ Guarded L s₀ n d s' ∧ sp ≤ sp' + stringRoom argv ∧ sp' ≤ sp ∧
      ustack'.length = ustack.length + argv.length) s := by
  intro argv
  induction argv with
  | nil =>
    intro sp ustack s h hlo hhi hlen
    rw [pushArgs, wp_pure]
    exact ⟨sp, ustack, rfl, h, le_rfl, le_rfl, rfl⟩
  | cons arg argv ih =>
    intro sp ustack s h hlo hhi hlen
    have hn := h.top
    have hroom : stringRoom (arg :: argv) = arg.length + 4 + stringRoom argv := by
      rw [stringRoom, List.map_cons, List.sum_cons, stringRoom]
    have hstr : (arg ++ [0]).length = arg.length + 1 := List.length_append
    rw [List.length_cons] at hlen
    rw [pushArgs, wp_ite]
    refine ⟨fun hfull => by omega, fun _ => ?_⟩
    generalize hp : (sp + (2 ^ 32 - (arg.length + 1))) % 2 ^ 32 / 4 * 4 = p
    -- a string takes three bytes more than it has, at most
    have hdown : sp ≤ p + (arg.length + 4) ∧ p + (arg.length + 1) ≤ sp := by omega
    rw [wp_bind]
    refine wp_imp (wp_copyout_fits h hram (by linarith) (by omega) (by omega)) ?_
    rintro r s' ⟨rfl, h'⟩
    have hlen' : (ustack ++ [p]).length = ustack.length + 1 := List.length_append
    rw [if_neg (lt_irrefl _)]
    refine wp_imp (ih p (ustack ++ [p]) s' h' (by omega) (by omega) (by omega)) ?_
    rintro _ s'' ⟨sp', ustack', rfl, h'', hlow, hle, hlast⟩
    rw [hlen'] at hlast
    exact ⟨sp', ustack', rfl, h'', by omega, by omega, by rw [hlast, List.length_cons]; omega⟩

/-- The page of the stack is enough for the arguments. -/
structure Fits (argv : List (List UInt8)) : Prop where
  argc : argv.length ≤ maxarg
  room : stringRoom argv + 4 * (argv.length + 4) ≤ pgsize

/-- **The new image is made** where the arguments fit and memory does not run out. -/
theorem wp_newImage_fits {sz entry : ℕ} {path : List UInt8} {argv : List (List UInt8)}
    (hram : ∀ f ∈ s₀.freelist, L.IsRam f) (h₀ : s₀.freelist.Nodup)
    (hold : ∀ f ∈ k.proc.pgdir.pages, L.IsRam f) (hfits : Fits argv)
    (hsz : (npages sz + 2) * 4096 < kernbase) (h : Space L s₀ (npages sz) d k.ram)
    (hroom : 1026 < d.stock k.ram) :
    wp (newImage L path argv entry d sz) (fun _ => True) (fun r _ => r = 0) k := by
  obtain ⟨hargc, hstack⟩ := hfits
  have hsz' : sz < kernbase := by
    rw [npages] at hsz
    omega
  have halloc := wp_allocuvm_room (L := L) (d := d) (s := k.ram)
    (by omega : npages sz * 4096 ≤ (npages sz + 2) * 4096) hsz
    (by rw [npages_page, npages_page]; omega)
  have hspace := wp_allocuvm_stack (E := fun _ => True) hram h₀ hsz' h
  rw [pgroundup_eq hsz'.le, stack_end hsz'] at hspace
  rw [newImage, wp_bind, wp_onRam, pgroundup_eq hsz'.le, stack_end hsz']
  refine wp_mono (wp_and halloc hspace) ?_ fun _ _ => trivial
  rintro ⟨d₁, sz₁⟩ m₁ ⟨hsz₁, -, hspace₁⟩
  dsimp only at hsz₁ hspace₁ ⊢
  subst hsz₁
  have hne : (npages sz + 2) * 4096 ≠ 0 := by omega
  obtain ⟨-, hlt, hspace₁, haccessible⟩ := hspace₁ hne
  have hn := hlt.le
  rw [if_neg hne, guard_page, wp_bind, wp_onRam]
  refine wp_imp (wp_clearpteu_guarded hspace₁ hn haccessible) fun d₂ m₂ hguarded => ?_
  rw [pgsize] at hstack
  rw [wp_bind, wp_onRam]
  refine wp_imp (wp_pushArgs_fits hram argv _ [] m₂ hguarded (by omega) le_rfl ?_) ?_
  · rw [List.length_nil]
    omega
  · rintro _ m₃ ⟨sp, ustack, rfl, hpushed, hlow, hle, hlen⟩
    rw [List.length_nil, Nat.zero_add] at hlen
    have hframe := length_stackFrame sp ustack
    rw [hlen] at hframe
    have hbottom : (npages sz + 1) * 4096 + (stackFrame sp ustack).length ≤ sp := by linarith
    have hdown : (sp + (2 ^ 32 - (stackFrame sp ustack).length)) % 2 ^ 32 =
        sp - (stackFrame sp ustack).length := by omega
    have hupper : sp - (stackFrame sp ustack).length + (stackFrame sp ustack).length ≤
        (npages sz + 2) * 4096 := by
      rw [Nat.sub_add_cancel (by omega)]
      exact hle
    dsimp only
    rw [hdown, wp_bind, wp_onRam]
    refine wp_imp (wp_copyout_fits hpushed hram (Nat.le_sub_of_add_le hbottom) (by omega) hupper) ?_
    rintro r m₄ ⟨rfl, -⟩
    rw [if_neg (lt_irrefl _), wp_bind, wp_get, wp_bind, wp_set, wp_bind, wp_onRam]
    exact wp_imp (wp_freevm hold _) fun _ _ _ => rfl

/-- **A file without program headers is run** where there is room. -/
theorem wp_exec_fits {namei : List UInt8 → Option (ℕ × List UInt8)} {path : List UInt8}
    {argv : List (List UInt8)} {ip : ℕ} {c : List UInt8} (hfile : namei path = some (ip, c))
    (hread : (readi c 0 sizeofElfhdr).1 = sizeofElfhdr)
    (hmagic : (elfhdr (readi c 0 sizeofElfhdr).2).magic = elfMagic)
    (hphnum : (elfhdr (readi c 0 sizeofElfhdr).2).phnum = 0)
    (hram : ∀ f ∈ k.ram.freelist, L.IsRam f) (h₀ : k.ram.freelist.Nodup)
    (hold : ∀ f ∈ k.proc.pgdir.pages, L.IsRam f) (hfits : Fits argv)
    (hroom : 1027 < k.ram.freelist.length) :
    wp (exec L namei path argv) (fun _ => True) (fun r _ => r = 0) k := by
  unfold exec
  simp only [call, wp_bind, wp_modify]
  rw [hfile]
  simp only [wp_bind, wp_modify]
  rw [if_neg (not_not.mpr hread), if_neg (not_not.mpr hmagic), hphnum, wp_bind, wp_onRam]
  refine wp_mono (wp_and (wp_setupkvm_space (E := fun _ => True) hram)
    (wp_setupkvm_room (by dsimp only; omega))) ?_ fun _ _ => trivial
  rintro d? m ⟨hspace, hne⟩
  obtain ⟨d, rfl⟩ := Option.ne_none_iff_exists'.mp hne
  dsimp only at hspace ⊢
  have hstock := hspace.owned.perm.length_eq
  rw [PgDir.frames_eq_nil (v := 0) fun v hlo hv => hspace.look_eq_none hv hlo, List.nil_append,
    List.length_cons, List.length_append] at hstock
  rw [wp_bind, wp_onRam, loadProgram, wp_pure]
  simp only [wp_bind, wp_modify]
  refine wp_newImage_fits hram h₀ hold hfits (by decide) hspace ?_
  rw [PgDir.stock]
  dsimp only
  omega

end Specs

/-- **`exec` passes the arguments on.**  Where `exec` returns 0, `main` finds on the stack, from
`esp` on, the arguments of `exec`, as many as there are, and no return address; the strings, the
array and the words before it are at places that have nothing in common, all of them on the one
page that is above the page that is not for the user. -/
theorem exec_passes_arguments (L : Layout) (namei : List UInt8 → Option (ℕ × List UInt8))
    (path : List UInt8) (argv : List (List UInt8)) (k k' : Kernel)
    (hstr : ∀ arg ∈ argv, 0 ∉ arg) (hram : ∀ f ∈ k.ram.freelist, L.IsRam f)
    (h₀ : k.ram.freelist.Nodup)
    (hold : ∀ f ∈ k.proc.pgdir.pages, L.IsRam f ∧ f ∉ k.ram.freelist)
    (hrun : exec L namei path argv k = .ok (0, k')) : ∃ n c, Passed argv n c k' :=
  wp_ok (wp_exec_passed namei path hram h₀ hold hstr) hrun rfl

/-- A file that is a header without program headers. -/
def emptyElf : List UInt8 := [0x7F, 0x45, 0x4C, 0x46] ++ List.replicate 48 0

/-- A process with one page, and room for a program. -/
def roomyKernel : Kernel :=
  ⟨⟨List.range' 0x403 1100, fun _ _ => 0⟩, ⟨⟨onePage, 4096⟩, ⟨0, 0⟩, [105, 110, 105, 116]⟩, []⟩

theorem mem_roomyKernel {f : ℕ} (hf : f ∈ roomyKernel.ram.freelist) : 0x403 ≤ f ∧ f < 0x84f := by
  rw [roomyKernel, List.mem_range'_1] at hf
  exact hf

theorem exec_passes_arguments_roomy : ∃ k' n c,
    exec smallKernel (fun _ => some (2, emptyElf)) [47, 97] [[97], [98, 99]] roomyKernel =
      .ok (0, k') ∧ Passed [[97], [98, 99]] n c k' := by
  have hram : ∀ f ∈ roomyKernel.ram.freelist, smallKernel.IsRam f := fun f hf => by
    have hf := mem_roomyKernel hf
    exact smallKernel_isRam (by omega) (by omega)
  have h₀ : roomyKernel.ram.freelist.Nodup := List.nodup_range'
  have hold : ∀ f ∈ roomyKernel.proc.pgdir.pages, smallKernel.IsRam f ∧
      f ∉ roomyKernel.ram.freelist := fun f hf => by
    have hf := mem_onePage_pages hf
    refine ⟨smallKernel_isRam hf.1 (by omega), fun hfree => ?_⟩
    have hfree := mem_roomyKernel hfree
    omega
  have hroom : 1027 < roomyKernel.ram.freelist.length := by
    rw [roomyKernel, List.length_range']
    norm_num
  have hargv : (([[97], [98, 99]] : List (List UInt8)).map List.length).sum < pgsize := by decide
  obtain ⟨r, k', hrun, -⟩ := exists_of_wp
    (wp_exec (fun _ => some (2, emptyElf)) [47, 97] hram h₀ hargv fun f hf => (hold f hf).1)
  have hzero : r = 0 := wp_ok (wp_exec_fits rfl (by decide) (by decide) (by decide) hram h₀
    (fun f hf => (hold f hf).1) ⟨by decide, by decide⟩ hroom) hrun
  subst hzero
  obtain ⟨n, c, hpassed⟩ := exec_passes_arguments smallKernel (fun _ => some (2, emptyElf))
    [47, 97] [[97], [98, 99]] roomyKernel k' (by decide) hram h₀ hold hrun
  exact ⟨k', n, c, hrun, hpassed⟩

end Exec
end Xv6
