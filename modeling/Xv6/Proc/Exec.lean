import Xv6.Lib.Bytes
import Xv6.Vm.Traded

/-!
# Running a program

`exec` of `exec.c`.  The file is any list of bytes: the numbers of its headers are what it
says they are.

* `Elfhdr`, `Proghdr` — the headers.
* `loadProgram`, `pushArgs`, `exec` — the code.
* `wp_loadProgram`, `wp_pushArgs` — the loops keep the invariant of the page directory.
* `exec_fails_cleanly` — **what `exec` leaves behind where it fails.**
-/

namespace Xv6
namespace Exec

open Prog Bytes Vm

/-! ### Headers -/

/-- A number of a header: `k` bytes from `off` on. -/
def field (bs : List UInt8) (off k : ℕ) : ℕ := ofLe ((bs.drop off).take k)

/-- `ELF_MAGIC` -/
def elfMagic : ℕ := 0x464C457F

/-- `ELF_PROG_LOAD` -/
def elfProgLoad : ℕ := 1

/-- `struct elfhdr` -/
structure Elfhdr where
  magic : ℕ
  entry : ℕ
  phoff : ℕ
  phnum : ℕ

/-- `sizeof(struct elfhdr)` -/
def sizeofElfhdr : ℕ := 52

def elfhdr (bs : List UInt8) : Elfhdr where
  magic := field bs 0 4
  entry := field bs 24 4
  phoff := field bs 28 4
  phnum := field bs 44 2

/-- `struct proghdr` -/
structure Proghdr where
  type : ℕ
  off : ℕ
  vaddr : ℕ
  filesz : ℕ
  memsz : ℕ

/-- `sizeof(struct proghdr)` -/
def sizeofProghdr : ℕ := 32

def proghdr (bs : List UInt8) : Proghdr where
  type := field bs 0 4
  off := field bs 4 4
  vaddr := field bs 8 4
  filesz := field bs 16 4
  memsz := field bs 20 4

/-! ### The process and the calls of the file system -/

/-- The registers of the trap frame that `exec` sets. -/
structure Trapframe where
  eip : ℕ
  esp : ℕ

/-- The parts of `struct proc` that `exec` sets. -/
structure Process extends Proc where
  tf : Trapframe
  name : List UInt8

/-- A call of the file system, with the number of the inode. -/
inductive FsCall
  | beginOp
  | namei (path : List UInt8)
  | ilock (ip : ℕ)
  | iunlockput (ip : ℕ)
  | endOp
  deriving DecidableEq

/-- The state: the memory, the process, and the calls so far. -/
structure Kernel where
  ram : Ram
  proc : Process
  calls : List FsCall

abbrev ExecProg (α : Type) := Prog Kernel Panic α

def onRam {α : Type} (x : Kern α) : ExecProg α :=
  zoom Kernel.ram (fun m k => { k with ram := m }) x

def call (c : FsCall) : ExecProg Unit := modify fun k => { k with calls := k.calls ++ [c] }

/-! ### The code -/

/-- The loop that loads the segments: the page directory, and the size, or `none` for
`goto bad`.  There are `n` program headers left. -/
def loadProgram (L : Layout) (c : List UInt8) :
    (n off : ℕ) → PgDir → ℕ → Kern (PgDir × Option ℕ)
  | 0, _, pgdir, sz => return (pgdir, some sz)
  | n + 1, off, pgdir, sz =>
      let r := readi c off sizeofProghdr
      let ph := proghdr r.2
      let next := (off + sizeofProghdr) % 2 ^ 32
      if r.1 ≠ sizeofProghdr then return (pgdir, none)
      else if ph.type ≠ elfProgLoad then loadProgram L c n next pgdir sz
      else if ph.memsz < ph.filesz then return (pgdir, none)
      else if (ph.vaddr + ph.memsz) % 2 ^ 32 < ph.vaddr then return (pgdir, none)
      else do
        let (pgdir, sz) ← allocuvm L pgdir sz ((ph.vaddr + ph.memsz) % 2 ^ 32)
        if sz = 0 then return (pgdir, none)
        else if ph.vaddr % pgsize ≠ 0 then return (pgdir, none)
        else
          let ok ← loaduvm pgdir ph.vaddr c ph.off ph.filesz
          if ok then loadProgram L c n next pgdir sz else return (pgdir, none)

/-- `MAXARG` -/
def maxarg : ℕ := 32

/-- The loop that pushes the argument strings: `sp`, and the pointers to them, or `none` for
`goto bad`. -/
def pushArgs (pgdir : PgDir) : List (List UInt8) → ℕ → List ℕ → Kern (Option (ℕ × List ℕ))
  | [], sp, ustack => return some (sp, ustack)
  | arg :: argv, sp, ustack =>
      if ustack.length ≥ maxarg then return none
      else do
        let sp := (sp + (2 ^ 32 - (arg.length + 1))) % 2 ^ 32 / 4 * 4
        let r ← copyout pgdir sp (arg ++ [0])
        if r < 0 then return none else pushArgs pgdir argv sp (ustack ++ [sp])

/-- The rest of the stack: the return address, `argc`, `argv` and the pointers. -/
def stackFrame (sp : ℕ) (ustack : List ℕ) : List UInt8 :=
  ([0xffffffff, ustack.length, (sp + (2 ^ 32 - (ustack.length + 1) * 4)) % 2 ^ 32] ++ ustack ++
    [0]).flatMap (toLe 4)

/-- The name behind the last slash. -/
def lastName : List UInt8 → List UInt8 → List UInt8
  | [], last => last
  | c :: s, last => lastName s (if c = 47 then s else last)

/-- `if(pgdir) freevm(pgdir);` -/
def freePgdir (L : Layout) : Option PgDir → ExecProg Unit
  | some d => onRam (freevm L d)
  | none => return ()

/-- `if(ip){ iunlockput(ip); end_op(); }` -/
def putFile : Option ℕ → ExecProg Unit
  | some ip => do
      call (.iunlockput ip)
      call .endOp
  | none => return ()

/-- `bad:` -/
def bad (L : Layout) (pgdir : Option PgDir) (ip : Option ℕ) : ExecProg ℤ := do
  freePgdir L pgdir
  putFile ip
  return -1

/-- The part of `exec` behind the file: the stack, and the new image. -/
def newImage (L : Layout) (path : List UInt8) (argv : List (List UInt8)) (entry : ℕ)
    (pgdir : PgDir) (sz : ℕ) : ExecProg ℤ := do
  let (pgdir, sz) ← onRam (allocuvm L pgdir (pgroundup sz) ((pgroundup sz + 2 * pgsize) % 2 ^ 32))
  if sz = 0 then bad L (some pgdir) none
  else do
    let pgdir ← onRam (clearpteu pgdir (sz - 2 * pgsize))
    match ← onRam (pushArgs pgdir argv sz []) with
    | none => bad L (some pgdir) none
    | some (sp, ustack) => do
        let frame := stackFrame sp ustack
        let sp := (sp + (2 ^ 32 - frame.length)) % 2 ^ 32
        let r ← onRam (copyout pgdir sp frame)
        if r < 0 then bad L (some pgdir) none
        else do
          let k ← get
          -- safestrcpy keeps 15 bytes of the name
          set { k with proc := ⟨⟨pgdir, sz⟩, ⟨entry, sp⟩, (lastName path path).take 15⟩ }
          onRam (freevm L k.proc.pgdir)
          return 0

/-- `exec`; `namei` gives the number of an inode and the content of the file. -/
def exec (L : Layout) (namei : List UInt8 → Option (ℕ × List UInt8)) (path : List UInt8)
    (argv : List (List UInt8)) : ExecProg ℤ := do
  call .beginOp
  call (.namei path)
  match namei path with
  | none => do
      call .endOp
      return -1
  | some (ip, c) => do
      call (.ilock ip)
      let r := readi c 0 sizeofElfhdr
      let elf := elfhdr r.2
      if r.1 ≠ sizeofElfhdr then bad L none (some ip)
      else if elf.magic ≠ elfMagic then bad L none (some ip)
      else do
        match ← onRam (setupkvm L) with
        | none => bad L none (some ip)
        | some pgdir => do
            let (pgdir, sz) ← onRam (loadProgram L c elf.phnum elf.phoff pgdir 0)
            match sz with
            | none => bad L (some pgdir) (some ip)
            | some sz => do
                call (.iunlockput ip)
                call .endOp
                newImage L path argv elf.entry pgdir sz

/-! ### The page directory -/

section Specs

variable {L : Layout} {E : Panic → Prop} {s₀ s : Ram} {pgdir : PgDir} {k : Kernel}

theorem field_lt (bs : List UInt8) (off : ℕ) : field bs off 4 < 2 ^ 32 := by
  have hlen : ((bs.drop off).take 4).length ≤ 4 := List.length_take_le 4 _
  calc field bs off 4 < 256 ^ ((bs.drop off).take 4).length := ofLe_lt _
    _ ≤ 256 ^ 4 := Nat.pow_le_pow_right (by decide) hlen
    _ = 2 ^ 32 := by norm_num

/-- **The loop that loads the segments.** -/
theorem wp_loadProgram (hram : ∀ f ∈ s₀.freelist, L.IsRam f) (h₀ : s₀.freelist.Nodup)
    (c : List UInt8) : ∀ (n off : ℕ) (pgdir : PgDir) (sz : ℕ) (s : Ram), sz < kernbase →
    Space L s₀ (npages sz) pgdir s →
    wp (loadProgram L c n off pgdir sz) E (fun r s' => Owned s₀ r.1 s' ∧
      ∀ sz', r.2 = some sz' → sz' < kernbase ∧ Space L s₀ (npages sz') r.1 s') s := by
  intro n
  induction n with
  | zero =>
    intro off pgdir sz s hsz h
    rw [loadProgram, wp_pure]
    refine ⟨h.owned, fun sz' hsz' => ?_⟩
    rw [← Option.some.inj hsz']
    exact ⟨hsz, h⟩
  | succ n ih =>
    intro off pgdir sz s hsz h
    have hbad : ∀ {d : PgDir} {s' : Ram}, Owned s₀ d s' →
        wp (pure (d, none) : Kern (PgDir × Option ℕ)) E (fun r s' => Owned s₀ r.1 s' ∧
          ∀ sz', r.2 = some sz' → sz' < kernbase ∧ Space L s₀ (npages sz') r.1 s') s' :=
      fun howned => ⟨howned, fun _ hsome => by cases hsome⟩
    rw [loadProgram]
    generalize hph : proghdr (readi c off sizeofProghdr).2 = ph
    have hvaddr : ph.vaddr < 2 ^ 32 := by
      rw [← hph]
      exact field_lt _ _
    have hmemsz : ph.memsz < 2 ^ 32 := by
      rw [← hph]
      exact field_lt _ _
    simp only [wp_ite]
    refine ⟨fun _ => hbad h.owned, fun _ => ⟨fun _ => ih _ _ _ _ hsz h, fun _ =>
      ⟨fun _ => hbad h.owned, fun hfile => ⟨fun _ => hbad h.owned, fun hwrap => ?_⟩⟩⟩⟩
    -- the segment ends below 2^32
    have hend : (ph.vaddr + ph.memsz) % 2 ^ 32 = ph.vaddr + ph.memsz := by omega
    rw [hend, wp_bind]
    refine wp_imp (wp_allocuvm_space h hsz.le hram h₀ _) ?_
    rintro ⟨d, sz'⟩ s' ⟨howned, hspace⟩
    dsimp only at howned hspace ⊢
    simp only [wp_ite]
    refine ⟨fun _ => hbad howned, fun hne => ⟨fun _ => hbad howned, fun haligned => ?_⟩⟩
    obtain ⟨hlt, hmax, hspace⟩ := hspace hne
    have hsz' : sz' < kernbase := by omega
    have hpages : sz' ≤ npages sz' * 4096 := by
      rw [npages]
      omega
    rw [wp_bind]
    refine wp_imp (wp_loaduvm hspace hram (npages_le hsz'.le) (not_not.mp haligned) (by omega) c
      ph.off) fun ok s'' hloaded => ?_
    cases ok with
    | true => exact ih _ _ _ _ hsz' hloaded
    | false => exact hbad hloaded.owned

/-- **The loop that pushes the arguments** stays on the pages below the size, as long as the
strings fit. -/
theorem wp_pushArgs {n : ℕ} (hram : ∀ f ∈ s₀.freelist, L.IsRam f) (hn : n ≤ 2 ^ 19) :
    ∀ (argv : List (List UInt8)) (sp : ℕ) (ustack : List ℕ) (s : Ram), Space L s₀ n pgdir s →
    sp ≤ n * 4096 → ustack.length ≤ maxarg →
    (argv.map List.length).sum + 4 * (maxarg - ustack.length) + 4 * (maxarg + 4) ≤ sp →
    wp (pushArgs pgdir argv sp ustack) E (fun r s' => Space L s₀ n pgdir s' ∧
      ∀ sp' ustack', r = some (sp', ustack') →
        sp' ≤ n * 4096 ∧ ustack'.length ≤ maxarg ∧ 4 * (maxarg + 4) ≤ sp') s := by
  intro argv
  induction argv with
  | nil =>
    intro sp ustack s h hsp hlen hroom
    rw [pushArgs, wp_pure]
    refine ⟨h, fun sp' ustack' hsome => ?_⟩
    cases hsome
    exact ⟨hsp, hlen, (Nat.le_add_left _ _).trans hroom⟩
  | cons arg argv ih =>
    intro sp ustack s h hsp hlen hroom
    rw [List.map_cons, List.sum_cons] at hroom
    rw [pushArgs, wp_ite]
    refine ⟨fun _ => ⟨h, fun _ _ hsome => (by cases hsome)⟩, fun hmore => ?_⟩
    have hpush : (sp + (2 ^ 32 - (arg.length + 1))) % 2 ^ 32 / 4 * 4 =
        (sp - (arg.length + 1)) / 4 * 4 := by
      rw [show sp + (2 ^ 32 - (arg.length + 1)) = sp - (arg.length + 1) + 2 ^ 32 by omega,
        Nat.add_mod_right, Nat.mod_eq_of_lt (by omega)]
    have hstr : (arg ++ [0]).length = arg.length + 1 := by simp
    rw [hpush, wp_bind]
    refine wp_imp (wp_copyout_space h hram hn (by rw [hstr]; omega)) fun r s' h' => ?_
    rw [wp_ite]
    refine ⟨fun _ => ⟨h', fun _ _ hsome => (by cases hsome)⟩, fun _ => ?_⟩
    have hlen' : (ustack ++ [(sp - (arg.length + 1)) / 4 * 4]).length = ustack.length + 1 := by
      simp
    rw [maxarg] at hmore hroom ih
    exact ih _ _ _ h' (by omega) (by omega) (by omega)

theorem length_stackFrame (sp : ℕ) (ustack : List ℕ) :
    (stackFrame sp ustack).length = 4 * (ustack.length + 4) := by
  rw [stackFrame, List.length_flatMap]
  simp
  omega

/-! ### The whole -/

theorem wp_onRam {α : Type} (x : Kern α) (Q : α → Kernel → Prop) :
    wp (onRam x) E Q k ↔ wp x E (fun a m => Q a { k with ram := m }) k.ram :=
  wp_zoom _ _ x Q

/-- The calls that give a file back. -/
def giveBack : Option ℕ → List FsCall
  | some ip => [.iunlockput ip, .endOp]
  | none => []

theorem wp_putFile (ip : Option ℕ) (Q : Unit → Kernel → Prop) :
    wp (putFile ip) E Q k ↔ Q () { k with calls := k.calls ++ giveBack ip } := by
  cases ip with
  | some ip =>
    rw [putFile, call, call, wp_bind, wp_modify, wp_modify]
    dsimp only
    rw [List.append_assoc]
    rfl
  | none =>
    rw [putFile, wp_pure, giveBack, List.append_nil]

theorem wp_freePgdir {d? : Option PgDir} (hram : ∀ f ∈ s₀.freelist, L.IsRam f)
    (hsome : ∀ d, d? = some d → Owned s₀ d k.ram) (hnone : d? = none → Restored s₀ k.ram) :
    wp (freePgdir L d?) E (fun _ k' => ∃ m, Restored s₀ m ∧ k' = { k with ram := m }) k := by
  cases d? with
  | some d =>
    rw [freePgdir, wp_onRam]
    exact wp_imp (wp_freevm_owned (hsome d rfl) hram) fun _ m hm => ⟨m, hm, rfl⟩
  | none => exact ⟨k.ram, hnone rfl, rfl⟩

/-- The end of `exec`: 0 and the process has a new image, or −1 and nothing has changed but the
calls. -/
structure Ended (L : Layout) (s₀ : Ram) (k : Kernel) (calls : List FsCall) (r : ℤ) (k' : Kernel) :
    Prop where
  calls : k'.calls = k.calls ++ calls
  ret : r = 0 ∨ r = -1
  proc : r = -1 → k'.proc = k.proc
  restored : r = -1 → Restored s₀ k'.ram
  replaced : r = 0 → Traded k.proc.pgdir.pages s₀ k'.proc.pgdir.pages k'.ram ∧
    k'.proc.toProc.Fits L

theorem Ended.trans {calls calls' : List FsCall} {r : ℤ} {k' : Kernel}
    (h : Ended L s₀ { k with calls := k.calls ++ calls } calls' r k') :
    Ended L s₀ k (calls ++ calls') r k' :=
  ⟨by rw [h.calls, List.append_assoc], h.ret, h.proc, h.restored, h.replaced⟩

/-- **`bad:`** gives back what there is. -/
theorem wp_bad {d? : Option PgDir} {m : Ram} (ip : Option ℕ)
    (hram : ∀ f ∈ s₀.freelist, L.IsRam f) (hsome : ∀ d, d? = some d → Owned s₀ d m)
    (hnone : d? = none → Restored s₀ m) :
    wp (bad L d? ip) E (Ended L s₀ k (giveBack ip)) { k with ram := m } := by
  rw [bad, wp_bind]
  refine wp_imp (wp_freePgdir hram hsome hnone) ?_
  rintro _ _ ⟨m', hm, rfl⟩
  rw [wp_bind, wp_putFile, wp_pure]
  exact ⟨rfl, .inr rfl, fun _ => rfl, fun _ => hm, fun hr => absurd hr (by decide)⟩

theorem wp_bad_some {d : PgDir} {m : Ram} (ip : Option ℕ) (hram : ∀ f ∈ s₀.freelist, L.IsRam f)
    (howned : Owned s₀ d m) :
    wp (bad L (some d) ip) E (Ended L s₀ k (giveBack ip)) { k with ram := m } :=
  wp_bad ip hram (fun _ hd => Option.some.inj hd ▸ howned) fun hd => by cases hd

/-- The two pages behind the program. -/
theorem stack_end {sz : ℕ} (hsz : sz < kernbase) :
    (npages sz * 4096 + 2 * pgsize) % 2 ^ 32 = (npages sz + 2) * 4096 := by
  have hmax := npages_le hsz.le
  rw [pgsize]
  omega

/-- The first one of them. -/
theorem guard_page (n : ℕ) : (n + 2) * 4096 - 2 * pgsize = n * 4096 := by
  rw [pgsize]
  omega

/-- The guard page and the stack page. -/
theorem wp_allocuvm_stack {sz : ℕ} (hram : ∀ f ∈ s₀.freelist, L.IsRam f) (h₀ : s₀.freelist.Nodup)
    (hsz : sz < kernbase) (h : Space L s₀ (npages sz) pgdir s) :
    wp (allocuvm L pgdir (pgroundup sz) ((pgroundup sz + 2 * pgsize) % 2 ^ 32)) E
      (fun r s' => Owned s₀ r.1 s' ∧ (r.2 ≠ 0 → r.2 = (npages sz + 2) * 4096 ∧
        npages sz + 2 < 2 ^ 19 ∧ Space L s₀ (npages sz + 2) r.1 s' ∧
        r.1.Accessible (npages sz + 1))) s := by
  have hmax := npages_le hsz.le
  have hround : npages sz * 4096 ≤ kernbase := by
    rw [kernbase]
    omega
  rw [pgroundup_eq hsz.le, stack_end hsz]
  rw [← npages_page (npages sz)] at h
  rcases Nat.lt_or_ge ((npages sz + 2) * 4096) kernbase with hlt | hge
  · refine wp_mono (wp_and (wp_allocuvm_space (E := E) h hround hram h₀ _)
      (wp_allocuvm_accessible (E := E) h (by omega) hlt hram h₀))
      (fun r s' hr => ⟨hr.1.1, fun hne => ?_⟩)
      fun _ he => he.1
    obtain ⟨-, hsz', hspace⟩ := hr.1.2 hne
    have hsz'' : r.2 = (npages sz + 2) * 4096 := by omega
    rw [hsz'', npages_page] at hspace
    rw [kernbase] at hlt
    exact ⟨hsz'', by omega, hspace, hr.2 hne _ (by rw [npages_page]; omega)
      (by rw [npages_page]; omega)⟩
  · refine wp_imp (wp_allocuvm_space h hround hram h₀ _) fun r s' hr => ⟨hr.1, fun hne => ?_⟩
    exact absurd (hr.2 hne).1 (by omega)

/-- **Behind the file** nothing is left to give back but the memory. -/
theorem wp_newImage {sz : ℕ} (hram : ∀ f ∈ s₀.freelist, L.IsRam f) (h₀ : s₀.freelist.Nodup)
    (hold : ∀ f ∈ k.proc.pgdir.pages, L.IsRam f) (path : List UInt8) {argv : List (List UInt8)}
    (hargv : (argv.map List.length).sum < pgsize) (entry : ℕ) (hsz : sz < kernbase)
    (h : Space L s₀ (npages sz) pgdir k.ram) :
    wp (newImage L path argv entry pgdir sz) E (Ended L s₀ k []) k := by
  rw [newImage, wp_bind, wp_onRam]
  refine wp_imp (wp_allocuvm_stack hram h₀ hsz h) ?_
  rintro ⟨d₁, sz₁⟩ m₁ ⟨howned₁, hspace₁⟩
  dsimp only at howned₁ hspace₁ ⊢
  rw [wp_ite]
  refine ⟨fun _ => wp_bad_some none hram howned₁, fun hne => ?_⟩
  obtain ⟨rfl, hlt, hspace₁, -⟩ := hspace₁ hne
  have hn := hlt.le
  rw [guard_page, wp_bind, wp_onRam]
  refine wp_imp (wp_clearpteu hspace₁ hn (by omega)) fun d₂ m₂ hspace₂ => ?_
  rw [wp_bind, wp_onRam]
  have hroom : (argv.map List.length).sum + 4 * (maxarg - ([] : List ℕ).length) +
      4 * (maxarg + 4) ≤ (npages sz + 2) * 4096 := by
    rw [pgsize] at hargv
    rw [maxarg, List.length_nil]
    omega
  refine wp_imp (wp_pushArgs hram hn argv _ [] m₂ hspace₂ le_rfl (Nat.zero_le _) hroom) ?_
  rintro (_ | ⟨sp, ustack⟩) m₃ ⟨hspace₃, hpushed⟩
  · exact wp_bad_some none hram hspace₃.owned
  · obtain ⟨hsp, hlen, hlow⟩ := hpushed sp ustack rfl
    have hframe := length_stackFrame sp ustack
    have hdown : (sp + (2 ^ 32 - (stackFrame sp ustack).length)) % 2 ^ 32 =
        sp - (stackFrame sp ustack).length := by
      rw [maxarg] at hlen hlow
      omega
    dsimp only
    rw [hdown, wp_bind, wp_onRam]
    refine wp_imp (wp_copyout_space hspace₃ hram hn ?_) fun r m₄ hspace₄ => ?_
    · rw [maxarg] at hlen hlow
      omega
    · rw [wp_ite]
      refine ⟨fun _ => wp_bad_some none hram hspace₄.owned, fun _ => ?_⟩
      -- the new image is in place, and the old one is freed
      rw [wp_bind, wp_get, wp_bind, wp_set, wp_bind, wp_onRam]
      refine wp_imp (wp_freevm hold _) fun _ m₅ hfreed => ?_
      rw [wp_pure]
      refine ⟨(List.append_nil _).symm, .inl rfl, fun hr => absurd hr (by decide),
        fun hr => absurd hr (by decide), fun _ => ⟨hspace₄.owned.replaced hfreed, hspace₄.fits ?_⟩⟩
      rw [kernbase]
      omega

/-- The calls of the file system in a run of `exec`: the reference of `namei` is dropped, and
`end_op` comes once, and last. -/
def execCalls (path : List UInt8) : Option (ℕ × List UInt8) → List FsCall
  | none => [.beginOp, .namei path, .endOp]
  | some (ip, _) => [.beginOp, .namei path, .ilock ip, .iunlockput ip, .endOp]

/-- `exec` of a file that has been found. -/
theorem wp_exec (namei : List UInt8 → Option (ℕ × List UInt8)) (path : List UInt8)
    {argv : List (List UInt8)} (hram : ∀ f ∈ k.ram.freelist, L.IsRam f)
    (h₀ : k.ram.freelist.Nodup) (hargv : (argv.map List.length).sum < pgsize)
    (hold : ∀ f ∈ k.proc.pgdir.pages, L.IsRam f) :
    wp (exec L namei path argv) E (Ended L k.ram k (execCalls path (namei path))) k := by
  unfold exec
  simp only [call, wp_bind, wp_modify]
  cases hfile : namei path with
  | none =>
    simp only [wp_bind, wp_modify, wp_pure]
    refine ⟨?_, .inr rfl, fun _ => rfl, fun _ => ⟨.refl _, fun _ _ => rfl⟩,
      fun hr => absurd hr (by decide)⟩
    simp [execCalls]
  | some file =>
    obtain ⟨ip, c⟩ := file
    simp only [wp_bind, wp_modify]
    have hcalls : k.calls ++ [FsCall.beginOp] ++ [FsCall.namei path] ++ [FsCall.ilock ip] =
        k.calls ++ [FsCall.beginOp, FsCall.namei path, FsCall.ilock ip] := by simp
    -- until the file is given back, `bad:` does it
    have hbad : ∀ (d? : Option PgDir) (m : Ram), (∀ d, d? = some d → Owned k.ram d m) →
        (d? = none → Restored k.ram m) →
        wp (bad L d? (some ip)) E (Ended L k.ram k (execCalls path (some (ip, c))))
          ⟨m, k.proc, k.calls ++ [.beginOp, .namei path, .ilock ip]⟩ := by
      intro d? m hsome hnone
      refine wp_imp (wp_bad (k := { k with calls := k.calls ++ [.beginOp, .namei path, .ilock ip] })
        (some ip) hram hsome hnone) fun r k' hend => ?_
      have htrans := hend.trans
      exact htrans
    have hfirst := hbad none k.ram (fun _ hd => by cases hd) fun _ => ⟨.refl _, fun _ _ => rfl⟩
    rw [hcalls, wp_ite]
    refine ⟨fun _ => hfirst, fun _ => ?_⟩
    rw [wp_ite]
    refine ⟨fun _ => hfirst, fun _ => ?_⟩
    rw [wp_bind, wp_onRam]
    refine wp_imp (wp_setupkvm_space hram) fun d? m hd => ?_
    cases d? with
    | none => exact hbad none m (fun _ hd => by cases hd) fun _ => hd
    | some d =>
      rw [wp_bind, wp_onRam]
      refine wp_imp (wp_loadProgram hram h₀ c _ _ d 0 m (by decide) hd) ?_
      rintro ⟨d', sz⟩ m' ⟨howned, hloaded⟩
      cases sz with
      | none =>
        exact hbad (some d') m' (fun _ hd => Option.some.inj hd ▸ howned) fun hd => by cases hd
      | some sz =>
        have hspace := hloaded sz rfl
        simp only [wp_bind, wp_modify]
        have himage := @wp_newImage L E k.ram d' ⟨m', k.proc, k.calls ++
          [.beginOp, .namei path, .ilock ip] ++ [.iunlockput ip] ++ [.endOp]⟩ sz hram h₀ hold path
          argv hargv (elfhdr (readi c 0 sizeofElfhdr).2).entry hspace.1 hspace.2
        refine wp_imp himage fun r k' hend =>
          ⟨?_, hend.ret, hend.proc, hend.restored, hend.replaced⟩
        rw [hend.calls]
        simp [execCalls]

end Specs

/-- **`exec` fails cleanly.**  For every file, whatever its bytes, and all arguments whose
strings are less than a page in all, `exec` ends without a panic.  The reference to the file has
been dropped, and the transaction been ended once; where −1 is returned the process is as it
was, and so are the free pages and the pages in use. -/
theorem exec_fails_cleanly (L : Layout) (namei : List UInt8 → Option (ℕ × List UInt8))
    (path : List UInt8) (argv : List (List UInt8)) (k : Kernel)
    (hargv : (argv.map List.length).sum < pgsize)
    (hram : ∀ f ∈ k.ram.freelist, L.IsRam f) (h₀ : k.ram.freelist.Nodup)
    (hold : ∀ f ∈ k.proc.pgdir.pages, L.IsRam f) :
    ∃ r k', exec L namei path argv k = .ok (r, k') ∧ (r = 0 ∨ r = -1) ∧
      k'.calls = k.calls ++ execCalls path (namei path) ∧
      (r = -1 → k'.proc = k.proc ∧ Restored k.ram k'.ram) := by
  obtain ⟨r, k', hrun, hend⟩ := exists_of_wp (wp_exec namei path hram h₀ hargv hold)
  exact ⟨r, k', hrun, hend.ret, hend.calls, fun hr => ⟨hend.proc hr, hend.restored hr⟩⟩

/-- A process with one page, two free pages, and no calls so far. -/
def onePageKernel : Kernel :=
  ⟨⟨[0x403, 0x404], fun _ _ => 0⟩, ⟨⟨onePage, 4096⟩, ⟨0, 0⟩, [105, 110, 105, 116]⟩, []⟩

theorem exec_fails_cleanly_truncated : ∃ r k',
    exec smallKernel (fun _ => some (2, [0x7F, 0x45, 0x4C, 0x46])) [47, 97] [[97]] onePageKernel =
      .ok (r, k') ∧ (r = 0 ∨ r = -1) ∧
      k'.calls = onePageKernel.calls ++ execCalls [47, 97] (some (2, [0x7F, 0x45, 0x4C, 0x46])) ∧
      (r = -1 → k'.proc = onePageKernel.proc ∧ Restored onePageKernel.ram k'.ram) := by
  refine exec_fails_cleanly smallKernel (fun _ => some (2, [0x7F, 0x45, 0x4C, 0x46])) [47, 97]
    [[97]] onePageKernel (by decide) (fun f hf => ?_) (by decide) fun f hf => ?_
  · simp only [onePageKernel, List.mem_cons, List.not_mem_nil, or_false] at hf
    exact smallKernel_isRam (by omega) (by omega)
  · have hf := mem_onePage_pages hf
    exact smallKernel_isRam hf.1 (by omega)

end Exec
end Xv6
