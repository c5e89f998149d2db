import Xv6.Basic
import Xv6.Lib.Ledger
import Xv6.Lib.Machine
import Xv6.Proc.Exec
import Xv6.Proc.Lifecycle
import Xv6.Vm.Room

/-!
# Private memory

The calls that give memory to a process and take it away, and the loads and stores of its
program, for all processes of the table.  A call runs to its end before the next one begins.

## Main definitions

* `Proc`, `State`, `step` — the processes with their memory, and the calls.
* `Memories.Step` — the calls, for processes that each have a memory of their own.
* `Inv` — no page is in two places, and each process has the pages below its size.

## Main results

* `Inv.put` — the other processes keep their memory when one of them trades pages.
* `wp_fork`, `wp_sbrk`, `wp_exec`, `wp_wait`, … — **every call keeps the invariant.**
* `memory_is_private` — the processes see memories of their own, no page is lost, and nothing
  panics, unless a process shrinks to nothing.
-/

namespace Xv6
namespace AddressSpace

open Prog Machine Vm
open Lifecycle (Slot initproc)

/-! ### The code -/

/-- `struct proc`, in a slot that is not `UNUSED`. -/
structure Proc extends Exec.Process where
  kstack : ℕ
  parent : Option Slot
  zombie : Bool

structure State where
  ram : Ram
  proc : Slot → Option Proc

inductive Call
  /-- A load of the program of a process. -/
  | load (p : Slot) (va : UInt32)
  | store (p : Slot) (va : UInt32) (b : UInt8)
  | fork (p : Slot)
  | sbrk (p : Slot) (n : Int32)
  /-- `exec`, with what `namei` finds. -/
  | exec (p : Slot) (path : List UInt8) (file : Option (ℕ × List UInt8))
      (argv : List (List UInt8))
  | exit (p : Slot)
  | wait (p : Slot)
  deriving DecidableEq

/-- The process that makes the call. -/
def Call.caller : Call → Slot
  | .load p _ | .store p _ _ | .fork p | .sbrk p _ | .exec p _ _ _ | .exit p | .wait p => p

inductive Answer
  | byte (b : UInt8)
  | fault
  | done
  | ret (r : ℤ)
  /-- The process whose pid is returned. -/
  | child (q : Slot)
  /-- `wait` sleeps, and begins again when it is woken up. -/
  | asleep

/-- Code of the kernel. -/
abbrev Code := Prog State Panic Answer

def onRam {α : Type} (x : Kern α) : Prog State Panic α :=
  zoom State.ram (fun m s => { s with ram := m }) x

def setProc (p : Slot) (x : Option Proc) : Prog State Panic Unit :=
  modify fun s => { s with proc := Function.update s.proc p x }

/-- `PTE_W` is set. -/
def writable (e : Pte) : Bool := e.flags.testBit 1

/-- The program reads a byte. -/
def load (x : Proc) (va : UInt32) : Code := do
  let s ← get
  let e := x.pgdir.at (va.toNat / pgsize)
  if e.present && e.user then return .byte (s.ram.page e.frame (va.toNat % pgsize))
  else return .fault

/-- The program writes a byte. -/
def store (x : Proc) (va : UInt32) (b : UInt8) : Code := do
  let e := x.pgdir.at (va.toNat / pgsize)
  if e.present && e.user && writable e then
    onRam (modify fun m => m.write e.frame (va.toNat % pgsize) [b])
    return .done
  else return .fault

/-- `allocproc`: the slot, and the page of the kernel stack. -/
def allocproc : Prog State Panic (Option (Slot × ℕ)) := do
  let s ← get
  match Table.find fun q => (s.proc q).isNone with
  | none => return none
  | some q =>
      match ← onRam kalloc with
      | none => return none
      | some f => return some (q, f)

/-- `inituvm`, or `none` where it panics. -/
def inituvm (d : PgDir) (init : List UInt8) : Kern (Option PgDir) :=
  if init.length ≥ pgsize then return none
  else do
    match ← kalloc with
    -- the page is not tested, and page 0 is written
    | none => return none
    | some mem =>
        fill mem fun _ => 0
        let (d, _) ← mappages d 0 pgsize mem (pteW ||| pteU)
        memmove (p2v mem) init
        return some d

/-- `userinit`, with the slot of the process, or `none` where it panics. -/
def userinit (L : Layout) (init : List UInt8) : Prog State Panic (Option Slot) := do
  match ← allocproc with
  | none => return none
  | some (p, kstack) =>
      match ← onRam (setupkvm L) with
      | none => return none
      | some d =>
          match ← onRam (inituvm d init) with
          | none => return none
          | some d =>
              setProc p (some ⟨⟨⟨d, pgsize⟩, ⟨0, pgsize⟩, str "initcode"⟩, kstack, none, false⟩)
              return some p

/-- `fork` -/
def fork (L : Layout) (p : Slot) (x : Proc) : Code := do
  match ← allocproc with
  | none => return .ret (-1)
  | some (np, kstack) =>
      match ← onRam (copyuvm L x.pgdir x.sz) with
      | none =>
          onRam (kfree L kstack)
          return .ret (-1)
      | some d =>
          setProc np (some { x with pgdir := d, kstack := kstack, parent := some p })
          return .child np

/-- `sys_sbrk` -/
def sbrk (L : Layout) (p : Slot) (x : Proc) (n : Int32) : Code := do
  let (y, r) ← onRam (growproc L x.toProc n)
  setProc p (some { x with toProc := y })
  if r < 0 then return .ret (-1) else return .ret x.sz

/-- `exec`; what it does with the file is left out here. -/
def exec (L : Layout) (p : Slot) (x : Proc) (path : List UInt8)
    (file : Option (ℕ × List UInt8)) (argv : List (List UInt8)) : Code := do
  let r ← zoom (fun s => ⟨s.ram, x.toProcess, []⟩)
    (fun (k : Exec.Kernel) s =>
      ⟨k.ram, Function.update s.proc p (some { x with toProcess := k.proc })⟩)
    (Exec.exec L (fun _ => file) path argv)
  return .ret r

/-- A child of `p` is given to `initproc`. -/
def abandon (p : Slot) (y : Proc) : Proc :=
  if y.parent = some p then { y with parent := some initproc } else y

/-- `exit` -/
def exit (p : Slot) (x : Proc) : Code := do
  modify fun s => { s with proc := fun q => (s.proc q).map (abandon p) }
  setProc p (some { x with zombie := true })
  return .done

/-- `wait` -/
def wait (L : Layout) (p : Slot) : Code := do
  let s ← get
  match Table.find fun q => (s.proc q).any fun y => y.parent == some p && y.zombie with
  | some q =>
      match s.proc q with
      | some y =>
          onRam (kfree L y.kstack)
          onRam (freevm L y.pgdir)
          setProc q none
          return .child q
      | none => return .asleep
  | none =>
      match Table.find fun q => (s.proc q).any fun y => y.parent == some p with
      | some _ => return .asleep
      | none => return .ret (-1)

/-- What a call does, once the process that makes it is known. -/
def code (L : Layout) (x : Proc) : Call → Code
  | .load _ va => load x va
  | .store _ va b => store x va b
  | .fork p => fork L p x
  | .sbrk p n => sbrk L p x n
  | .exec p path file argv => exec L p x path file argv
  | .exit p => exit p x
  | .wait p => wait L p

/-- A call of a process that runs, unless it panics.  `exit` panics in `initproc`. -/
def step (L : Layout) (s : State) (c : Call) : Option (State × Answer) :=
  match s.proc c.caller with
  | none => none
  | some x =>
      if x.zombie then none
      else if c = .exit initproc then none
      else
        match code L x c s with
        | .ok (a, s') => some (s', a)
        | .error _ => none

/-! ### Memories -/

/-- A process, and its memory as it sees it. -/
structure Memory where
  image : Image
  exited : Bool

abbrev Memories := Slot → Option Memory

/-- A byte is read. -/
def read (x : Image) (va : UInt32) : Answer :=
  match x.page (va.toNat / pgsize) with
  | some pg => if pg.flags.testBit 2 then .byte (pg.bytes (va.toNat % pgsize)) else .fault
  | none => .fault

/-- A byte is written, if it may be. -/
def write (x : Image) (va : UInt32) (b : UInt8) : Option Image :=
  match x.page (va.toNat / pgsize) with
  | some pg =>
      let bytes := Function.update pg.bytes (va.toNat % pgsize) b
      if pg.flags.testBit 2 && pg.flags.testBit 1 then
        some ⟨x.sz, Function.update x.page (va.toNat / pgsize) (some ⟨pg.flags, bytes⟩)⟩
      else none
  | none => none

/-- **Processes with memories of their own.**  Where the kernel has no memory left, a call returns
−1 and nothing has changed. -/
inductive Memories.Step (m : Memories) : Call → Memories → Answer → Prop
  | load {p : Slot} {x : Image} (va : UInt32) (h : m p = some ⟨x, false⟩) :
      Step m (.load p va) m (read x va)
  | store {p : Slot} {x y : Image} {va : UInt32} {b : UInt8} (h : m p = some ⟨x, false⟩)
      (hy : write x va b = some y) :
      Step m (.store p va b) (Function.update m p (some ⟨y, false⟩)) .done
  | fault {p : Slot} {x : Image} {va : UInt32} {b : UInt8} (h : m p = some ⟨x, false⟩)
      (hy : write x va b = none) : Step m (.store p va b) m .fault
  /-- The child has a copy of the memory. -/
  | forked {p q : Slot} {x : Image} (h : m p = some ⟨x, false⟩) (hq : m q = none) :
      Step m (.fork p) (Function.update m q (some ⟨x, false⟩)) (.child q)
  | notForked (p : Slot) : Step m (.fork p) m (.ret (-1))
  | resized {p : Slot} {x : Image} {n : Int32} (h : m p = some ⟨x, false⟩)
      (hn : 0 ≤ (x.sz : ℤ) + n.toInt) :
      Step m (.sbrk p n)
        (Function.update m p (some ⟨x.resize ((x.sz : ℤ) + n.toInt).toNat, false⟩)) (.ret x.sz)
  /-- A size below 0 is a size above the old one, to which nothing shrinks. -/
  | negative {p : Slot} {x : Image} {n : Int32} (h : m p = some ⟨x, false⟩)
      (hn : (x.sz : ℤ) + n.toInt < 0) : Step m (.sbrk p n) m (.ret x.sz)
  | notResized (p : Slot) (n : Int32) : Step m (.sbrk p n) m (.ret (-1))
  /-- A new program has the pages below its size, and none of the old memory. -/
  | replaced {p : Slot} {x y : Image} {path : List UInt8} {file : Option (ℕ × List UInt8)}
      {argv : List (List UInt8)} (h : m p = some ⟨x, false⟩)
      (hy : ∀ v, (y.page v).isSome ↔ v < npages y.sz) :
      Step m (.exec p path file argv) (Function.update m p (some ⟨y, false⟩)) (.ret 0)
  | notReplaced (p : Slot) (path : List UInt8) (file : Option (ℕ × List UInt8))
      (argv : List (List UInt8)) : Step m (.exec p path file argv) m (.ret (-1))
  | exited {p : Slot} {x : Image} (h : m p = some ⟨x, false⟩) :
      Step m (.exit p) (Function.update m p (some ⟨x, true⟩)) .done
  /-- Only the memory of a process that has exited is taken from it. -/
  | reaped {q : Slot} {x : Image} (p : Slot) (h : m q = some ⟨x, true⟩) :
      Step m (.wait p) (Function.update m q none) (.child q)
  | asleep (p : Slot) : Step m (.wait p) m .asleep
  | noChild (p : Slot) : Step m (.wait p) m (.ret (-1))

def Proc.memory (m : Ram) (x : Proc) : Memory := ⟨x.toProc.image m, x.zombie⟩

def State.memories (s : State) : Memories := fun p => (s.proc p).map (Proc.memory s.ram)

/-! ### The invariant -/

/-- The pages of a slot. -/
def pagesOf : Option Proc → List ℕ
  | some x => x.kstack :: x.pgdir.pages
  | none => []

/-- All pages, in use and free. -/
def State.pages (s : State) : Multiset ℕ :=
  Ledger.total (fun p => pagesOf (s.proc p)) s.ram.freelist

/-- **The invariant**: no page is in two places, and each process has the pages below its size. -/
structure Inv (L : Layout) (s : State) : Prop where
  once : s.pages.Nodup
  ram : ∀ f ∈ s.pages, L.IsRam f
  fits : ∀ p x, s.proc p = some x → x.toProc.Fits L

/-- What a call leaves behind. -/
structure Leaves (L : Layout) (s : State) (c : Call) (a : Answer) (s' : State) : Prop where
  inv : Inv L s'
  pages : s'.pages = s.pages
  step : Memories.Step s.memories c s'.memories a

section Calls

variable {L : Layout} {E : Panic → Prop} {s : State} {p q : Slot} {x y : Proc} {c : Call}
  {a : Answer}

theorem memories_eq (h : s.proc p = some x) : s.memories p = some (x.memory s.ram) := by
  rw [State.memories, h]
  rfl

theorem memories_live (h : s.proc p = some x) (hx : x.zombie = false) :
    s.memories p = some ⟨x.toProc.image s.ram, false⟩ := by
  rw [memories_eq h, Proc.memory, hx]

/-- The memory of a process is what is on its pages. -/
theorem image_eq {m m' : Ram} (hkept : ∀ f ∈ x.pgdir.pages, m'.page f = m.page f) :
    x.toProc.image m' = x.toProc.image m := by
  rw [Proc.image, Proc.image, Image.mk.injEq]
  refine ⟨rfl, funext fun v => PgDir.view_congr (fun _ => rfl) fun hv hp => ?_⟩
  exact hkept _ (PgDir.frames_pages (PgDir.frame_mem hv hp))

namespace Inv

variable (h : Inv L s)

include h

theorem nodup (hx : s.proc p = some x) :
    (x.kstack :: (x.pgdir.pages ++ s.ram.freelist)).Nodup := by
  have honce := h.once
  rw [State.pages] at honce
  have hplace := Ledger.nodup_place honce p
  rw [hx] at hplace
  exact hplace

theorem isRam (hx : s.proc p = some x) {f : ℕ}
    (hf : f ∈ x.kstack :: (x.pgdir.pages ++ s.ram.freelist)) : L.IsRam f := by
  have hplace : f ∈ pagesOf (s.proc p) ++ s.ram.freelist := by
    rw [hx]
    exact hf
  refine h.ram f ?_
  rw [State.pages]
  exact Ledger.mem_total_place hplace

theorem not_free (hx : s.proc p = some x) {f : ℕ} (hf : f ∈ x.pgdir.pages) :
    f ∉ s.ram.freelist := by
  have hnodup := (List.nodup_cons.mp (h.nodup hx)).2
  exact fun hfree => List.disjoint_of_nodup_append hnodup hf hfree

theorem wellFormed (hx : s.proc p = some x) : x.toProc.WellFormed L s.ram :=
  (h.fits p x hx).wellFormed (List.nodup_cons.mp (h.nodup hx)).2 fun _ hf =>
    h.isRam hx (List.mem_cons_of_mem _ hf)

/-- Nothing has changed. -/
theorem same (hstep : Memories.Step s.memories c s.memories a) : Leaves L s c a s :=
  ⟨h, rfl, hstep⟩

/-- **Other processes** do not see what becomes of the pages of one slot. -/
theorem memories_put {y : Option Proc} {m : Ram} (hkept : ∀ f, f ∉ pagesOf (s.proc q) →
    f ∉ s.ram.freelist → m.page f = s.ram.page f) :
    State.memories ⟨m, Function.update s.proc q y⟩ =
      Function.update s.memories q (y.map (Proc.memory m)) := by
  funext p
  rw [State.memories]
  dsimp only
  by_cases hp : p = q
  · rw [hp, Function.update_self, Function.update_self]
  · rw [Function.update_of_ne hp, Function.update_of_ne hp, State.memories]
    cases hx : s.proc p with
    | none => rfl
    | some x =>
      -- no page of the other process is one of them
      have himage : x.toProc.image m = x.toProc.image s.ram := by
        refine image_eq fun f hf => hkept f (fun hin => ?_) (h.not_free hx hf)
        have hf' : f ∈ pagesOf (s.proc p) := by
          rw [hx]
          exact List.mem_cons_of_mem _ hf
        have honce := h.once
        rw [State.pages] at honce
        exact Ledger.disjoint_places honce hp hf' hin
      rw [Option.map_some, Option.map_some, Proc.memory, Proc.memory, himage]

/-- **One slot trades pages.**  The invariant holds as before, and the other processes see what
they saw. -/
theorem put {y : Option Proc} {m : Ram} (ht : Traded (pagesOf (s.proc q)) s.ram (pagesOf y) m)
    (hy : ∀ y', y = some y' → y'.toProc.Fits L) :
    Inv L ⟨m, Function.update s.proc q y⟩ ∧
      State.pages ⟨m, Function.update s.proc q y⟩ = s.pages ∧
      State.memories ⟨m, Function.update s.proc q y⟩ =
        Function.update s.memories q (y.map (Proc.memory m)) := by
  have hheld : (fun p => pagesOf (Function.update s.proc q y p)) =
      Function.update (fun p => pagesOf (s.proc p)) q (pagesOf y) := by
    funext p
    by_cases hp : p = q
    · rw [hp, Function.update_self, Function.update_self]
    · rw [Function.update_of_ne hp, Function.update_of_ne hp]
  have hpages : State.pages ⟨m, Function.update s.proc q y⟩ = s.pages := by
    rw [State.pages, State.pages, hheld]
    exact Ledger.total_update ht.perm
  refine ⟨⟨hpages ▸ h.once, hpages ▸ h.ram, fun p x hx => ?_⟩, hpages,
    h.memories_put ht.kept⟩
  dsimp only at hx
  by_cases hp : p = q
  · rw [hp, Function.update_self] at hx
    exact hy x hx
  · rw [Function.update_of_ne hp] at hx
    exact h.fits p x hx

theorem trade {y : Option Proc} {m : Ram} (ht : Traded (pagesOf (s.proc q)) s.ram (pagesOf y) m)
    (hy : ∀ y', y = some y' → y'.toProc.Fits L)
    (hstep : Memories.Step s.memories c
      (Function.update s.memories q (y.map (Proc.memory m))) a) :
    Leaves L s c a ⟨m, Function.update s.proc q y⟩ := by
  obtain ⟨hinv, hpages, hmemories⟩ := h.put ht hy
  exact ⟨hinv, hpages, hmemories ▸ hstep⟩

end Inv

/-! ### The calls -/

theorem wp_onRam {α : Type} (x : Kern α) (Q : α → State → Prop) :
    wp (onRam x) E Q s ↔ wp x E (fun a m => Q a { s with ram := m }) s.ram :=
  wp_zoom _ _ x Q

/-- A page of the memory is mapped, or the program cannot use it. -/
theorem user_page (hfits : x.toProc.Fits L) (m : Ram) {v : ℕ} (hv : v < 2 ^ 20) :
    (v < 2 ^ 19 ∧ (x.pgdir.at v).present = true ∧
      (x.toProc.image m).page v = some ⟨(x.pgdir.at v).flags, m.page (x.pgdir.at v).frame⟩) ∨
    ((x.toProc.image m).page v = none ∧
      ((x.pgdir.at v).present && (x.pgdir.at v).user) = false) := by
  rcases Nat.lt_or_ge v (2 ^ 19) with hlt | hge
  · cases hp : (x.pgdir.at v).present with
    | true => exact .inl ⟨hlt, rfl, if_pos ⟨hlt, hp⟩⟩
    | false => exact .inr ⟨PgDir.view_none fun _ => hp, rfl⟩
  · refine .inr ⟨PgDir.view_none fun hlt => by omega, ?_⟩
    rw [hfits.kernel v hv hge, kernelPte_user_eq_false, Bool.and_false]

theorem page_lt (va : UInt32) : va.toNat / pgsize < 2 ^ 20 := by
  have hva := va.toNat_lt
  rw [pgsize]
  omega

/-- **A load.** -/
theorem wp_load (h : Inv L s) (hx : s.proc p = some x) (hlive : x.zombie = false) (va : UInt32) :
    wp (load x va) E (fun a s' => Leaves L s (.load p va) a s') s := by
  have hstep := Memories.Step.load va (memories_live hx hlive)
  rw [load, wp_bind, wp_get]
  rw [read] at hstep
  dsimp only at hstep ⊢
  rcases user_page (h.fits p x hx) s.ram (page_lt va) with ⟨-, hp, hpage⟩ | ⟨hpage, huser⟩
  · rw [hpage] at hstep
    rw [hp, Bool.true_and]
    dsimp only at hstep
    rw [show (x.pgdir.at (va.toNat / pgsize)).flags.testBit 2 =
      (x.pgdir.at (va.toNat / pgsize)).user from rfl] at hstep
    split
    · next hu =>
      rw [if_pos hu] at hstep
      exact h.same hstep
    · next hu =>
      rw [if_neg hu] at hstep
      exact h.same hstep
  · rw [hpage] at hstep
    rw [huser]
    exact h.same hstep

/-- A byte of a page is written. -/
theorem page_put (m : Ram) (f o : ℕ) (b : UInt8) (g : ℕ) :
    (m.write f o [b]).page g = if g = f then Function.update (m.page f) o b else m.page g := by
  funext i
  rw [page_write]
  by_cases hg : g = f
  · rw [if_pos hg, Function.update_apply, hg]
    by_cases hi : i = o
    · rw [if_pos hi, if_pos ⟨rfl, hi.ge, by simp [hi]⟩, hi, Nat.sub_self]
      rfl
    · rw [if_neg hi, if_neg fun hin => hi ?_]
      have hlt := hin.2.2
      rw [List.length_singleton] at hlt
      omega
  · rw [if_neg hg, if_neg fun hin => hg hin.1]

/-- **A store** changes one byte of one memory. -/
theorem wp_store (h : Inv L s) (hx : s.proc p = some x) (hlive : x.zombie = false) (va : UInt32)
    (b : UInt8) :
    wp (store x va b) E (fun a s' => Leaves L s (.store p va b) a s') s := by
  have hself := memories_live hx hlive
  have hfault : write (x.toProc.image s.ram) va b = none →
      Leaves L s (.store p va b) .fault s := fun hnone => h.same (.fault hself hnone)
  rw [store]
  rw [write] at hfault
  generalize hv : va.toNat / pgsize = v at hfault ⊢
  have hlt : v < 2 ^ 20 := hv ▸ page_lt va
  rcases user_page (h.fits p x hx) s.ram hlt with ⟨hlow, hp, hpage⟩ | ⟨hpage, huser⟩
  · rw [hpage] at hfault
    rw [hp, Bool.true_and]
    dsimp only at hfault
    split
    · next hu =>
      rw [wp_bind, wp_onRam, wp_modify, wp_pure]
      have hframe := PgDir.frame_mem hlow hp
      have hother : ∀ u < 2 ^ 19, (x.pgdir.at u).present = true → u ≠ v →
          (x.pgdir.at u).frame ≠ (x.pgdir.at v).frame := by
        intro u hu' hpu hne heq
        have hnodup := (List.nodup_append.mp (h.wellFormed hx).nodup).1
        exact hne (PgDir.look_inj hnodup hu' hlow (PgDir.look_eq_some.mpr ⟨hpu, heq⟩)
          (PgDir.look_eq_some.mpr ⟨hp, rfl⟩))
      have himage : x.toProc.image (s.ram.write (x.pgdir.at v).frame (va.toNat % pgsize) [b]) =
          ⟨x.sz, Function.update (x.toProc.image s.ram).page v (some ⟨(x.pgdir.at v).flags,
            Function.update (s.ram.page (x.pgdir.at v).frame) (va.toNat % pgsize) b⟩)⟩ := by
        rw [Proc.image, Image.mk.injEq]
        refine ⟨rfl, funext fun u => ?_⟩
        rw [Function.update_apply]
        split
        · next huv => rw [huv, PgDir.view, if_pos ⟨hlow, hp⟩, page_put, if_pos rfl]
        · next huv =>
          refine PgDir.view_congr (fun _ => rfl) fun hu' hpu => ?_
          rw [page_put, if_neg (hother u hu' hpu huv)]
      have hwrite : write (x.toProc.image s.ram) va b =
          some (x.toProc.image (s.ram.write (x.pgdir.at v).frame (va.toNat % pgsize) [b])) := by
        rw [write, hv, hpage, himage]
        exact if_pos hu
      refine (congrArg (Leaves L s _ _) ?_).mp (h.trade (q := p) (y := some x)
        (m := s.ram.write (x.pgdir.at v).frame (va.toNat % pgsize) [b]) ⟨?_, fun f hf _ => ?_⟩
        (fun y hy => Option.some.inj hy ▸ h.fits p x hx) ?_)
      · rw [← hx, Function.update_eq_self]
      · rw [hx]
        exact .refl _
      · rw [page_put, if_neg]
        rintro rfl
        rw [hx] at hf
        exact hf (List.mem_cons_of_mem _ (PgDir.frames_pages hframe))
      · rw [Option.map_some, Proc.memory, hlive]
        exact .store hself hwrite
    · next hu => exact hfault (if_neg hu)
  · rw [hpage] at hfault
    rw [huser]
    exact hfault rfl

/-- A page is taken. -/
theorem traded_kalloc {m : Ram} {f : ℕ} {l : List ℕ} (hfree : m.freelist = f :: l) :
    Traded [] m [f] { m with freelist := l } := by
  refine ⟨?_, fun _ _ _ => rfl⟩
  rw [hfree]
  exact .refl _

/-- **`fork`** copies the memory of a process, or gives back what it took. -/
theorem wp_fork (h : Inv L s) (hx : s.proc p = some x) (hlive : x.zombie = false) :
    wp (fork L p x) E (fun a s' => Leaves L s (.fork p) a s') s := by
  have hfailed : Leaves L s (.fork p) (.ret (-1)) s := h.same (.notForked p)
  rw [fork, wp_bind, allocproc, wp_bind, wp_get]
  cases hfind : Table.find fun q => (s.proc q).isNone with
  | none => exact hfailed
  | some q =>
    have hq : s.proc q = none := Option.isNone_iff_eq_none.mp (Table.find_spec hfind)
    have hnone : Function.update s.proc q none = s.proc := by rw [← hq, Function.update_eq_self]
    have hpages : pagesOf (s.proc q) = [] := by rw [hq, pagesOf]
    rw [wp_bind, wp_onRam, wp_kalloc]
    split
    · exact hfailed
    · next f l hfree =>
      rw [wp_pure]
      dsimp only
      have hnodup := (List.nodup_cons.mp (h.nodup hx)).2
      have hsub : (x.pgdir.pages ++ l).Sublist (x.pgdir.pages ++ s.ram.freelist) := by
        rw [hfree]
        exact (List.sublist_cons_self f l).append_left _
      have hwell : x.toProc.WellFormed L { s.ram with freelist := l } :=
        (h.fits p x hx).wellFormed (hnodup.sublist hsub) fun g hg =>
          h.isRam hx (List.mem_cons_of_mem _ (hsub.subset hg))
      have hstack : L.IsRam f := by
        refine h.isRam hx (List.mem_cons_of_mem _ (List.mem_append_right _ ?_))
        rw [hfree]
        exact List.mem_cons_self
      rw [wp_bind, wp_onRam]
      refine wp_imp (wp_copyuvm (h.fits p x hx) hwell
        ((List.nodup_append.mp hnodup).2.1.sublist (hfree ▸ List.sublist_cons_self f l))) ?_
      rintro (_ | d) m hcopy
      · -- the kernel stack is given back
        dsimp only at hcopy ⊢
        rw [wp_bind, wp_onRam]
        refine wp_imp (wp_kfree_freed hstack m) fun _ m' hfreed => ?_
        rw [wp_pure]
        have hput := h.trade (q := q) (y := none) (m := m') (c := .fork p) (a := .ret (-1))
          (hpages ▸ ((traded_kalloc hfree).trans (hcopy.frame [f])).trans hfreed.traded)
          (fun _ hy => by cases hy) ?_
        · rw [hnone] at hput
          exact hput
        · rw [Option.map_none, show (none : Option Memory) = s.memories q by
            rw [State.memories, hq]; rfl, Function.update_eq_self]
          exact .notForked p
      · obtain ⟨htraded, hfits, himage⟩ := hcopy
        dsimp only
        rw [wp_bind, setProc, wp_modify, wp_pure]
        refine h.trade (m := m) (hpages ▸ (traded_kalloc hfree).trans (htraded.frame [f]))
          (fun y hy => ?_) ?_
        · rw [← Option.some.inj hy]
          exact hfits
        · have hmemory : Proc.memory m { x with pgdir := d, kstack := f, parent := some p } =
              ⟨x.toProc.image s.ram, false⟩ := by
            rw [Proc.memory, hlive]
            exact congrArg (Memory.mk · false) himage
          rw [Option.map_some, hmemory]
          refine .forked (memories_live hx hlive) ?_
          rw [State.memories, hq]
          rfl

/-- **`sbrk`**, but for a process that is to shrink to nothing. -/
theorem wp_sbrk (h : Inv L s) (hx : s.proc p = some x) (hlive : x.zombie = false) {n : Int32}
    (hn : x.sz = 0 ∨ (x.sz : ℤ) + n.toInt ≠ 0) :
    wp (sbrk L p x n) E (fun a s' => Leaves L s (.sbrk p n) a s') s := by
  have hself := memories_live hx hlive
  rw [sbrk, wp_bind, wp_onRam]
  refine wp_imp (wp_growproc (h.fits p x hx) (h.wellFormed hx) hn) ?_
  rintro ⟨y, r⟩ m ⟨htraded, hfits, hret⟩
  rw [wp_bind, setProc, wp_modify]
  have hput : ∀ a, Memories.Step s.memories (.sbrk p n)
      (Function.update s.memories p (some ⟨y.image m, false⟩)) a →
      Leaves L s (.sbrk p n) a
        ⟨m, Function.update s.proc p (some { x with toProc := y })⟩ := by
    intro a hstep
    refine h.trade (y := some { x with toProc := y }) ?_ (fun y' hy => ?_) ?_
    · rw [hx]
      exact htraded.frame [x.kstack]
    · rw [← Option.some.inj hy]
      exact hfits
    · rw [Option.map_some, Proc.memory, hlive]
      exact hstep
  -- the memory is put back as it was
  have hback : y.image m = x.toProc.image s.ram →
      Function.update s.memories p (some ⟨y.image m, false⟩) = s.memories := fun himage => by
    rw [himage, ← hself, Function.update_eq_self]
  rcases hret with ⟨hr, himage⟩ | ⟨hr, himage⟩
  · dsimp only at hr himage ⊢
    rw [hr, if_pos (by decide), wp_pure]
    refine hput _ ?_
    rw [hback himage]
    exact .notResized p n
  · dsimp only at hr himage ⊢
    rw [hr, if_neg (by decide), wp_pure]
    refine hput _ ?_
    split at himage
    · next hpos =>
      rw [himage]
      exact .resized hself hpos
    · next hneg =>
      rw [hback himage]
      exact .negative hself (not_le.mp hneg)

/-- **`exec`**, if the arguments take less than a page. -/
theorem wp_exec (h : Inv L s) (hx : s.proc p = some x) (hlive : x.zombie = false)
    (path : List UInt8) (file : Option (ℕ × List UInt8)) {argv : List (List UInt8)}
    (hargv : (argv.map List.length).sum < pgsize) :
    wp (exec L p x path file argv) E (fun a s' => Leaves L s (.exec p path file argv) a s') s := by
  have hself := memories_live hx hlive
  have hnodup := (List.nodup_cons.mp (h.nodup hx)).2
  have hold : ∀ f ∈ x.pgdir.pages, L.IsRam f := fun f hf =>
    h.isRam hx (List.mem_cons_of_mem _ (List.mem_append_left _ hf))
  have hram : ∀ f ∈ s.ram.freelist, L.IsRam f := fun f hf =>
    h.isRam hx (List.mem_cons_of_mem _ (List.mem_append_right _ hf))
  rw [exec, wp_bind, wp_zoom]
  refine wp_imp (Exec.wp_exec (k := ⟨s.ram, x.toProcess, []⟩) (fun _ => file) path hram
    (List.nodup_append.mp hnodup).2.1 hargv hold) fun r k hend => ?_
  rw [wp_pure]
  rcases hend.ret with rfl | rfl
  · obtain ⟨htraded, hfits⟩ := hend.replaced rfl
    refine h.trade (y := some { x with toProcess := k.proc }) ?_ (fun y hy => ?_) ?_
    · rw [hx]
      exact htraded.frame [x.kstack]
    · rw [← Option.some.inj hy]
      exact hfits
    · rw [Option.map_some, Proc.memory, hlive]
      exact .replaced hself (hfits.view_isSome k.ram)
  · have hproc := hend.proc rfl
    have hback := hend.restored rfl
    rw [hproc]
    refine h.trade (y := some x) ?_ (fun y hy => ?_) ?_
    · rw [hx]
      have hframe := hback.traded.frame (x.kstack :: x.pgdir.pages)
      rw [List.append_nil] at hframe
      exact hframe
    · rw [← Option.some.inj hy]
      exact h.fits p x hx
    · rw [Option.map_some, Proc.memory, image_eq fun f hf => hback.kept f (h.not_free hx hf),
        ← Proc.memory, ← memories_eq hx, Function.update_eq_self]
      exact .notReplaced p path file argv

@[simp] theorem toProcess_abandon (q : Slot) (y : Proc) :
    (abandon q y).toProcess = y.toProcess := by
  rw [abandon]
  split <;> rfl

theorem pagesOf_abandon (q : Slot) (y : Option Proc) :
    pagesOf (y.map (abandon q)) = pagesOf y := by
  cases y with
  | none => rfl
  | some y =>
    rw [Option.map_some, abandon]
    split <;> rfl

theorem memory_abandon (q : Slot) (m : Ram) (y : Proc) :
    Proc.memory m (abandon q y) = Proc.memory m y := by
  rw [abandon]
  split <;> rfl

/-- **`exit`** takes nothing: `wait` does it. -/
theorem wp_exit (h : Inv L s) (hx : s.proc p = some x) (hlive : x.zombie = false) :
    wp (exit p x) E (fun a s' => Leaves L s (.exit p) a s') s := by
  -- the children get a new parent, and all else is as it was
  have habandoned : Inv L { s with proc := fun q => (s.proc q).map (abandon p) } ∧
      State.pages { s with proc := fun q => (s.proc q).map (abandon p) } = s.pages ∧
      State.memories { s with proc := fun q => (s.proc q).map (abandon p) } = s.memories := by
    have hpages : State.pages { s with proc := fun q => (s.proc q).map (abandon p) } =
        s.pages := by
      rw [State.pages, State.pages]
      simp only [pagesOf_abandon]
    refine ⟨⟨hpages ▸ h.once, hpages ▸ h.ram, fun q y hy => ?_⟩, hpages, funext fun q => ?_⟩
    · obtain ⟨y', hy', rfl⟩ := Option.map_eq_some_iff.mp hy
      rw [toProcess_abandon]
      exact h.fits q y' hy'
    · rw [State.memories, State.memories, Option.map_map]
      exact congrArg (Option.map · _) (funext fun y => memory_abandon p s.ram y)
  obtain ⟨hinv, hpages, hmemories⟩ := habandoned
  have hstep := Memories.Step.exited (memories_live hx hlive)
  rw [exit, wp_bind, wp_modify, wp_bind, setProc, wp_modify, wp_pure]
  have hput := hinv.trade (q := p) (y := some { x with zombie := true }) (m := s.ram)
    (c := .exit p) (a := .done) ?_ (fun y hy => ?_) ?_
  · exact ⟨hput.inv, hput.pages.trans hpages, hmemories ▸ hput.step⟩
  · dsimp only
    rw [pagesOf_abandon, hx]
    exact .refl _ _
  · rw [← Option.some.inj hy]
    exact h.fits p x hx
  · rw [hmemories]
    exact hstep

/-- **`wait`** gives back the pages of a process that has exited. -/
theorem wp_wait (h : Inv L s) (p : Slot) :
    wp (wait L p) E (fun a s' => Leaves L s (.wait p) a s') s := by
  rw [wait, wp_bind, wp_get]
  split
  · next q hfind =>
    have hfound := Table.find_spec hfind
    cases hy : s.proc q with
    | none => exact h.same (.asleep p)
    | some y =>
      rw [hy, Option.any_some, Bool.and_eq_true] at hfound
      have hpages : ∀ f ∈ y.kstack :: y.pgdir.pages, L.IsRam f := by
        intro f hf
        refine h.isRam hy ?_
        change f ∈ (y.kstack :: y.pgdir.pages) ++ _
        exact List.mem_append_left _ hf
      rw [wp_bind, wp_onRam]
      refine wp_imp (wp_kfree_freed (hpages _ List.mem_cons_self) _) fun _ m₁ hfreed₁ => ?_
      rw [wp_bind, wp_onRam]
      refine wp_imp (wp_freevm (fun f hf => hpages f (List.mem_cons_of_mem _ hf)) _)
        fun _ m₂ hfreed₂ => ?_
      rw [wp_bind, setProc, wp_modify, wp_pure]
      refine h.trade (m := m₂) (y := none) ?_ (fun _ hy' => by cases hy') ?_
      · rw [hy]
        exact (hfreed₁.trans hfreed₂).traded
      · have hself : s.memories q = some ⟨y.toProc.image s.ram, true⟩ := by
          rw [memories_eq hy, Proc.memory, hfound.2]
        exact .reaped p hself
  · split
    · exact h.same (.asleep p)
    · exact h.same (.noChild p)

/-! ### The first process -/

/-- The memory before there are processes. -/
def boot (m : Ram) : State := ⟨m, fun _ => none⟩

theorem pages_boot (m : Ram) : (boot m).pages = (m.freelist : Multiset ℕ) := by
  rw [State.pages, Ledger.total, boot]
  simp [pagesOf]

/-- The memory of the first process: `initcode`, and zeros. -/
def initImage (init : List UInt8) : Image where
  sz := pgsize
  page v := if v = 0 then some ⟨pteW ||| pteU ||| pteP, fun i => init.getD i 0⟩ else none

/-- **`inituvm`** maps the first page, where there is room. -/
theorem wp_inituvm {s₀ m : Ram} {d : PgDir} {init : List UInt8} (hinit : init.length < pgsize)
    (h : Space L s₀ 0 d m) (hram : ∀ f ∈ s₀.freelist, L.IsRam f) (h₀ : s₀.freelist.Nodup)
    (hroom : 1025 < d.stock m) :
    wp (inituvm d init) (fun _ => False) (fun r m' => ∃ d', r = some d' ∧
      Space L s₀ 1 d' m' ∧ d'.view m' = (initImage init).page) m := by
  rw [inituvm, if_neg (by omega), wp_bind, wp_kalloc]
  split
  · next hnil =>
    have hmax := d.length_tables_le
    rw [PgDir.stock, hnil, List.length_nil] at hroom
    omega
  · next f l hfree =>
    have hin : f ∈ s₀.freelist := h.owned.mem_free (hfree ▸ List.mem_cons_self)
    have hf := hram f hin
    simp only [wp_bind, fill, wp_modify]
    have hstock : 1024 < d.stock ⟨l, Function.update m.page f fun _ => 0⟩ := by
      rw [PgDir.stock, hfree, List.length_cons] at hroom
      rw [PgDir.stock]
      dsimp only
      omega
    have hzero : (d.at 0).present = false := h.absent (by decide) le_rfl
    refine wp_mono (wp_and (wp_mappages_page (E := fun _ => False) (v := 0) (by decide) hf.lt hzero)
      (wp_mappages_room hstock)) ?_ fun _ he => he.1
    rintro ⟨d', ok⟩ m' ⟨⟨hgrown, hent⟩, -, rfl⟩
    dsimp only at hgrown hent ⊢
    have hv2p := v2p_p2v hf.2 (Nat.zero_lt_succ 4095)
    rw [Nat.add_zero] at hv2p
    rw [memmove, wp_modify, wp_pure, hv2p.1, hv2p.2]
    have hat : ∀ u < 2 ^ 20, d'.at u =
        if u = 0 then ⟨f, (pteW ||| pteU) ||| pteP⟩ else d.at u := fun u hu => by
      rw [hent u hu]
      exact if_congr (by simp) rfl rfl
    have hspace : Space L s₀ 1 d' m' := by
      refine ⟨h.owned.enter (by decide) (h.look_eq_none (by decide) le_rfl) hfree hgrown hat,
        fun v hv hk => ?_, fun v hv => ?_⟩
      · rw [hat v hv, if_neg (by omega)]
        exact h.kernel v hv hk
      · rw [hat v (by omega), Nat.lt_one_iff]
        split
        · next hv0 => exact iff_of_true (Pte.present_perm _ _) hv0
        · next hv0 => exact iff_of_false (by rw [h.absent hv (Nat.zero_le v)]; decide) hv0
    have hrest : f ∉ l := by
      have hnodup := (List.nodup_append.mp (List.nodup_append.mp (h.owned.nodup h₀)).2.1).2.1
      rw [hfree] at hnodup
      exact (List.nodup_cons.mp hnodup).1
    refine ⟨d', rfl, hspace.write hin 0 init, funext fun v => ?_⟩
    rw [initImage]
    dsimp only
    split
    · next hv0 =>
      rw [PgDir.view, hv0, hat 0 (by decide), if_pos rfl,
        if_pos ⟨by decide, Pte.present_perm _ _⟩, Option.some.injEq, Page.mk.injEq]
      refine ⟨rfl, funext fun i => ?_⟩
      rw [page_write]
      split
      · rfl
      · next hi =>
        have hge : init.length ≤ i := by
          by_contra hlt
          exact hi ⟨rfl, Nat.zero_le i, by omega⟩
        rw [hgrown.kept f hrest, List.getD_eq_default _ _ hge]
        dsimp only
        rw [Function.update_self]
    · next hv0 =>
      exact PgDir.view_none fun hv => by
        rw [← Bool.not_eq_true, hspace.mapped v hv]
        omega

/-- **`userinit`**, where there is room. -/
theorem wp_userinit {m : Ram} {init : List UInt8} (hinit : init.length < pgsize)
    (hram : ∀ f ∈ m.freelist, L.IsRam f) (hnodup : m.freelist.Nodup)
    (hroom : 1027 < m.freelist.length) :
    wp (userinit L init) (fun _ => False) (fun r s' => r = some initproc ∧ Inv L s' ∧
      s'.pages = (m.freelist : Multiset ℕ) ∧ s'.memories =
        Function.update (fun _ => none) initproc (some ⟨initImage init, false⟩)) (boot m) := by
  have hboot : Inv L (boot m) := by
    refine ⟨?_, fun f hf => hram f ?_, fun _ _ hx => by cases hx⟩
    · rw [pages_boot]
      exact Multiset.coe_nodup.mpr hnodup
    · rw [pages_boot] at hf
      exact Multiset.mem_coe.mp hf
  have hfind : Table.find (fun q => ((boot m).proc q).isNone) = some initproc := by
    show Table.find (fun _ => true) = some initproc
    decide
  rw [userinit, wp_bind, allocproc, wp_bind, wp_get, hfind, wp_bind, wp_onRam, wp_kalloc]
  rw [show (boot m).ram = m from rfl]
  split
  · next hnil =>
    rw [hnil, List.length_nil] at hroom
    omega
  · next f l hfree =>
    rw [hfree] at hram hnodup hroom
    have hraml : ∀ g ∈ l, L.IsRam g := fun g hg => hram g (List.mem_cons_of_mem f hg)
    rw [wp_pure]
    dsimp only
    rw [wp_bind, wp_onRam]
    refine wp_mono (wp_and (wp_setupkvm_space (E := fun _ => False) (s := ⟨l, m.page⟩) hraml)
      (wp_setupkvm_room (s := ⟨l, m.page⟩) ?_)) ?_ fun _ he => he.1
    · rw [List.length_cons] at hroom
      dsimp only
      omega
    rintro (_ | d) m₁ ⟨hspace, hsome⟩
    · exact absurd rfl hsome
    dsimp only at hspace ⊢
    have hstock : 1025 < d.stock m₁ := by
      have hlen := hspace.owned.perm.length_eq
      rw [PgDir.frames_eq_nil fun v _ hv => hspace.look_eq_none hv (Nat.zero_le v), List.nil_append,
        List.length_cons, List.length_append] at hlen
      rw [List.length_cons] at hroom
      rw [PgDir.stock]
      dsimp only at hlen
      omega
    rw [wp_bind, wp_onRam]
    refine wp_imp (wp_inituvm hinit hspace hraml (List.nodup_cons.mp hnodup).2 hstock) ?_
    rintro _ m₂ ⟨d', rfl, hspace', hview⟩
    dsimp only
    rw [wp_bind, setProc, wp_modify, wp_pure]
    have htraded : Traded [] m (f :: d'.pages) m₂ :=
      (traded_kalloc hfree).trans (hspace'.owned.traded.frame [f])
    have hput := hboot.put (q := initproc) (m := m₂)
      (y := some ⟨⟨⟨d', pgsize⟩, ⟨0, pgsize⟩, str "initcode"⟩, f, none, false⟩) htraded
      fun y hy => by
        rw [← Option.some.inj hy]
        have hfits := hspace'.fits (by decide)
        exact hfits
    refine ⟨rfl, hput.1, hput.2.1.trans (pages_boot m), hput.2.2.trans ?_⟩
    rw [Option.map_some, Proc.memory, Proc.image]
    dsimp only
    rw [hview]
    rfl

/-! ### Runs -/

/-- A process that runs makes the call, and does not ask for what the kernel does not survive. -/
def Safe (s : State) (c : Call) : Prop :=
  ∃ x, s.proc c.caller = some x ∧ x.zombie = false ∧
    match c with
    | .sbrk _ n => x.sz = 0 ∨ (x.sz : ℤ) + n.toInt ≠ 0
    | .exec _ _ _ argv => (argv.map List.length).sum < pgsize
    | .exit p => p ≠ initproc
    | _ => True

/-- **One call** does not panic. -/
theorem step_spec (h : Inv L s) (hsafe : Safe s c) :
    ∃ r, step L s c = some r ∧ Leaves L s c r.2 r.1 := by
  obtain ⟨x, hx, hlive, hc⟩ := hsafe
  have hwp : wp (code L x c) (fun _ => False) (fun a s' => Leaves L s c a s') s := by
    cases c with
    | load p va => exact wp_load h hx hlive va
    | store p va b => exact wp_store h hx hlive va b
    | fork p => exact wp_fork h hx hlive
    | sbrk p n => exact wp_sbrk h hx hlive hc
    | exec p path file argv => exact wp_exec h hx hlive path file hc
    | exit p => exact wp_exit h hx hlive
    | wait p => exact wp_wait h p
  have hexit : c ≠ .exit initproc := by
    rintro rfl
    exact hc rfl
  obtain ⟨a, s', hrun, hleaves⟩ := exists_of_wp hwp
  refine ⟨(s', a), ?_, hleaves⟩
  rw [step, hx]
  dsimp only
  rw [if_neg (by rw [hlive]; decide), if_neg hexit, hrun]

end Calls

/-- **Any run** from a state with the invariant. -/
theorem run_spec (L : Layout) {s : State} (h : Inv L s) (cs : List Call)
    (hsafe : AlongRun (step L) Safe s cs) :
    ∃ s' as, run (step L) s cs = some (s', as) ∧
      Trace Memories.Step s.memories cs s'.memories as ∧ Inv L s' ∧ s'.pages = s.pages := by
  obtain ⟨⟨s', as⟩, m, hrun, htrace, hinv, hpages, rfl⟩ :=
    run_simulation_along (V := fun _ => True)
    (R := fun s₁ m => Inv L s₁ ∧ s₁.pages = s.pages ∧ m = s₁.memories) (id : Answer → Answer)
    (fun s₁ m c hR _ hc => by
      obtain ⟨hinv, hpages, rfl⟩ := hR
      obtain ⟨r, hr, hleaves⟩ := step_spec hinv hc
      exact ⟨r, _, hr, hleaves.step, hleaves.inv, hleaves.pages.trans hpages, rfl⟩)
    cs s _ ⟨h, rfl, rfl⟩ (fun _ _ => trivial) hsafe
  rw [List.map_id] at htrace
  exact ⟨s', as, hrun, htrace, hinv, hpages⟩

/-- **Memory is private.**  Let the first process be made where there is room.  However the
processes call then, each one reads what it has written itself since it was given the memory,
`fork` copies the memory, `exec` and `sbrk` change that of the caller only, and every page that was
free is free or in one place of one process. -/
theorem memory_is_private (L : Layout) (m : Ram) (init : List UInt8) (hinit : init.length < pgsize)
    (hram : ∀ f ∈ m.freelist, L.IsRam f) (hnodup : m.freelist.Nodup)
    (hroom : 1027 < m.freelist.length) :
    ∃ s, userinit L init (boot m) = .ok (some initproc, s) ∧ ∀ cs : List Call,
      AlongRun (step L) Safe s cs → ∃ s' as, run (step L) s cs = some (s', as) ∧
        Trace Memories.Step
          (Function.update (fun _ => none) initproc (some ⟨initImage init, false⟩)) cs
          s'.memories as ∧
        s'.pages = (m.freelist : Multiset ℕ) ∧
        ∀ p x, s'.proc p = some x → x.toProc.Fits L := by
  obtain ⟨r, s, hrun, rfl, hinv, hpages, hmemories⟩ :=
    exists_of_wp (wp_userinit (L := L) hinit hram hnodup hroom)
  refine ⟨s, hrun, fun cs hsafe => ?_⟩
  obtain ⟨s', as, hrun', htrace, hinv', hpages'⟩ := run_spec L hinv cs hsafe
  rw [hmemories] at htrace
  exact ⟨s', as, hrun', htrace, hpages'.trans hpages, hinv'.fits⟩

/-- The memory of a machine with three thousand pages. -/
def roomyRam : Ram := ⟨List.range' 0x400 3000, fun _ _ => 0⟩

theorem isRam_roomyRam : ∀ f ∈ roomyRam.freelist, smallKernel.IsRam f := by
  intro f hf
  rw [roomyRam, List.mem_range'_1] at hf
  exact smallKernel_isRam hf.1 (by omega)

theorem length_roomyRam : roomyRam.freelist.length = 3000 := by
  rw [roomyRam, List.length_range']

theorem memory_is_private_load : ∃ s s',
    userinit smallKernel [0x90] (boot roomyRam) = .ok (some initproc, s) ∧
      run (step smallKernel) s [.load initproc 0] = some (s', [.byte 0x90]) := by
  have hroom : 1027 < roomyRam.freelist.length := by
    rw [length_roomyRam]
    decide
  obtain ⟨s, hinit, hall⟩ := memory_is_private smallKernel roomyRam [0x90] (by decide)
    isRam_roomyRam List.nodup_range' hroom
  obtain ⟨-, -, -, hmemories⟩ :=
    wp_ok (wp_userinit (L := smallKernel) (by decide) isRam_roomyRam List.nodup_range' hroom) hinit
  have hself : s.memories initproc = some ⟨initImage [0x90], false⟩ := by
    rw [hmemories, Function.update_self]
  obtain ⟨x, hx, hmemory⟩ := Option.map_eq_some_iff.mp hself
  obtain ⟨s', as, hrun, htrace, -⟩ := hall [.load initproc 0]
    ⟨⟨x, hx, congrArg Memory.exited hmemory, trivial⟩, fun _ _ => trivial⟩
  generalize s'.memories = m at htrace
  cases htrace with
  | cons hstep htail =>
    cases htail
    cases hstep with
    | load va hload =>
      rw [Function.update_self, Option.some.injEq, Memory.mk.injEq] at hload
      rw [← hload.1] at hrun
      exact ⟨s, s', hinit, hrun⟩

/-! ### A process that shrinks to nothing -/

section Shrink

variable {L : Layout} {s : State} {p : Slot} {x : Proc}

/-- **`copyuvm` panics** where the first page is not there. -/
theorem wp_copyuvm_absent {d : PgDir} {m : Ram} {sz : ℕ} (hsz : 0 < sz)
    (habsent : (d.at 0).present = false) (hroom : 1025 < m.freelist.length) :
    wp (copyuvm L d sz) (fun _ => True) (fun _ _ => False) m := by
  rw [copyuvm, wp_bind]
  refine wp_imp (wp_setupkvm_room hroom) fun r m₁ hsome => ?_
  cases r with
  | none => exact hsome rfl
  | some d' =>
    obtain ⟨k, hk⟩ : ∃ k, rounds = k + 1 := Nat.exists_eq_succ_of_ne_zero (by rw [rounds]; decide)
    have hat : (d.entry 0).present = false := habsent
    rw [wp_bind, hk, copyLoop, if_pos hsz, wp_bind, wp_walkpgdir]
    dsimp only
    rw [hat]
    split
    · exact trivial
    · exact trivial

theorem wp_fork_absent (hslot : ∃ q, s.proc q = none) (hsz : 0 < x.sz)
    (habsent : (x.pgdir.at 0).present = false) (hroom : 1026 < s.ram.freelist.length) :
    wp (fork L p x) (fun _ => True) (fun _ _ => False) s := by
  obtain ⟨q, hq⟩ := hslot
  rw [fork, wp_bind, allocproc, wp_bind, wp_get]
  cases hfind : Table.find fun q => (s.proc q).isNone with
  | none =>
    have hsome := Table.find_eq_none.mp hfind q
    rw [hq] at hsome
    cases hsome
  | some q' =>
    rw [wp_bind, wp_onRam, wp_kalloc]
    split
    · next hnil =>
      rw [hnil, List.length_nil] at hroom
      omega
    · next f l hfree =>
      rw [hfree, List.length_cons] at hroom
      rw [wp_pure]
      dsimp only
      rw [wp_bind, wp_onRam]
      exact wp_imp (wp_copyuvm_absent hsz habsent (Nat.lt_of_succ_lt_succ hroom)) fun _ _ => False.elim

/-- **A process shrinks to nothing.**  It is told that this has failed, and its memory is gone; and
when it forks, the kernel panics, where there is room for the new page directory. -/
theorem shrunk_to_nothing (h : Inv L s) (hx : s.proc p = some x) (hlive : x.zombie = false)
    {n : Int32} (hsz : 0 < x.sz) (hn : (x.sz : ℤ) + n.toInt = 0)
    (hslot : ∃ q, s.proc q = none) (hroom : 1026 < s.ram.freelist.length) :
    ∃ s', step L s (.sbrk p n) = some (s', .ret (-1)) ∧
      s'.memories = Function.update s.memories p (some ⟨⟨x.sz, fun _ => none⟩, false⟩) ∧
      step L s' (.fork p) = none := by
  have hwell := h.wellFormed hx
  have hfits := h.fits p x hx
  have hneg : n.toInt < 0 := by omega
  have hwp : wp (sbrk L p x n) (fun _ => False) (fun a s' => a = .ret (-1) ∧ ∃ y m,
      s' = ⟨m, Function.update s.proc p (some y)⟩ ∧ y.sz = x.sz ∧ y.zombie = false ∧
        Cleared 0 (npages x.sz) x.pgdir y.pgdir ∧
        Freed (x.pgdir.frames 0 (npages x.sz)) s.ram m) s := by
    rw [sbrk, wp_bind, wp_onRam, growproc]
    dsimp only
    rw [hn, if_neg (by omega), if_pos hneg, wp_bind]
    refine wp_imp (wp_deallocuvm hsz hfits.sz_lt.le (hwell.ram_frames hfits.npages_le) _) ?_
    rintro ⟨d, sz⟩ m ⟨rfl, hclear, hfreed⟩
    rw [if_pos rfl, wp_pure, wp_bind, setProc, wp_modify]
    dsimp only
    rw [if_pos (by decide), wp_pure]
    exact ⟨rfl, _, m, rfl, rfl, hlive, hclear, hfreed⟩
  obtain ⟨a, s', hrun, rfl, y, m, rfl, hysz, hylive, hclear, hfreed⟩ := exists_of_wp hwp
  have hgone : ∀ v < 2 ^ 19, (y.pgdir.at v).present = false := by
    intro v hv
    rw [hclear.entry v (by omega)]
    split
    · rfl
    · next hout =>
      rw [← Bool.not_eq_true]
      exact fun hp => hout ⟨Nat.zero_le v, (hfits.mapped v hv).mp hp, hp⟩
  have hstep : step L s (.sbrk p n) =
      some (⟨m, Function.update s.proc p (some y)⟩, .ret (-1)) := by
    rw [step, show (Call.sbrk p n).caller = p from rfl, hx]
    dsimp only
    rw [if_neg (by rw [hlive]; decide), if_neg (by simp), code, hrun]
  refine ⟨_, hstep, ?_, ?_⟩
  · have himage : y.toProc.image m = ⟨x.sz, fun _ => none⟩ := by
      rw [Proc.image, hysz]
      exact congrArg _ (funext fun v => PgDir.view_none (hgone v))
    rw [h.memories_put fun f hf _ => hfreed.kept f fun hin => hf ?_, Option.map_some, Proc.memory,
      himage, hylive]
    rw [hx]
    rw [← hfits.frames_eq le_rfl hfits.npages_le] at hin
    exact List.mem_cons_of_mem _ (PgDir.frames_pages hin)
  · obtain ⟨q, hq⟩ := hslot
    have hqp : q ≠ p := by
      rintro rfl
      rw [hq] at hx
      cases hx
    have hpanic : wp (fork L p y) (fun _ => True) (fun _ _ => False)
        ⟨m, Function.update s.proc p (some y)⟩ := by
      refine wp_fork_absent ⟨q, ?_⟩ (hysz ▸ hsz) (hgone 0 (by decide)) ?_
      · dsimp only
        rw [Function.update_of_ne hqp, hq]
      · dsimp only
        rw [hfreed.free, List.length_append]
        omega
    rw [step, show (Call.fork p).caller = p from rfl]
    dsimp only
    rw [Function.update_self]
    dsimp only
    rw [if_neg (by rw [hylive]; decide), if_neg (by simp), code]
    cases hfork : fork L p y ⟨m, Function.update s.proc p (some y)⟩ with
    | ok r => exact (wp_ok hpanic hfork).elim
    | error e => rfl

/-- A process does not have more pages than its size takes, and 1026 more. -/
theorem length_pagesOf (h : x.toProc.Fits L) :
    (pagesOf (some x)).length ≤ npages x.sz + 1026 := by
  have hframes : (x.pgdir.frames 0 (npages x.sz)).length ≤ npages x.sz := by
    rw [PgDir.frames]
    exact (List.length_filterMap_le _ _).trans_eq List.length_range'
  have htables := x.pgdir.length_tables_le
  rw [pagesOf, PgDir.pages, h.frames_eq le_rfl h.npages_le]
  simp only [List.length_cons, List.length_append, List.length_nil]
  omega

end Shrink

/-- The first process gives all its memory back. -/
theorem shrunk_to_nothing_initcode : ∃ s s',
    userinit smallKernel [0x90] (boot roomyRam) = .ok (some initproc, s) ∧
      step smallKernel s (.sbrk initproc (-4096)) = some (s', .ret (-1)) ∧
      step smallKernel s' (.fork initproc) = none := by
  have hroom : 1027 < roomyRam.freelist.length := by
    rw [length_roomyRam]
    decide
  have hlen : [(0x90 : UInt8)].length < pgsize := by decide
  obtain ⟨r, s, hinit, rfl, hinv, hpages, hmemories⟩ := exists_of_wp
    (wp_userinit (L := smallKernel) hlen isRam_roomyRam List.nodup_range' hroom)
  have hself : s.memories initproc = some ⟨initImage [0x90], false⟩ := by
    rw [hmemories, Function.update_self]
  obtain ⟨x, hx, hmemory⟩ := Option.map_eq_some_iff.mp hself
  have hsz : x.sz = 4096 := congrArg (fun m => m.image.sz) hmemory
  have hnone : ∀ q, q ≠ initproc → s.proc q = none := fun q hq => by
    have hq' : s.memories q = none := by rw [hmemories, Function.update_of_ne hq]
    exact Option.map_eq_none_iff.mp hq'
  -- the pages that the process does not have are free
  have hfree : 1026 < s.ram.freelist.length := by
    have hcard := congrArg Multiset.card hpages
    rw [State.pages, Ledger.total_eq _ _ initproc, Finset.sum_eq_zero fun q hq => by
      rw [hnone q (Finset.ne_of_mem_erase hq)]; rfl] at hcard
    rw [add_zero, Multiset.coe_card, Multiset.coe_card, List.length_append, length_roomyRam,
      hx] at hcard
    have hmax := length_pagesOf (hinv.fits initproc x hx)
    rw [hsz] at hmax
    have hone : npages 4096 = 1 := rfl
    omega
  obtain ⟨s', hstep, -, hpanic⟩ := shrunk_to_nothing hinv hx (congrArg Memory.exited hmemory)
    (n := -4096) (by omega) (by rw [hsz]; decide) ⟨1, hnone 1 (by decide)⟩ hfree
  exact ⟨s, s', hinit, hstep, hpanic⟩

end AddressSpace
end Xv6
