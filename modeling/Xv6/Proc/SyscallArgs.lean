import Xv6.Lib.Counter
import Xv6.Lib.Memory
import Xv6.Vm.PageTable

/-!
# The arguments of a system call

`fetchint`, `fetchstr`, `argint`, `argptr` and `argstr` of `syscall.c`, in the arithmetic of 32
bits.  Each function says what it has read from the memory of the process, and which sums it has
compared.

## Main definitions

* `Proc` — what the functions see of the process.
* `Fetched` — a result, with the addresses read and the sums compared.
* `Sound` — all is read below `sz`, and no sum wraps around.

## Main results

* `args_validated` — **whatever the process passes, all addresses are below its size.**
-/

namespace Xv6
namespace SyscallArgs

open Bytes
open Vm (kernbase)

/-- What the functions see of the process. -/
structure Proc where
  sz : UInt32
  /-- `tf->esp` -/
  esp : UInt32
  mem : Memory

/-- What a function returns, no value being `-1`; what it has read; and the sums it has compared. -/
structure Fetched (α : Type) where
  val : Option α
  reads : List UInt32
  sums : List (UInt32 × UInt32)
  deriving DecidableEq, Repr

namespace Fetched

variable {α β : Type}

/-- `return -1` -/
def fail : Fetched α := ⟨none, [], []⟩

/-- The second function is called if the first one succeeds. -/
def andThen (x : Fetched α) (f : α → Fetched β) : Fetched β :=
  match x.val with
  | none => ⟨none, x.reads, x.sums⟩
  | some a => ⟨(f a).val, x.reads ++ (f a).reads, x.sums ++ (f a).sums⟩

end Fetched

open Fetched

variable (p : Proc)

/-- `fetchint` -/
def fetchint (addr : UInt32) : Fetched Int32 :=
  if addr ≥ p.sz then fail
  else if addr + 4 > p.sz then ⟨none, [], [(addr, 4)]⟩
  else ⟨some (UInt32.ofNat (word p.mem addr.toNat)).toInt32, [addr, addr + 1, addr + 2, addr + 3],
    [(addr, 4)]⟩

/-- The loop of `fetchstr`. -/
def scan (pp s : UInt32) : Fetched (UInt32 × Int32) :=
  if h : s < p.sz then
    if p.mem s.toNat = 0 then ⟨some (pp, (s - pp).toInt32), [s], []⟩
    else
      let x := scan pp (s + 1)
      ⟨x.val, s :: x.reads, x.sums⟩
  else fail
termination_by p.sz.toNat - s.toNat
decreasing_by
  rw [UInt32.lt_iff_toNat_lt] at h
  have hs : (s + 1).toNat = s.toNat + 1 := by
    have hsz := p.sz.toNat_lt
    rw [UInt32.toNat_add, UInt32.toNat_one, Nat.mod_eq_of_lt (by omega)]
  omega

/-- `fetchstr`: the pointer and the length. -/
def fetchstr (addr : UInt32) : Fetched (UInt32 × Int32) :=
  if addr ≥ p.sz then fail else scan p addr addr

/-- `argint` -/
def argint (n : Int32) : Fetched Int32 := fetchint p (p.esp + 4 + (4 * n).toUInt32)

/-- `argptr` -/
def argptr (n size : Int32) : Fetched UInt32 :=
  (argint p n).andThen fun i =>
    if size < 0 ∨ i.toUInt32 ≥ p.sz then fail
    else if i.toUInt32 + size.toUInt32 > p.sz then ⟨none, [], [(i.toUInt32, size.toUInt32)]⟩
    else ⟨some i.toUInt32, [], [(i.toUInt32, size.toUInt32)]⟩

/-- `argstr` -/
def argstr (n : Int32) : Fetched (UInt32 × Int32) :=
  (argint p n).andThen fun addr => fetchstr p addr.toUInt32

/-! ### What is checked -/

/-- All is read below `sz`, and no sum that is compared wraps around. -/
structure Sound {α : Type} (x : Fetched α) : Prop where
  reads : ∀ a ∈ x.reads, a < p.sz
  sums : ∀ s ∈ x.sums, s.1.toNat + s.2.toNat < 2 ^ 32

/-- A string with its NUL lies below `sz`. -/
structure InString (pp : UInt32) (len : Int32) : Prop where
  nonneg : 0 ≤ len
  inside : pp.toNat + len.toNatClampNeg < p.sz.toNat
  nul : p.mem (pp.toNat + len.toNatClampNeg) = 0
  before : ∀ i < len.toNatClampNeg, p.mem (pp.toNat + i) ≠ 0

variable {p} {α β : Type} {x : Fetched α} {f : α → Fetched β} {addr : UInt32}

theorem sound_fail : Sound p (fail : Fetched α) := ⟨nofun, nofun⟩

theorem Sound.andThen (hx : Sound p x) (hf : ∀ a, x.val = some a → Sound p (f a)) :
    Sound p (x.andThen f) := by
  rw [Fetched.andThen]
  split
  · exact ⟨hx.reads, hx.sums⟩
  · next a ha =>
    have hfa := hf a ha
    constructor
    · intro b hb
      exact (List.mem_append.mp hb).elim (hx.reads b) (hfa.reads b)
    · intro b hb
      exact (List.mem_append.mp hb).elim (hx.sums b) (hfa.sums b)

theorem andThen_val {b : β} (h : (x.andThen f).val = some b) :
    ∃ a, x.val = some a ∧ (f a).val = some b := by
  rw [Fetched.andThen] at h
  split at h
  · cases h
  · next a ha => exact ⟨a, ha, h⟩

/-- An address in front of the end of the process, and a small number. -/
theorem toNat_add_of_lt {a b sz : UInt32} (hsz : sz.toNat ≤ kernbase) (ha : a < sz)
    (hb : b.toNat < 2 ^ 31) : (a + b).toNat = a.toNat + b.toNat ∧ a.toNat + b.toNat < 2 ^ 32 := by
  rw [UInt32.lt_iff_toNat_lt] at ha
  rw [kernbase] at hsz
  have hlt : a.toNat + b.toNat < 2 ^ 32 := by omega
  rw [UInt32.toNat_add, Nat.mod_eq_of_lt hlt]
  exact ⟨rfl, hlt⟩

theorem fetchint_sound (hsz : p.sz.toNat ≤ kernbase) (addr : UInt32) :
    Sound p (fetchint p addr) := by
  rw [fetchint]
  split
  · exact sound_fail
  · next hlt =>
    have haddr : addr < p.sz := UInt32.not_le.mp hlt
    obtain ⟨hadd, hwrap⟩ := toNat_add_of_lt hsz haddr (b := 4) (by decide)
    have hsums : ∀ s ∈ [(addr, (4 : UInt32))], s.1.toNat + s.2.toNat < 2 ^ 32 := by
      intro s hs
      rw [List.mem_singleton.mp hs]
      exact hwrap
    split
    · exact ⟨nofun, hsums⟩
    · next hle =>
      refine ⟨fun a ha => ?_, hsums⟩
      have hend : addr.toNat + 4 ≤ p.sz.toNat := by
        have hle' := UInt32.not_lt.mp hle
        rw [UInt32.le_iff_toNat_le, hadd] at hle'
        exact hle'
      have hi : ∀ i : UInt32, i.toNat < 4 → addr + i < p.sz := by
        intro i hi
        rw [UInt32.lt_iff_toNat_lt, (toNat_add_of_lt hsz haddr (by omega)).1]
        omega
      simp only [List.mem_cons, List.not_mem_nil, or_false] at ha
      rcases ha with rfl | rfl | rfl | rfl
      · exact haddr
      · exact hi 1 (by decide)
      · exact hi 2 (by decide)
      · exact hi 3 (by decide)

/-- The distance of two addresses of the process as an `int`. -/
theorem toInt32_sub {s pp : UInt32} (hsz : p.sz.toNat ≤ kernbase) (hs : s < p.sz) (hpp : pp ≤ s) :
    0 ≤ (s - pp).toInt32 ∧ (s - pp).toInt32.toNatClampNeg = s.toNat - pp.toNat := by
  rw [UInt32.lt_iff_toNat_lt] at hs
  rw [kernbase] at hsz
  have hsub : (s - pp).toNat = s.toNat - pp.toNat := UInt32.toNat_sub_of_le s pp hpp
  have hnonneg : 0 ≤ (s - pp).toInt32 := by
    rw [Int32.le_iff_toInt_le, Counter.toInt_toInt32, if_pos (by omega)]
    exact Int.natCast_nonneg _
  refine ⟨hnonneg, ?_⟩
  rw [← Int32.toNat_toUInt32_of_le hnonneg, UInt32.toUInt32_toInt32, hsub]

/-- The loop of `fetchstr`, with no NUL found so far. -/
theorem scan_spec (hsz : p.sz.toNat ≤ kernbase) {pp s : UInt32} (hpp : pp ≤ s)
    (hno : ∀ i, pp.toNat + i < s.toNat → p.mem (pp.toNat + i) ≠ 0) :
    Sound p (scan p pp s) ∧
      ∀ r, (scan p pp s).val = some r → r.1 = pp ∧ InString p pp r.2 := by
  fun_induction scan p pp s with
  | case1 s hs hnul =>
    obtain ⟨hnonneg, hlen⟩ := toInt32_sub hsz hs hpp
    rw [UInt32.le_iff_toNat_le] at hpp
    have hend : pp.toNat + (s.toNat - pp.toNat) = s.toNat := by omega
    refine ⟨⟨fun a ha => ?_, nofun⟩, ?_⟩
    · rw [List.mem_singleton.mp ha]
      exact hs
    · rintro r hr
      cases hr
      refine ⟨rfl, hnonneg, ?_, ?_, ?_⟩
      · rw [hlen, hend]
        exact UInt32.lt_iff_toNat_lt.mp hs
      · rw [hlen, hend]
        exact hnul
      · intro i hi
        have hi' : i < s.toNat - pp.toNat := hlen ▸ hi
        apply hno
        omega
  | case2 s hs hne x ih =>
    have hs' := UInt32.lt_iff_toNat_lt.mp hs
    have hnext : (s + 1).toNat = s.toNat + 1 := (toNat_add_of_lt hsz hs (b := 1) (by decide)).1
    rw [UInt32.le_iff_toNat_le] at hpp
    obtain ⟨hsound, hval⟩ := ih (by rw [UInt32.le_iff_toNat_le]; omega) fun i hi => by
      rcases Nat.lt_or_ge (pp.toNat + i) s.toNat with hlt | hge
      · exact hno i hlt
      · have heq : pp.toNat + i = s.toNat := by omega
        rw [heq]
        exact hne
    refine ⟨⟨fun a ha => ?_, hsound.sums⟩, hval⟩
    rcases List.mem_cons.mp ha with rfl | ha
    · exact hs
    · exact hsound.reads a ha
  | case3 s hs => exact ⟨sound_fail, nofun⟩

theorem fetchstr_spec (hsz : p.sz.toNat ≤ kernbase) (addr : UInt32) :
    Sound p (fetchstr p addr) ∧
      ∀ r, (fetchstr p addr).val = some r → r.1 = addr ∧ InString p addr r.2 := by
  rw [fetchstr]
  split
  · exact ⟨sound_fail, nofun⟩
  · refine scan_spec hsz UInt32.le_rfl fun i hi => ?_
    omega

theorem argptr_spec (hsz : p.sz.toNat ≤ kernbase) (n size : Int32) :
    Sound p (argptr p n size) ∧ ∀ pp, (argptr p n size).val = some pp →
      0 ≤ size ∧ pp.toNat + size.toNatClampNeg ≤ p.sz.toNat := by
  have hpos : ∀ i : Int32, ¬(size < 0 ∨ i.toUInt32 ≥ p.sz) →
      0 ≤ size ∧ (i.toUInt32 + size.toUInt32).toNat = i.toUInt32.toNat + size.toNatClampNeg ∧
        i.toUInt32.toNat + size.toUInt32.toNat < 2 ^ 32 := by
    intro i hi
    rw [not_or] at hi
    have hnonneg : 0 ≤ size := Int32.not_lt.mp hi.1
    have hsize := Int32.toNat_toUInt32_of_le hnonneg
    have hadd := toNat_add_of_lt hsz (UInt32.not_le.mp hi.2)
      (b := size.toUInt32) (hsize ▸ Int32.toNatClampNeg_lt size)
    rw [hsize] at hadd ⊢
    exact ⟨hnonneg, hadd⟩
  constructor
  · refine (fetchint_sound hsz _).andThen fun i _ => ?_
    split
    · exact sound_fail
    · next hi =>
      have hsums : ∀ s ∈ [(i.toUInt32, size.toUInt32)], s.1.toNat + s.2.toNat < 2 ^ 32 := by
        intro s hs
        rw [List.mem_singleton.mp hs]
        exact (hpos i hi).2.2
      split
      · exact ⟨nofun, hsums⟩
      · exact ⟨nofun, hsums⟩
  · intro pp hpp
    obtain ⟨i, -, hval⟩ := andThen_val hpp
    split at hval
    · cases hval
    · next hi =>
      split at hval
      · cases hval
      · next hle =>
        cases hval
        obtain ⟨hnonneg, hadd, -⟩ := hpos i hi
        refine ⟨hnonneg, ?_⟩
        rw [← hadd]
        exact UInt32.le_iff_toNat_le.mp (UInt32.not_lt.mp hle)

theorem argstr_spec (hsz : p.sz.toNat ≤ kernbase) (n : Int32) : Sound p (argstr p n) ∧
    ∀ r, (argstr p n).val = some r → InString p r.1 r.2 := by
  constructor
  · exact (fetchint_sound hsz _).andThen fun addr _ => (fetchstr_spec hsz _).1
  · intro r hr
    obtain ⟨addr, -, hval⟩ := andThen_val hr
    obtain ⟨hptr, hin⟩ := (fetchstr_spec hsz _).2 r hval
    rw [hptr]
    exact hin

/-- **The arguments of system calls.**  Whatever the process passes, and whatever is in its memory:
all that is read is below `sz`, and so is what a successful call hands back, as a block of bytes or
as a string with its NUL; no sum that is compared wraps around; a negative size is an error. -/
theorem args_validated (hsz : p.sz.toNat ≤ kernbase) :
    (∀ addr, Sound p (fetchint p addr)) ∧ (∀ n, Sound p (argint p n)) ∧
    (∀ addr, Sound p (fetchstr p addr) ∧
      ∀ r, (fetchstr p addr).val = some r → r.1 = addr ∧ InString p addr r.2) ∧
    (∀ n, Sound p (argstr p n) ∧ ∀ r, (argstr p n).val = some r → InString p r.1 r.2) ∧
    ∀ n size, Sound p (argptr p n size) ∧ (size < 0 → (argptr p n size).val = none) ∧
      ∀ pp, (argptr p n size).val = some pp →
        ∀ k, k < size.toNatClampNeg → pp.toNat + k < p.sz.toNat := by
  refine ⟨fetchint_sound hsz, fun n => fetchint_sound hsz _, fetchstr_spec hsz, argstr_spec hsz,
    fun n size => ?_⟩
  obtain ⟨hsound, hspec⟩ := argptr_spec hsz n size
  refine ⟨hsound, fun hneg => ?_, fun pp hpp k hk => ?_⟩
  · by_contra hval
    obtain ⟨pp, hpp⟩ := Option.ne_none_iff_exists'.mp hval
    exact Int32.not_lt.mpr (hspec pp hpp).1 hneg
  · have hle := (hspec pp hpp).2
    omega

/-- A process of one page: a string at 16, the stack from 4000 on. -/
def onePage : Proc :=
  ⟨4096, 4000, fun a => if a = 4004 then 16 else if a = 16 ∨ a = 17 then 0x61 else 0⟩

/-- The first argument is the string `aa`, or a block of ten bytes. -/
theorem args_validated_onePage : (argstr onePage 0).val = some (16, 2) ∧
    (argptr onePage 0 10).val = some 16 ∧ InString onePage 16 2 ∧
    ∀ k < 10, 16 + k < 4096 := by
  have hstr : (argstr onePage 0).val = some (16, 2) := by
    have hint : argint onePage 0 = ⟨some 16, [4004, 4005, 4006, 4007], [(4004, 4)]⟩ := by decide
    rw [argstr, Fetched.andThen, hint]
    simp +decide [fetchstr, scan, onePage]
  have hptr : (argptr onePage 0 10).val = some 16 := by decide
  have hargs := args_validated (p := onePage) (by decide)
  exact ⟨hstr, hptr, (hargs.2.2.2.1 0).2 _ hstr, (hargs.2.2.2.2 0 10).2.2 16 hptr⟩

end SyscallArgs
end Xv6
