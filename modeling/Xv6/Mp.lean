import Xv6.Basic
import Xv6.Lib.Bytes

/-!
# The multiprocessor tables

`mp.c`: the search for the floating pointer structure, the tests of the configuration table, and
the loop of `mpinit` over its entries.  An entry of an unknown type is meant to end the loop, but
the `break` leaves the `switch` only, and the pointer stays where it is.

* `mpsearch`, `mpconfig`, `mpinit` — the code.
* `Visits`, `Unknown` — the entries that the loop comes to, and that one of them has an unknown
  type.
* `entryLoop_of_known`, `entryLoop_of_unknown` — the loop ends, or does not.
* `mpinit_ends_iff` — **when the walk over the table ends.**
-/

namespace Xv6
namespace Mp

open Bytes (ofLe)

/-! ### The memory -/

/-- The physical memory. -/
abbrev Mem := ℕ → UInt8

/-- The `n` bytes from `a` on. -/
def bytesAt (m : Mem) (a n : ℕ) : List UInt8 := (List.range n).map fun i => m (a + i)

/-- A number of `k` bytes. -/
def field (m : Mem) (a k : ℕ) : ℕ := ofLe (bytesAt m a k)

/-- `sum`, of which a `uchar` is returned. -/
def sum (m : Mem) (addr : ℕ) : ℕ → UInt8
  | 0 => 0
  | len + 1 => sum m addr len + m (addr + len)

/-! ### The search for the table -/

/-- `sizeof(struct mp)` -/
def sizeofMp : ℕ := 16

/-- `mpsearch1`, with the number of structures in the range. -/
def mpsearch1 (m : Mem) : ℕ → ℕ → Option ℕ
  | _, 0 => none
  | p, n + 1 =>
      if bytesAt m p 4 = str "_MP_" ∧ sum m p sizeofMp = 0 then some p
      else mpsearch1 m (p + sizeofMp) n

/-- `mpsearch` -/
def mpsearch (m : Mem) : Option ℕ :=
  let bda := 0x400
  let p := ((m (bda + 0x0F)).toNat <<< 8 ||| (m (bda + 0x0E)).toNat) <<< 4
  let q := ((m (bda + 0x14)).toNat <<< 8 ||| (m (bda + 0x13)).toNat) * 1024
  let first := if p ≠ 0 then p else (q + (2 ^ 32 - 1024)) % 2 ^ 32
  match mpsearch1 m first (1024 / sizeofMp) with
  | some mp => some mp
  | none => mpsearch1 m 0xF0000 (0x10000 / sizeofMp)

/-- `conf->length` -/
def confLength (m : Mem) (conf : ℕ) : ℕ := field m (conf + 4) 2

/-- `mpconfig`: the floating pointer structure and the table. -/
def mpconfig (m : Mem) : Option (ℕ × ℕ) :=
  match mpsearch m with
  | none => none
  | some mp =>
      let conf := field m (mp + 4) 4
      if conf = 0 then none
      else if bytesAt m conf 4 ≠ str "PCMP" then none
      else if m (conf + 6) ≠ 1 ∧ m (conf + 6) ≠ 4 then none
      else if sum m conf (confLength m conf) ≠ 0 then none
      else some (mp, conf)

/-! ### The walk over the table -/

/-- `NCPU` -/
def ncpuMax : ℕ := 8

/-- `MPPROC`, `MPBUS`, `MPIOAPIC`, `MPIOINTR` and `MPLINTR` -/
def mpproc : UInt8 := 0x00
def mpbus : UInt8 := 0x01
def mpioapic : UInt8 := 0x02
def mpiointr : UInt8 := 0x03
def mplintr : UInt8 := 0x04

/-- `sizeof(struct mpconf)`, `sizeof(struct mpproc)` and `sizeof(struct mpioapic)` -/
def sizeofMpconf : ℕ := 44
def sizeofMpproc : ℕ := 20
def sizeofMpioapic : ℕ := 8

/-- The variables of `mp.c`, with `cpus[i].apicid`, and `lapic`. -/
structure Globals where
  lapic : ℕ
  apicid : ℕ → UInt8
  ncpu : ℕ
  ioapicid : UInt8

/-- The loop of `mpinit`: where it is, `ismp`, and the variables. -/
structure Walk where
  p : ℕ
  ismp : Bool
  globals : Globals

/-- A processor is noted, if there is room. -/
def Globals.addCpu (g : Globals) (apicid : UInt8) : Globals :=
  if g.ncpu < ncpuMax then
    { g with apicid := Function.update g.apicid g.ncpu apicid, ncpu := g.ncpu + 1 }
  else g

/-- The body of the loop. -/
def entry (m : Mem) (w : Walk) : Walk :=
  if m w.p = mpproc then
    { w with p := w.p + sizeofMpproc, globals := w.globals.addCpu (m (w.p + 1)) }
  else if m w.p = mpioapic then
    { w with p := w.p + sizeofMpioapic, globals := { w.globals with ioapicid := m (w.p + 1) } }
  else if m w.p = mpbus ∨ m w.p = mpiointr ∨ m w.p = mplintr then { w with p := w.p + 8 }
  -- the `break` leaves the `switch`
  else { w with ismp := false }

/-- The loop of `mpinit`, or `none` if it has not ended after `n` rounds. -/
def entryLoop (m : Mem) (e : ℕ) : ℕ → Walk → Option Walk
  | 0, _ => none
  | n + 1, w => if w.p < e then entryLoop m e n (entry m w) else some w

/-- The two ways to panic. -/
inductive Panic
  /-- `panic("Expect to run on an SMP")` -/
  | expectSmp
  /-- `panic("Didn't find a suitable machine")` -/
  | noSuitable
  deriving DecidableEq

/-- The loop begins. -/
def start (m : Mem) (g : Globals) (conf : ℕ) : Walk :=
  ⟨conf + sizeofMpconf, true, { g with lapic := field m (conf + 36) 4 }⟩

/-- The writes to ports, with what was read from port 0x23. -/
def selectImcr (m : Mem) (imcr : UInt8) (mp : ℕ) : List (ℕ × UInt8) :=
  if m (mp + 12) ≠ 0 then [(0x22, 0x70), (0x23, imcr ||| 1)] else []

/-- `mpinit`, or `none` if it has not ended after `n` rounds of its loop. -/
def mpinit (m : Mem) (imcr : UInt8) (n : ℕ) (g : Globals) :
    Option (Except Panic (Globals × List (ℕ × UInt8))) :=
  match mpconfig m with
  | none => some (.error .expectSmp)
  | some (mp, conf) =>
      (entryLoop m (conf + confLength m conf) n (start m g conf)).map fun w =>
        if w.ismp then .ok (w.globals, selectImcr m imcr mp) else .error .noSuitable

/-! ### The entries -/

/-- The size of an entry, if its type is known. -/
def entrySize (type : UInt8) : Option ℕ :=
  if type = mpproc then some sizeofMpproc
  else if type = mpioapic then some sizeofMpioapic
  else if type = mpbus ∨ type = mpiointr ∨ type = mplintr then some 8
  else none

/-- From the entry at `p`, by the sizes of the entries, there is an entry at `q` that begins
below `e`. -/
inductive Visits (m : Mem) (e : ℕ) : ℕ → ℕ → Prop
  | here {p : ℕ} (h : p < e) : Visits m e p p
  | next {p q k : ℕ} (h : p < e) (hsize : entrySize (m p) = some k) (hnext : Visits m e (p + k) q) :
      Visits m e p q

/-- An entry of the table has an unknown type. -/
def Unknown (m : Mem) (conf : ℕ) : Prop :=
  ∃ q, Visits m (conf + confLength m conf) (conf + sizeofMpconf) q ∧ entrySize (m q) = none

section Loop

variable {m : Mem} {w : Walk} {e : ℕ}

/-- No entry is empty. -/
theorem entrySize_pos {type : UInt8} {k : ℕ} (h : entrySize type = some k) : 0 < k := by
  unfold entrySize at h
  split_ifs at h
  all_goals
    cases h
    decide

/-- An entry of a known type is passed. -/
theorem entry_of_size {k : ℕ} (h : entrySize (m w.p) = some k) :
    (entry m w).p = w.p + k ∧ (entry m w).ismp = w.ismp := by
  unfold entrySize at h
  unfold entry
  split_ifs at h ⊢
  all_goals
    cases h
    exact ⟨rfl, rfl⟩

/-- An entry of an unknown type is not. -/
theorem entry_of_none (h : entrySize (m w.p) = none) : entry m w = { w with ismp := false } := by
  unfold entrySize at h
  unfold entry
  split_ifs at h ⊢
  rfl

theorem Globals.ncpu_addCpu {g : Globals} (h : g.ncpu ≤ ncpuMax) (apicid : UInt8) :
    (g.addCpu apicid).ncpu ≤ ncpuMax := by
  rw [addCpu]
  split
  · next hroom => exact hroom
  · exact h

/-- A round does not note too many processors. -/
theorem ncpu_entry (h : w.globals.ncpu ≤ ncpuMax) : (entry m w).globals.ncpu ≤ ncpuMax := by
  rw [entry]
  split_ifs
  · exact Globals.ncpu_addCpu h _
  · exact h
  · exact h
  · exact h

theorem ncpu_iterate (h : w.globals.ncpu ≤ ncpuMax) (k : ℕ) :
    ((entry m)^[k] w).globals.ncpu ≤ ncpuMax := by
  induction k with
  | zero => exact h
  | succ k ih =>
    rw [Function.iterate_succ_apply']
    exact ncpu_entry ih

/-- **The loop ends** where it comes to no unknown entry: each round passes one. -/
theorem entryLoop_of_known : ∀ (n : ℕ) (w : Walk), e - w.p < n →
    (∀ q, Visits m e w.p q → entrySize (m q) ≠ none) →
    ∃ w', entryLoop m e n w = some w' ∧ w'.ismp = w.ismp := by
  intro n
  induction n with
  | zero => intro w hn; omega
  | succ n ih =>
    intro w hn hknown
    rw [entryLoop]
    by_cases hlt : w.p < e
    · obtain ⟨k, hk⟩ := Option.ne_none_iff_exists'.mp (hknown w.p (.here hlt))
      obtain ⟨hp, hismp⟩ := entry_of_size hk
      have hpos := entrySize_pos hk
      rw [if_pos hlt, ← hismp]
      refine ih _ (by omega) fun q hq => hknown q (.next hlt hk ?_)
      rw [← hp]
      exact hq
    · rw [if_neg hlt]
      exact ⟨w, rfl, rfl⟩

/-- **The loop does not end** where it comes to an unknown entry: it stays there. -/
theorem entryLoop_of_unknown {p q : ℕ} (h : Visits m e p q) (hnone : entrySize (m q) = none) :
    ∀ (n : ℕ) (w : Walk), w.p = p → entryLoop m e n w = none := by
  induction h with
  | here hlt =>
    intro n
    induction n with
    | zero => intro w _; rfl
    | succ n ih =>
      rintro w rfl
      rw [entryLoop, if_pos hlt, entry_of_none hnone]
      exact ih _ rfl
  | next hlt hsize _ ih =>
    intro n w hw
    cases n with
    | zero => rfl
    | succ n =>
      subst hw
      rw [entryLoop, if_pos hlt]
      exact ih hnone n _ (entry_of_size hsize).1

end Loop

/-- The walk over the table ends: in a panic if it comes to an unknown entry.  No round of it
notes more than `NCPU` processors. -/
def Ends (m : Mem) (imcr : UInt8) (g : Globals) (conf : ℕ) : Prop :=
  (∃ n r, mpinit m imcr n g = some r ∧ (Unknown m conf → r = .error .noSuitable)) ∧
    ∀ k, ((entry m)^[k] (start m g conf)).globals.ncpu ≤ ncpuMax

/-- **When the walk over the table ends.**  Let a table pass the tests of `mpconfig`.  The loop of
`mpinit` ends if and only if it comes to no entry of an unknown type, going from the header on by
the sizes of the entries. -/
theorem mpinit_ends_iff (m : Mem) (imcr : UInt8) (g : Globals) {mp conf : ℕ}
    (hconf : mpconfig m = some (mp, conf)) (hncpu : g.ncpu ≤ ncpuMax) :
    Ends m imcr g conf ↔ ¬ Unknown m conf := by
  constructor
  · rintro ⟨⟨n, r, hrun, -⟩, -⟩ ⟨q, hq, hnone⟩
    rw [mpinit, hconf] at hrun
    dsimp only at hrun
    rw [entryLoop_of_unknown hq hnone n (start m g conf) rfl] at hrun
    cases hrun
  · intro hknown
    have hvisits : ∀ q, Visits m (conf + confLength m conf) (start m g conf).p q →
        entrySize (m q) ≠ none := fun q hq hnone => hknown ⟨q, hq, hnone⟩
    obtain ⟨n, hn⟩ : ∃ n, conf + confLength m conf - (start m g conf).p < n :=
      ⟨_, Nat.lt_succ_self _⟩
    obtain ⟨w, hw, hismp⟩ := entryLoop_of_known n (start m g conf) hn hvisits
    have hend : mpinit m imcr n g = some (.ok (w.globals, selectImcr m imcr mp)) := by
      rw [mpinit, hconf]
      dsimp only
      rw [hw, Option.map_some, hismp]
      rfl
    exact ⟨⟨n, _, hend, fun hunknown => absurd hunknown hknown⟩, ncpu_iterate hncpu⟩

/-! ### Two tables -/

/-- A memory with the extended BIOS data area at 0x9FC00, the floating pointer structure at its
start, and a configuration table at 0x9FD00. -/
def memWith (check : UInt8) (table : List UInt8) : Mem := fun a =>
  if a = 0x40E then 0xC0
  else if a = 0x40F then 0x9F
  else if 0x9FC00 ≤ a ∧ a < 0x9FC10 then
    (str "_MP_" ++ [0, 0xFD, 9, 0, 1, 4, check, 0, 0, 0, 0, 0]).getD (a - 0x9FC00) 0
  else if 0x9FD00 ≤ a then table.getD (a - 0x9FD00) 0
  else 0

/-- A configuration table with some entries. -/
def tableWith (check : UInt8) (entries : List UInt8) : List UInt8 :=
  str "PCMP" ++ [UInt8.ofNat (44 + entries.length), 0, 4, check] ++ List.replicate 36 0 ++ entries

/-- The variables at boot. -/
def boot : Globals := ⟨0, fun _ => 0, 0, 0⟩

/-- A table with one processor. -/
def oneCpu : Mem := memWith 154 (tableWith 133 (0 :: 7 :: List.replicate 18 0))

theorem mpconfig_oneCpu : mpconfig oneCpu = some (0x9FC00, 0x9FD00) := by decide +kernel

theorem mpinit_ends_iff_oneCpu : Ends oneCpu 0 boot 0x9FD00 ↔ ¬ Unknown oneCpu 0x9FD00 :=
  mpinit_ends_iff oneCpu 0 boot mpconfig_oneCpu (by decide)

/-- A table with an entry of the type 5. -/
def oneUnknown : Mem := memWith 154 (tableWith 154 [5])

/-- The table passes the tests, and the loop does not end. -/
theorem not_mpinit_ends : mpconfig oneUnknown = some (0x9FC00, 0x9FD00) ∧
    (∀ n, mpinit oneUnknown 0 n boot = none) ∧ ¬ Ends oneUnknown 0 boot 0x9FD00 := by
  have hconf : mpconfig oneUnknown = some (0x9FC00, 0x9FD00) := by decide +kernel
  have hloop : ∀ n, mpinit oneUnknown 0 n boot = none := by
    intro n
    have hlen : 0x9FD00 + confLength oneUnknown 0x9FD00 = 0x9FD2D := by decide +kernel
    have hnone : entrySize (oneUnknown 0x9FD2C) = none := by decide +kernel
    have hhere : Visits oneUnknown 0x9FD2D 0x9FD2C 0x9FD2C := .here (by norm_num)
    rw [mpinit, hconf]
    dsimp only
    rw [hlen, entryLoop_of_unknown hhere hnone n (start oneUnknown boot 0x9FD00) rfl,
      Option.map_none]
  refine ⟨hconf, hloop, ?_⟩
  rintro ⟨⟨n, r, hrun, -⟩, -⟩
  rw [hloop n] at hrun
  cases hrun

end Mp
end Xv6
