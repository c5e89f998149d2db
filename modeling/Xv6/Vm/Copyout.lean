import Xv6.Vm.Dealloc

/-!
# Writing to a user address

`uva2ka` and `copyout` of `vm.c`.  `walkpgdir` returns no entry where there is no page table,
and `uva2ka` does not look whether there is one.

* `uva2ka`, `copyout` — the code.
* `Accessible`, `Copied` — the pages that may be written, and what is written.
* `wp_copyout` — **what `copyout` does**, to the page it ends at.
* `copyoutSafe_iff` — **when `copyout` is safe**: the first page that is not accessible has a
  page table, and where there is no such page the range does not wrap.
-/

namespace Xv6
namespace Vm

open Prog

/-! ### The code -/

/-- The memory with some bytes written to the page `f`, from `o` on. -/
def Ram.write (s : Ram) (f o : ℕ) (bytes : List UInt8) : Ram :=
  { s with page := Function.update s.page f fun x =>
            if o ≤ x ∧ x < o + bytes.length then bytes.getD (x - o) 0 else s.page f x }

/-- `memmove` to a kernel address, inside of a page. -/
def memmove (a : ℕ) (bytes : List UInt8) : Kern Unit :=
  modify fun s => s.write (v2p a / pgsize) (a % pgsize) bytes

/-- `uva2ka`, with the kernel address of the page, or 0. -/
def uva2ka (d : PgDir) (uva : ℕ) : Kern ℕ := do
  let (d, found) ← walkpgdir d uva false
  -- *pte is read without a test of pte
  if found then
    if (d.entry uva).present then
      if (d.entry uva).user then return p2v (d.entry uva).frame
      else return 0
    else return 0
  else stop .null

/-- The loop of `copyout`; there are no more rounds than bytes. -/
def copyoutLoop (d : PgDir) : ℕ → ℕ → List UInt8 → Kern ℤ
  | 0, _, _ => stop .diverges
  | k + 1, va, buf =>
      if buf.length > 0 then do
        let va0 := pgrounddown va
        let pa0 ← uva2ka d va0
        if pa0 = 0 then return -1
        else
          let n := min (pgsize - (va - va0)) buf.length
          memmove (pa0 + (va - va0)) (buf.take n)
          copyoutLoop d k ((va0 + pgsize) % 2 ^ 32) (buf.drop n)
      else return 0

/-- `copyout` -/
def copyout (d : PgDir) (va : ℕ) (p : List UInt8) : Kern ℤ := copyoutLoop d (p.length + 1) va p

/-! ### What is written -/

/-- The number of the page that byte `i` of a range is on. -/
def pageOf (va i : ℕ) : ℕ := (va + i) % 2 ^ 32 / 4096

namespace PgDir

/-- `PTE_P` and `PTE_U` are set for a page. -/
def Accessible (d : PgDir) (v : ℕ) : Prop := (d.at v).present = true ∧ (d.at v).user = true

/-- There is a page table for a page. -/
def HasTable (d : PgDir) (v : ℕ) : Prop := d.pde (v / 1024 % 1024) ≠ none

/-- The user pages are physical memory. -/
def Physical (d : PgDir) : Prop :=
  ∀ v < 2 ^ 20, d.Accessible v → (d.at v).frame < phystop / pgsize

/-- Where byte `i` of a range is: the page, and the offset. -/
def loc (d : PgDir) (va i : ℕ) : ℕ × ℕ := ((d.at (pageOf va i)).frame, (va + i) % 4096)

end PgDir

/-- Nothing but accessible pages of a range of `len` bytes has been written. -/
structure Within (d : PgDir) (va len : ℕ) (s s' : Ram) : Prop where
  free : s'.freelist = s.freelist
  kept : ∀ f o, (∀ i < len, d.Accessible (pageOf va i) → d.loc va i ≠ (f, o)) →
    s'.page f o = s.page f o

/-- The bytes have been written.  Of two bytes for one place it is the second one. -/
structure Copied (d : PgDir) (va : ℕ) (p : List UInt8) (s s' : Ram) : Prop
    extends Within d va p.length s s' where
  byte : ∀ i < p.length, (∀ j, i < j → j < p.length → d.loc va j ≠ d.loc va i) →
    s'.page (d.loc va i).1 (d.loc va i).2 = p.getD i 0

section Specs

variable {E : Panic → Prop} {s : Ram} {d : PgDir}

theorem p2v_ne_zero {f : ℕ} (h : f < phystop / pgsize) : p2v f ≠ 0 := by
  have hmax : f < 2 ^ 19 := h.trans_le (by decide)
  rw [p2v, pgsize, kernbase]
  omega

theorem v2p_p2v {f o : ℕ} (h : f < phystop / pgsize) (ho : o < 4096) :
    v2p (p2v f + o) / pgsize = f ∧ (p2v f + o) % pgsize = o := by
  have hmax : f < 2 ^ 19 := h.trans_le (by decide)
  rw [v2p, p2v, pgsize, kernbase]
  omega

theorem page_write (s : Ram) (f o : ℕ) (bytes : List UInt8) (g x : ℕ) :
    (s.write f o bytes).page g x =
      if g = f ∧ o ≤ x ∧ x < o + bytes.length then bytes.getD (x - o) 0 else s.page g x := by
  rw [Ram.write]
  dsimp only
  rw [Function.update_apply]
  by_cases hg : g = f
  · rw [if_pos hg, hg]
    exact if_congr (by simp) rfl rfl
  · rw [if_neg hg, if_neg fun h => hg h.1]

theorem pageOf_lt (va i : ℕ) : pageOf va i < 2 ^ 20 := by
  rw [pageOf]
  omega

/-- The bytes on the first page. -/
theorem pageOf_first {va i : ℕ} (hva : va < 2 ^ 32) (hi : va % 4096 + i < 4096) :
    pageOf va i = va / 4096 ∧ (va + i) % 4096 = va % 4096 + i := by
  rw [pageOf]
  omega

/-- The bytes behind the first page. -/
theorem pageOf_next {va k : ℕ} :
    pageOf va (4096 - va % 4096 + k) = pageOf ((va / 4096 + 1) * 4096 % 2 ^ 32) k ∧
      (va + (4096 - va % 4096 + k)) % 4096 = ((va / 4096 + 1) * 4096 % 2 ^ 32 + k) % 4096 := by
  rw [pageOf, pageOf]
  omega

theorem loc_next {va k : ℕ} :
    d.loc va (4096 - va % 4096 + k) = d.loc ((va / 4096 + 1) * 4096 % 2 ^ 32) k := by
  rw [PgDir.loc, PgDir.loc, pageOf_next.1, pageOf_next.2]

theorem loc_first {va i : ℕ} (hva : va < 2 ^ 32) (hi : va % 4096 + i < 4096) :
    d.loc va i = ((d.at (va / 4096)).frame, va % 4096 + i) := by
  rw [PgDir.loc, (pageOf_first hva hi).1, (pageOf_first hva hi).2]

/-- The bytes on the first page are written, and then those behind it. -/
theorem Within.next {va m len : ℕ} {bytes : List UInt8} {s' : Ram} (hva : va < 2 ^ 32)
    (hm : m = min (4096 - va % 4096) len) (hbytes : bytes.length = m)
    (hacc : d.Accessible (va / 4096))
    (h : Within d ((va / 4096 + 1) * 4096 % 2 ^ 32) (len - m)
      (s.write (d.at (va / 4096)).frame (va % 4096) bytes) s') : Within d va len s s' := by
  refine ⟨h.free, fun f o hout => ?_⟩
  rw [h.kept f o fun k hk hacc' => ?_, page_write, if_neg ?_]
  · rintro ⟨rfl, hlo, hhi⟩
    rw [hbytes] at hhi
    have hin : va % 4096 + (o - va % 4096) < 4096 := by omega
    have hloc := hout (o - va % 4096) (by omega)
    rw [(pageOf_first hva hin).1, loc_first hva hin] at hloc
    exact hloc hacc (by rw [Nat.add_sub_cancel' hlo])
  · have hroom : m = 4096 - va % 4096 := by omega
    have hloc := hout (4096 - va % 4096 + k) (by omega)
    rw [pageOf_next.1, loc_next] at hloc
    exact hloc hacc'

theorem Copied.next {va m : ℕ} {p : List UInt8} {s' : Ram} (hva : va < 2 ^ 32)
    (hm : m = min (4096 - va % 4096) p.length) (hacc : d.Accessible (va / 4096))
    (h : Copied d ((va / 4096 + 1) * 4096 % 2 ^ 32) (p.drop m)
      (s.write (d.at (va / 4096)).frame (va % 4096) (p.take m)) s') : Copied d va p s s' := by
  have htake : (p.take m).length = m := by
    rw [List.length_take]
    omega
  have hrest := h.toWithin
  rw [List.length_drop] at hrest
  refine ⟨hrest.next hva hm htake hacc, fun i hi hlast => ?_⟩
  by_cases him : i < m
  · -- a byte on the first page
    have hin : va % 4096 + i < 4096 := by omega
    rw [hrest.kept _ _ fun k hk _ => ?_, loc_first hva hin, page_write, htake,
      if_pos ⟨rfl, by dsimp only; omega, by dsimp only; omega⟩]
    · dsimp only
      rw [Nat.add_sub_cancel_left, List.getD_eq_getElem?_getD, List.getD_eq_getElem?_getD,
        List.getElem?_take_of_lt him]
    · have hroom : m = 4096 - va % 4096 := by omega
      have hne := hlast (4096 - va % 4096 + k) (by omega) (by omega)
      rw [loc_next] at hne
      exact hne
  · have hroom : m = 4096 - va % 4096 := by omega
    have hshift : i = 4096 - va % 4096 + (i - m) := by omega
    have hbyte := h.byte (i - m) (by rw [List.length_drop]; omega) fun j hj hjlen => ?_
    · rw [← loc_next, ← hshift] at hbyte
      rw [hbyte, List.getD_eq_getElem?_getD, List.getD_eq_getElem?_getD, List.getElem?_drop,
        Nat.add_sub_cancel' (by omega)]
    · rw [List.length_drop] at hjlen
      have hne := hlast (4096 - va % 4096 + j) (by omega) (by omega)
      rw [hshift, loc_next, loc_next] at hne
      exact hne

theorem wp_uva2ka {v : ℕ} {Q : ℕ → Ram → Prop} [Decidable (d.Accessible v)] :
    wp (uva2ka d (v * 4096)) E Q s ↔
      if d.pde (v / 1024 % 1024) = none then E .null
      else Q (if d.Accessible v then p2v (d.at v).frame else 0) s := by
  rw [uva2ka, wp_bind, wp_walkpgdir, pdx_page]
  cases h : d.pde (v / 1024 % 1024) with
  | none => simp
  | some t =>
    simp only [Option.isSome_some, if_true, reduceCtorEq, if_false]
    rw [show d.entry (v * 4096) = d.at v from rfl]
    by_cases hp : (d.at v).present = true
    · by_cases hu : (d.at v).user = true
      · rw [if_pos hp, if_pos hu, if_pos ⟨hp, hu⟩, wp_pure]
      · rw [if_pos hp, if_neg hu, if_neg fun hacc => hu hacc.2, wp_pure]
    · rw [if_neg hp, if_neg fun hacc => hp hacc.1, wp_pure]

/-- The first byte of a range on a page that is not accessible. -/
def PgDir.Stops (d : PgDir) (va len i : ℕ) : Prop :=
  i < len ∧ (∀ j < i, d.Accessible (pageOf va j)) ∧ ¬ d.Accessible (pageOf va i)

theorem PgDir.Stops.unique {va len i j : ℕ} (h : d.Stops va len i) (h' : d.Stops va len j) :
    i = j := by
  rcases Nat.lt_trichotomy i j with hlt | heq | hgt
  · exact absurd (h'.2.1 i hlt) h.2.2
  · exact heq
  · exact absurd (h.2.1 j hgt) h'.2.2

theorem PgDir.Stops.next {va len m i : ℕ} (hva : va < 2 ^ 32) (hm : m = min (4096 - va % 4096) len)
    (hacc : d.Accessible (va / 4096))
    (h : d.Stops ((va / 4096 + 1) * 4096 % 2 ^ 32) (len - m) i) :
    d.Stops va len (4096 - va % 4096 + i) := by
  obtain ⟨hi, hbefore, hstop⟩ := h
  refine ⟨by omega, fun j hj => ?_, by rw [pageOf_next.1]; exact hstop⟩
  rcases Nat.lt_or_ge j (4096 - va % 4096) with hlt | hge
  · rw [(pageOf_first hva (by omega)).1]
    exact hacc
  · obtain ⟨k, rfl⟩ := Nat.exists_eq_add_of_le hge
    rw [pageOf_next.1]
    exact hbefore k (by omega)

/-- The two ends of `copyout`. -/
def CopyEnd (d : PgDir) (va : ℕ) (p : List UInt8) (s : Ram) (r : ℤ) (s' : Ram) : Prop :=
  (r = 0 ∧ (∀ i < p.length, d.Accessible (pageOf va i)) ∧ Copied d va p s s') ∨
  (r = -1 ∧ Within d va p.length s s' ∧
    ∃ i, d.Stops va p.length i ∧ d.HasTable (pageOf va i))

/-- **`copyout`** ends at the first page that is not accessible, at a null pointer if there is
no page table. -/
theorem wp_copyoutLoop (hphys : d.Physical) : ∀ (k va : ℕ) (p : List UInt8) (s : Ram),
    va < 2 ^ 32 → p.length < k →
    wp (copyoutLoop d k va p)
      (fun e => e = .null ∧ ∃ i, d.Stops va p.length i ∧ ¬ d.HasTable (pageOf va i))
      (CopyEnd d va p s) s := by
  classical
  intro k
  induction k with
  | zero => intro va p s _ hk; omega
  | succ k ih =>
    intro va p s hva hk
    rw [copyoutLoop]
    rcases Nat.eq_zero_or_pos p.length with hzero | hpos
    · rw [if_neg (by omega), wp_pure]
      refine .inl ⟨rfl, fun i hi => by omega, ⟨rfl, fun _ _ _ => rfl⟩, fun i hi => by omega⟩
    · have hfirst : pageOf va 0 = va / 4096 := (pageOf_first hva (by omega)).1
      have hzero : ¬ d.Accessible (va / 4096) → d.Stops va p.length 0 := fun hno =>
        ⟨hpos, fun j hj => by omega, by rw [hfirst]; exact hno⟩
      rw [if_pos hpos, wp_bind, pgrounddown, pgsize, wp_uva2ka]
      split
      · next hnone =>
        have hno : ¬ d.Accessible (va / 4096) := fun hacc => by
          rw [PgDir.Accessible, PgDir.at_of_none hnone] at hacc
          cases hacc.1
        exact ⟨rfl, 0, hzero hno, by rw [hfirst]; exact not_not.mpr hnone⟩
      · next htable =>
        by_cases hacc : d.Accessible (va / 4096)
        · have hf := hphys _ (by omega) hacc
          have hoff : va - va / 4096 * 4096 = va % 4096 := by omega
          obtain ⟨m, hm⟩ : ∃ m, m = min (4096 - va % 4096) p.length := ⟨_, rfl⟩
          have hv2p := v2p_p2v hf (Nat.mod_lt va (by decide : 0 < 4096))
          rw [if_pos hacc, if_neg (p2v_ne_zero hf), hoff, ← hm, wp_bind, memmove, wp_modify, hv2p.1,
            hv2p.2, show va / 4096 * 4096 + 4096 = (va / 4096 + 1) * 4096 by omega]
          have hlen : (p.drop m).length = p.length - m := List.length_drop
          refine wp_mono (ih ((va / 4096 + 1) * 4096 % 2 ^ 32) (p.drop m) _
            (Nat.mod_lt _ (by decide)) (by omega)) (fun r s' hend => ?_) ?_
          · rcases hend with ⟨hr, hall, hcopied⟩ | ⟨hr, hwithin, i, hstop, hhas⟩
            · refine .inl ⟨hr, fun i hi => ?_, hcopied.next hva hm hacc⟩
              rcases Nat.lt_or_ge i (4096 - va % 4096) with hlt | hge
              · rw [(pageOf_first hva (by omega)).1]
                exact hacc
              · obtain ⟨j, rfl⟩ := Nat.exists_eq_add_of_le hge
                rw [pageOf_next.1]
                exact hall j (by omega)
            · rw [hlen] at hwithin hstop
              refine .inr ⟨hr, hwithin.next hva hm ?_ hacc, _, hstop.next hva hm hacc, ?_⟩
              · rw [List.length_take]
                omega
              · rw [pageOf_next.1]
                exact hhas
          · rintro e ⟨he, i, hstop, hhas⟩
            rw [hlen] at hstop
            exact ⟨he, _, hstop.next hva hm hacc, by rw [pageOf_next.1]; exact hhas⟩
        · rw [if_neg hacc, if_pos rfl, wp_pure]
          refine .inr ⟨rfl, ⟨rfl, fun _ _ _ => rfl⟩, 0, hzero hacc, ?_⟩
          rw [hfirst]
          exact htable

/-- **`copyout` is safe** for a range: it returns 0 if and only if the range does not wrap and
its pages are accessible, and then the bytes are written; else it returns −1. -/
def CopyoutSafe (d : PgDir) (va : ℕ) (p : List UInt8) (s : Ram) : Prop :=
  wp (copyout d va p) (fun _ => False) (fun r s' => (r = 0 ∨ r = -1) ∧
    (r = 0 ↔ va + p.length ≤ 2 ^ 32 ∧ ∀ a, va ≤ a → a < va + p.length → d.Accessible (a / 4096)) ∧
    (r = 0 → Copied d va p s s')) s

/-- A run that is safe has not read through a null pointer. -/
theorem CopyoutSafe.hasTable {va : ℕ} {p : List UInt8} (hva : va < 2 ^ 32) (hphys : d.Physical)
    (h : CopyoutSafe d va p s) {i : ℕ} (hi : d.Stops va p.length i) : d.HasTable (pageOf va i) := by
  obtain ⟨r, s', hrun, -⟩ := exists_of_wp h
  rcases wp_ok (wp_copyoutLoop hphys _ va p s hva (Nat.lt_succ_self _)) hrun with
    ⟨-, hall, -⟩ | ⟨-, -, j, hj, htable⟩
  · exact absurd (hall i hi.1) hi.2.2
  · rw [hi.unique hj]
    exact htable

/-- **When `copyout` is safe**: the first page that is not accessible, going up from `va` and
on from 0 behind the last address, has a page table, and if there is no such page then the
range does not wrap. -/
theorem copyoutSafe_iff (d : PgDir) (s : Ram) {va : ℕ} (hva : va < 2 ^ 32) (p : List UInt8)
    (hphys : d.Physical) : CopyoutSafe d va p s ↔
      (∀ i, d.Stops va p.length i → d.HasTable (pageOf va i)) ∧
      ((∀ i < p.length, d.Accessible (pageOf va i)) → va + p.length ≤ 2 ^ 32) := by
  have hspec := wp_copyoutLoop hphys (p.length + 1) va p s hva (Nat.lt_succ_self _)
  constructor
  · intro h
    refine ⟨fun i hi => h.hasTable hva hphys hi, fun hall => ?_⟩
    obtain ⟨r, s', hrun, -, hret, -⟩ := exists_of_wp h
    rcases wp_ok hspec hrun with ⟨hr, -, -⟩ | ⟨-, -, i, hi, -⟩
    · exact (hret.mp hr).1
    · exact absurd (hall i hi.1) hi.2.2
  · rintro ⟨htable, hwrap⟩
    refine wp_mono hspec (fun r s' hend => ?_) ?_
    · rcases hend with ⟨rfl, hall, hcopied⟩ | ⟨rfl, -, i, hi, -⟩
      · refine ⟨.inl rfl, iff_of_true rfl ⟨hwrap hall, fun a hlo hhi => ?_⟩, fun _ => hcopied⟩
        have hend := hwrap hall
        have hpage : pageOf va (a - va) = a / 4096 := by
          rw [pageOf]
          omega
        rw [← hpage]
        exact hall (a - va) (by omega)
      · refine ⟨.inr rfl, iff_of_false (by decide) fun hall => hi.2.2 ?_,
          fun hret => absurd hret (by decide)⟩
        have hlt := hi.1
        have hpage : pageOf va i = (va + i) / 4096 := by
          rw [pageOf]
          omega
        rw [hpage]
        exact hall.2 (va + i) (by omega) (by omega)
    · rintro e ⟨-, i, hi, hnone⟩
      exact hnone (htable i hi)

end Specs

theorem onePage_accessible {v : ℕ} (hv : v < 2 ^ 20) : onePage.Accessible v ↔ v = 0 := by
  rw [PgDir.Accessible, onePage_at hv]
  split
  · next h => exact iff_of_true ⟨by decide, by decide⟩ h
  · next h => exact iff_of_false (by decide) h

theorem onePage_physical : onePage.Physical := by
  intro v hv hacc
  rw [onePage_at hv, if_pos ((onePage_accessible hv).mp hacc)]
  decide

theorem copyoutSafe_onePage : CopyoutSafe onePage 16 [65, 0] ⟨[], fun _ _ => 0⟩ := by
  refine (copyoutSafe_iff onePage _ (by decide) [65, 0] onePage_physical).mpr
    ⟨fun i hi => absurd ?_ hi.2.2, fun _ => by decide⟩
  have hlt := hi.1
  rw [onePage_accessible (pageOf_lt _ _), pageOf]
  rw [List.length_cons, List.length_cons, List.length_nil] at hlt
  omega

/-- At 4 MB there is no page table, and the null pointer is read through. -/
theorem not_copyoutSafe : onePage.Physical ∧
    ¬ CopyoutSafe onePage 0x400000 [65] ⟨[], fun _ _ => 0⟩ := by
  refine ⟨onePage_physical, fun h => ?_⟩
  have hpage : pageOf 0x400000 0 = 1024 := by decide
  have hstops : onePage.Stops 0x400000 1 0 := by
    refine ⟨Nat.zero_lt_one, fun j hj => by omega, ?_⟩
    rw [hpage, onePage_accessible (by decide)]
    decide
  have htable := h.hasTable (by decide) onePage_physical hstops
  rw [hpage] at htable
  exact htable (by decide)

end Vm
end Xv6
