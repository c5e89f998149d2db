import Xv6.Console.Autocomplete

/-!
# The scan for the word before the cursor

`autocomplete` looks for the start of a word with a `start` of type `int`, which it compares with
the unsigned `input.r` and reduces modulo `INPUT_BUF`.  While `input.r` is zero no `start` is
below it; from `2 ^ 31` on a `start` is negative, and so is its remainder; and a word that fills
the ring leaves no byte for its NUL.

## Main definitions

* `unread`, `current` — the unread text, and its last word.
* `index`, `scanReads` — an index into `input.buf`, and those that the scan reads.
* `ScanSafe` — the scan ends in the unread text, and every index is in its array.
* `ScanExact` — the states where it is so.

## Main results

* `scanWord_low` — the scan over text below `2 ^ 31`.
* `scanSafe_iff` — **when the scan is safe**, in every state of the ring.
-/

namespace Xv6
namespace Console
namespace Autocomplete

open Counter

variable {m : Memory} {g : Input}

/-! ### The indices -/

/-- The unread text. -/
def unread (g : Input) : List UInt8 := segment g.get g.r (dist g.r g.e)

/-- The current word: what follows the last blank of the unread text. -/
def current (g : Input) : List UInt8 := (unread g).rtakeWhile (· ≠ 0x20)

/-- `i % INPUT_BUF`, for an `i` of type `int` given by its bits. -/
def index (i : UInt32) : ℤ := i.toInt32.toInt.tmod 128

/-- An index of an array of `INPUT_BUF` bytes. -/
def InBuf (i : ℤ) : Prop := 0 ≤ i ∧ i < 128

instance (i : ℤ) : Decidable (InBuf i) := inferInstanceAs (Decidable (_ ∧ _))

/-- The indices into `input.buf` that `scanWord` reads. -/
def scanReads (m : Memory) (g : Input) : ℕ → UInt32 → List ℤ
  | 0, _ => []
  | n + 1, start =>
      if g.r ≤ start then
        index start :: if charAt m g start ≠ 0x20 then scanReads m g n (start - 1) else []
      else []

/-- **The scan ends, at a start of the word in the unread text, and every index is in its
array**: those of the scan and of the copy into `input.buf`, those of the copy into `buf`, and the
length of the word, where `buf` gets its NUL. -/
def ScanSafe (m : Memory) (g : Input) : Prop :=
  (∀ i ∈ scanReads m g (dist g.r g.e + 128) (g.e - 1), InBuf i) ∧
    ∃ stop, scanWord m g (dist g.r g.e + 128) (g.e - 1) = some stop ∧
      dist g.r (stop + 1) ≤ dist g.r g.e ∧
      (∀ k < dist (stop + 1) g.e, InBuf (index (stop + 1 + UInt32.ofNat k)) ∧ InBuf k) ∧
      InBuf (dist (stop + 1) g.e)

/-- A remainder is in the array if it is of a number below `2 ^ 31`, or zero. -/
theorem inBuf_index_iff (i : UInt32) : InBuf (index i) ↔ i.toNat < 2 ^ 31 ∨ i.toNat % 128 = 0 := by
  have hlt := UInt32.toNat_lt i
  unfold InBuf index
  rw [toInt_toInt32]
  split
  · next hlow =>
    rw [Int.tmod_eq_emod_of_nonneg (by omega)]
    omega
  · next hhigh =>
    have hneg : (i.toNat : ℤ) - 2 ^ 32 = -((2 ^ 32 - i.toNat : ℕ) : ℤ) := by omega
    rw [hneg, Int.neg_tmod, Int.tmod_eq_emod_of_nonneg (by omega)]
    omega

/-- What is read at an index in the array. -/
theorem charAt_of_inBuf {i : UInt32} (h : InBuf (index i)) : charAt m g i = g.get i := by
  refine if_pos (((inBuf_index_iff i).mp h).imp (fun hlow => ?_) fun hzero => ?_)
  · exact UInt32.lt_iff_toNat_lt.mpr hlow
  · rw [← UInt32.toNat_inj, UInt32.toNat_mod]
    exact hzero

/-! ### The scan -/

/-- One test of the scan, at a position of the unread text with an index in the array. -/
theorem scan_succ {n : ℕ} {start : UInt32} (hle : g.r ≤ start) (hin : InBuf (index start)) :
    scanWord m g (n + 1) start =
        (if g.get start ≠ 0x20 then scanWord m g n (start - 1) else some start) ∧
      scanReads m g (n + 1) start =
        index start :: if g.get start ≠ 0x20 then scanReads m g n (start - 1) else [] := by
  rw [scanWord, scanReads, if_pos hle, charAt_of_inBuf hin]
  exact ⟨if_congr (and_iff_right hle) rfl rfl, rfl⟩

/-- In front of the unread text the scan ends. -/
theorem scan_end {n : ℕ} {start : UInt32} (hlt : ¬ g.r ≤ start) :
    scanWord m g (n + 1) start = some start ∧ scanReads m g (n + 1) start = [] := by
  rw [scanWord, scanReads, if_neg hlt, if_neg fun h => hlt h.1]
  exact ⟨rfl, rfl⟩

/-- The position before one so many steps on. -/
theorem add_ofNat_succ_sub (a : UInt32) (k : ℕ) :
    a + UInt32.ofNat (k + 1) - 1 = a + UInt32.ofNat k := by
  rw [UInt32.ofNat_add, ← UInt32.add_assoc]
  exact UInt32.add_sub_cancel _ _

theorem toNat_add_ofNat {a : UInt32} {k : ℕ} (h : a.toNat + k < 2 ^ 32) :
    (a + UInt32.ofNat k).toNat = a.toNat + k := by
  rw [UInt32.toNat_add, UInt32.toNat_ofNat', Nat.mod_eq_of_lt (by omega : k < 2 ^ 32),
    Nat.mod_eq_of_lt h]

/-- **The scan over the first `k` bytes of the unread text**, none of them above `2 ^ 31`, if one of
them is a blank or `input.r` stops it: it finds their last word, and stays in the array. -/
theorem scanWord_low : ∀ (k n : ℕ), g.r.toNat + k ≤ 2 ^ 31 + 1 → k < n →
    g.r ≠ 0 ∨ 0x20 ∈ segment g.get g.r k →
      (∀ i ∈ scanReads m g n (g.r + UInt32.ofNat k - 1), InBuf i) ∧
        ∃ j ≤ k, scanWord m g n (g.r + UInt32.ofNat k - 1) = some (g.r + UInt32.ofNat j - 1) ∧
          segment g.get (g.r + UInt32.ofNat j) (k - j) =
            (segment g.get g.r k).rtakeWhile (· ≠ 0x20) := by
  intro k
  induction k with
  | zero =>
    intro n hlow hn hend
    obtain ⟨n, rfl⟩ : ∃ n', n = n' + 1 := ⟨n - 1, by omega⟩
    -- `input.r` is not zero, and stops the scan
    have hr : g.r ≠ 0 := hend.resolve_right List.not_mem_nil
    have hpos : g.r.toNat ≠ 0 := fun h => hr (UInt32.toNat_inj.mp h)
    have hstop : ¬ g.r ≤ g.r + UInt32.ofNat 0 - 1 := by
      have hzero : g.r + UInt32.ofNat 0 = g.r := UInt32.add_zero g.r
      have hone : (1 : UInt32).toNat = 1 := rfl
      have hlt := UInt32.toNat_lt g.r
      rw [hzero, UInt32.le_iff_toNat_le, UInt32.toNat_sub]
      omega
    obtain ⟨hscan, hreads⟩ := scan_end (m := m) (n := n) hstop
    rw [hreads]
    exact ⟨fun i hi => absurd hi List.not_mem_nil, 0, le_rfl, hscan, by simp⟩
  | succ k ih =>
    intro n hlow hn hend
    obtain ⟨n, rfl⟩ : ∃ n', n = n' + 1 := ⟨n - 1, by omega⟩
    have hnum : (g.r + UInt32.ofNat k).toNat = g.r.toNat + k := toNat_add_ofNat (by omega)
    have hle : g.r ≤ g.r + UInt32.ofNat k := by
      rw [UInt32.le_iff_toNat_le]
      omega
    have hin : InBuf (index (g.r + UInt32.ofNat k)) := by
      rw [inBuf_index_iff]
      omega
    obtain ⟨hscan, hreads⟩ := scan_succ (m := m) (n := n) hle hin
    rw [segment_succ] at hend ⊢
    rw [add_ofNat_succ_sub, hscan, hreads, List.forall_mem_cons]
    by_cases hblank : g.get (g.r + UInt32.ofNat k) = 0x20
    · -- a blank stops the scan, and the word is empty
      rw [if_neg (not_not.mpr hblank), if_neg (not_not.mpr hblank)]
      refine ⟨⟨hin, fun i hi => absurd hi List.not_mem_nil⟩, k + 1, le_rfl, ?_, ?_⟩
      · rw [add_ofNat_succ_sub]
      · rw [Nat.sub_self, segment_zero, List.rtakeWhile_concat_neg _ _ _ (by simp [hblank])]
    · rw [if_pos hblank, if_pos hblank]
      have hend' : g.r ≠ 0 ∨ 0x20 ∈ segment g.get g.r k := by
        refine hend.imp_right fun hmem => ?_
        rw [List.mem_append, List.mem_singleton] at hmem
        exact hmem.resolve_right fun h => hblank h.symm
      obtain ⟨hall, j, hj, hstop, hword⟩ := ih n (by omega) (by omega) hend'
      refine ⟨⟨hin, hall⟩, j, by omega, hstop, ?_⟩
      rw [List.rtakeWhile_concat_pos _ _ _ (by simpa using hblank), ← hword,
        show k + 1 - j = k - j + 1 by omega, segment_succ, UInt32.add_assoc, ← UInt32.ofNat_add,
        show j + (k - j) = k by omega]

/-- Without a blank to stop it, the scan from the first bytes of the ring comes to the byte in
front of `input.buf`. -/
theorem scanReads_zero (hr : g.r = 0) : ∀ (k n : ℕ), k ≤ 2 ^ 31 + 1 → k < n →
    0x20 ∉ segment g.get g.r k → -1 ∈ scanReads m g n (g.r + UInt32.ofNat k - 1) := by
  intro k
  induction k with
  | zero =>
    intro n _ hn _
    obtain ⟨n, rfl⟩ : ∃ n', n = n' + 1 := ⟨n - 1, by omega⟩
    rw [scanReads, hr, if_pos (by decide)]
    exact List.mem_cons.mpr (.inl (by decide))
  | succ k ih =>
    intro n hlow hn hno
    obtain ⟨n, rfl⟩ : ∃ n', n = n' + 1 := ⟨n - 1, by omega⟩
    have hzero : g.r.toNat = 0 := congrArg UInt32.toNat hr
    have hnum : (g.r + UInt32.ofNat k).toNat = g.r.toNat + k := toNat_add_ofNat (by omega)
    have hle : g.r ≤ g.r + UInt32.ofNat k := by
      rw [UInt32.le_iff_toNat_le]
      omega
    have hin : InBuf (index (g.r + UInt32.ofNat k)) := by
      rw [inBuf_index_iff]
      omega
    rw [segment_succ, List.mem_append, List.mem_singleton, not_or] at hno
    rw [add_ofNat_succ_sub, (scan_succ hle hin).2, if_pos fun h => hno.2 h.symm]
    exact List.mem_cons_of_mem _ (ih n (by omega) (by omega) hno.1)

/-! ### When the scan is safe -/

/-- **The states where the scan is safe.**  Nothing is unread, or the numbers have wrapped around;
or the unread text ends at `2 ^ 31` at the latest, a blank in it or `input.r` stops the scan, and
the word is shorter than its array; or it ends after that, at a multiple of 128, and its last byte
is a blank or all of it. -/
def ScanExact (g : Input) : Prop :=
  (g.e ≠ 0 ∧ g.e ≤ g.r) ∨
    (g.r < g.e ∧ g.e.toNat ≤ 2 ^ 31 + 1 ∧ (g.r ≠ 0 ∨ 0x20 ∈ unread g) ∧
      (current g).length < 128) ∨
    (g.r < g.e ∧ 2 ^ 31 + 1 < g.e.toNat ∧ (g.e - 1).toNat % 128 = 0 ∧
      (g.get (g.e - 1) = 0x20 ∨ g.r = g.e - 1))

instance (g : Input) : Decidable (ScanExact g) := inferInstanceAs (Decidable (_ ∨ _))

/-- The first byte that is tested has to have its index in the array. -/
theorem not_scanSafe_of_last (hle : g.r ≤ g.e - 1) (hout : ¬ InBuf (index (g.e - 1))) :
    ¬ ScanSafe m g := by
  rintro ⟨hall, -⟩
  refine hout (hall _ ?_)
  rw [show dist g.r g.e + 128 = dist g.r g.e + 127 + 1 from rfl, scanReads, if_pos hle]
  exact List.mem_cons_self

/-- An empty word before the cursor. -/
theorem scanSafe_of_empty
    (hreads : ∀ i ∈ scanReads m g (dist g.r g.e + 128) (g.e - 1), InBuf i)
    (hstop : scanWord m g (dist g.r g.e + 128) (g.e - 1) = some (g.e - 1)) : ScanSafe m g := by
  refine ⟨hreads, g.e - 1, hstop, ?_⟩
  rw [UInt32.sub_add_cancel, dist_self]
  exact ⟨le_rfl, fun k hk => absurd hk (Nat.not_lt_zero k), by decide⟩

/-- The unread text does not go beyond `2 ^ 31`. -/
theorem scanSafe_low (hlt : g.r < g.e) (he : g.e.toNat ≤ 2 ^ 31 + 1) :
    ScanSafe m g ↔ (g.r ≠ 0 ∨ 0x20 ∈ unread g) ∧ (current g).length < 128 := by
  have hnum := UInt32.lt_iff_toNat_lt.mp hlt
  have hdist : dist g.r g.e = g.e.toNat - g.r.toNat := by
    rw [dist_eq]
    have := UInt32.toNat_lt g.e
    omega
  have hcursor : g.r + UInt32.ofNat (dist g.r g.e) - 1 = g.e - 1 := by rw [add_dist]
  by_cases hend : g.r ≠ 0 ∨ 0x20 ∈ unread g
  · rw [and_iff_right hend]
    obtain ⟨hall, j, hj, hstop, hword⟩ :=
      scanWord_low (m := m) (dist g.r g.e) (dist g.r g.e + 128) (by omega) (by omega) hend
    rw [hcursor] at hall hstop
    have hlen : (current g).length = dist g.r g.e - j := by
      rw [current, unread, ← hword, length_segment]
    have hto : dist g.r (g.r + UInt32.ofNat j) = j := dist_add_ofNat _ (by omega)
    have hfrom : dist (g.r + UInt32.ofNat j) g.e = dist g.r g.e - j := by
      rw [dist_of_le (a := g.r) (by omega), hto]
    constructor
    · rintro ⟨-, stop, hstop', -, -, hlast⟩
      rw [hstop, Option.some.injEq] at hstop'
      rw [← hstop', UInt32.sub_add_cancel, hfrom] at hlast
      have := hlast.2
      omega
    · intro hshort
      refine ⟨hall, _, hstop, ?_⟩
      rw [UInt32.sub_add_cancel, hto, hfrom]
      refine ⟨hj, fun k hk => ⟨?_, Int.natCast_nonneg k, by omega⟩, Int.natCast_nonneg _, by omega⟩
      rw [inBuf_index_iff, UInt32.add_assoc, ← UInt32.ofNat_add, toNat_add_ofNat (by omega)]
      omega
  · -- `input.r` is zero, and there is no blank
    refine iff_of_false (fun hsafe => ?_) fun h => hend h.1
    rw [not_or, not_not] at hend
    have hmem := scanReads_zero (m := m) hend.1 (dist g.r g.e) (dist g.r g.e + 128) (by omega)
      (by omega) hend.2
    rw [hcursor] at hmem
    exact absurd (hsafe.1 _ hmem).1 (by decide)

/-- The unread text goes beyond `2 ^ 31`. -/
theorem scanSafe_high (hlt : g.r < g.e) (he : 2 ^ 31 + 1 < g.e.toNat) :
    ScanSafe m g ↔
      (g.e - 1).toNat % 128 = 0 ∧ (g.get (g.e - 1) = 0x20 ∨ g.r = g.e - 1) := by
  have hnum := UInt32.lt_iff_toNat_lt.mp hlt
  have hbound := UInt32.toNat_lt g.e
  have hone : (1 : UInt32).toNat = 1 := rfl
  have hlast : (g.e - 1).toNat = g.e.toNat - 1 := by
    rw [UInt32.toNat_sub]
    omega
  have hbefore : (g.e - 1 - 1).toNat = g.e.toNat - 2 := by
    rw [UInt32.toNat_sub]
    omega
  have hle : g.r ≤ g.e - 1 := by
    rw [UInt32.le_iff_toNat_le]
    omega
  by_cases hmul : (g.e - 1).toNat % 128 = 0
  · rw [and_iff_right hmul]
    have hin : InBuf (index (g.e - 1)) := (inBuf_index_iff _).mpr (.inr hmul)
    obtain ⟨hscan, hreads⟩ := scan_succ (m := m) (n := dist g.r g.e + 127) hle hin
    by_cases hblank : g.get (g.e - 1) = 0x20
    · rw [if_neg (not_not.mpr hblank)] at hscan hreads
      refine iff_of_true (scanSafe_of_empty ?_ hscan) (.inl hblank)
      rw [hreads]
      exact List.forall_mem_singleton.mpr hin
    rw [if_pos hblank] at hscan hreads
    rw [or_iff_right hblank]
    by_cases hone' : g.r = g.e - 1
    · -- the word is the only unread byte
      have hstop : ¬ g.r ≤ g.e - 1 - 1 := by
        rw [UInt32.le_iff_toNat_le, hone']
        omega
      obtain ⟨hscan', hreads'⟩ := scan_end (m := m) (n := dist g.r g.e + 126) hstop
      rw [hscan'] at hscan
      rw [hreads'] at hreads
      refine iff_of_true ⟨?_, _, hscan, ?_⟩ hone'
      · rw [hreads]
        exact List.forall_mem_singleton.mpr hin
      · have hsingle : dist (g.e - 1) g.e = 1 := by
          rw [dist_eq, hlast]
          omega
        rw [UInt32.sub_add_cancel, ← hone', dist_self, hone', hsingle]
        refine ⟨Nat.zero_le _, fun k hk => ?_, by decide⟩
        obtain rfl : k = 0 := by omega
        have hzero : g.e - 1 + UInt32.ofNat 0 = g.e - 1 := UInt32.add_zero _
        rw [hzero]
        exact ⟨hin, by decide⟩
    · -- the byte before it is read at a negative index
      refine iff_of_false (fun hsafe => ?_) hone'
      have hne : g.r.toNat ≠ (g.e - 1).toNat := fun h => hone' (UInt32.toNat_inj.mp h)
      have hle' : g.r ≤ g.e - 1 - 1 := by
        rw [UInt32.le_iff_toNat_le]
        omega
      have hall := hsafe.1
      rw [show dist g.r g.e + 128 = dist g.r g.e + 127 + 1 from rfl, hreads,
        List.forall_mem_cons, show dist g.r g.e + 127 = dist g.r g.e + 126 + 1 from rfl, scanReads,
        if_pos hle', List.forall_mem_cons] at hall
      have hbelow := (inBuf_index_iff _).mp hall.2.1
      omega
  · refine iff_of_false (not_scanSafe_of_last hle ?_) fun h => hmul h.1
    rw [inBuf_index_iff]
    omega

/-- **When the scan is safe**, in every state of the ring and whatever is in front of the array. -/
theorem scanSafe_iff (m : Memory) (g : Input) : ScanSafe m g ↔ ScanExact g := by
  have hone : (1 : UInt32).toNat = 1 := rfl
  have hbound := UInt32.toNat_lt g.e
  have hbound' := UInt32.toNat_lt g.r
  unfold ScanExact
  by_cases hlt : g.r < g.e
  · have hnum := UInt32.lt_iff_toNat_lt.mp hlt
    rw [or_iff_right fun h => UInt32.not_le.mpr hlt h.2, and_iff_right hlt, and_iff_right hlt]
    by_cases he : g.e.toNat ≤ 2 ^ 31 + 1
    · rw [scanSafe_low hlt he, and_iff_right he]
      exact (or_iff_left fun h => absurd h.1 (by omega)).symm
    · rw [scanSafe_high hlt (by omega), and_iff_right (by omega : 2 ^ 31 + 1 < g.e.toNat)]
      exact (or_iff_right fun h => he h.1).symm
  · have hle := UInt32.not_lt.mp hlt
    have hnum := UInt32.le_iff_toNat_le.mp hle
    rw [or_iff_left fun h => h.elim (fun h => hlt h.1) fun h => hlt h.1, and_iff_left hle]
    by_cases he : g.e = 0
    · -- the cursor has come to zero, and the scan starts at -1
      refine iff_of_false (not_scanSafe_of_last ?_ ?_) (not_not.mpr he)
      · rw [he, UInt32.le_iff_toNat_le]
        have hmax : ((0 : UInt32) - 1).toNat = 2 ^ 32 - 1 := rfl
        omega
      · rw [he]
        decide
    · -- there is nothing to test
      refine iff_of_true ?_ he
      have hpos : g.e.toNat ≠ 0 := fun h => he (UInt32.toNat_inj.mp h)
      have hstop : ¬ g.r ≤ g.e - 1 := by
        rw [UInt32.le_iff_toNat_le, UInt32.toNat_sub]
        omega
      obtain ⟨hscan, hreads⟩ := scan_end (m := m) (n := dist g.r g.e + 127) hstop
      refine scanSafe_of_empty ?_ hscan
      rw [hreads]
      exact fun i hi => absurd hi List.not_mem_nil

/-- A TAB at boot reads `input.buf[-1]`; and so does one behind an `l` on the first line, where
the scan goes on as long as it meets no blank in front of the array. -/
theorem not_scanSafe_boot :
    scanReads Memory.blank Input.boot 128 (0 - 1) = [-1] ∧ ¬ ScanSafe Memory.blank Input.boot ∧
      (Machine.run (Sys.step (consoleintr Memory.blank)) (Sys.boot ()) [.intr [0x6C]]).map
        (fun r => scanReads Memory.blank r.1.input 129 (r.1.input.e - 1)) = some [0, -1] := by
  refine ⟨by decide, fun hsafe => ?_, by decide +kernel⟩
  exact absurd (hsafe.1 (-1) (by decide)).1 (by decide)

end Autocomplete
end Console
end Xv6
