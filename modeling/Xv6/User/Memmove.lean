import Xv6.Console.Screen

/-!
# The two functions `memmove`

`memmove` of `string.c`, which the kernel uses, and `memmove` of `ulib.c`, which programs use.
The first copies from the end where the destination begins inside of the source; the second
always copies from the start, and its length is an `int`.

* `StringC.memmove`, `Ulib.memmove` — the code.
* `Moved` — the source, as it was, is in the destination, and nothing else has changed.
* `moved_stringC` — the kernel moves.
* `moved_ulib_iff`, `memmove_iff` — **when the library moves too, and the two agree.**
-/

namespace Xv6
namespace Memmove

open Console.Bgcolor (moveDown moveUp moveDown_apply moveUp_apply)

/-! ### The code -/

/-- `memmove` of `string.c`.  The end of the source is a pointer of 32 bits. -/
def StringC.memmove (m : ℕ → UInt8) (dst src n : ℕ) : ℕ → UInt8 :=
  if src < dst ∧ dst < (src + n) % 2 ^ 32 then moveDown m dst src n else moveUp m dst src n

/-- `memmove` of `ulib.c`.  A length that is negative is no length. -/
def Ulib.memmove (m : ℕ → UInt8) (vdst vsrc : ℕ) (n : ℤ) : ℕ → UInt8 := moveUp m vdst vsrc n.toNat

/-! ### What they are for -/

/-- From `m` to `m'`, the `n` bytes at `src` were moved to `dst`. -/
def Moved (m : ℕ → UInt8) (dst src n : ℕ) (m' : ℕ → UInt8) : Prop :=
  ∀ i, m' i = if dst ≤ i ∧ i < dst + n then m (src + (i - dst)) else m i

section Moves

variable {m m' m'' : ℕ → UInt8} {dst src n : ℕ}

theorem Moved.unique (h : Moved m dst src n m') (h' : Moved m dst src n m'') : m' = m'' :=
  funext fun i => (h i).trans (h' i).symm

theorem Moved.inside (h : Moved m dst src n m') {i : ℕ} (hi : i < n) :
    m' (dst + i) = m (src + i) := by
  rw [h (dst + i), if_pos (by omega), Nat.add_sub_cancel_left]

/-- **The kernel moves**, whichever way the ranges overlap. -/
theorem moved_stringC (m : ℕ → UInt8) (hsrc : src + n ≤ 2 ^ 32) (hdst : dst + n ≤ 2 ^ 32) :
    Moved m dst src n (StringC.memmove m dst src n) := by
  intro i
  rw [StringC.memmove]
  split
  · next h => exact moveDown_apply n m i h.1.le
  · next h =>
    -- the end of the source is no more than the end of the memory
    refine moveUp_apply n m i ?_
    by_contra hno
    exact h (by omega)

/-! ### Copying from the start -/

/-- The bytes that are not in the destination stay. -/
theorem moveUp_of_outside : ∀ (n : ℕ) (m : ℕ → UInt8) {dst src i : ℕ},
    i < dst ∨ dst + n ≤ i → moveUp m dst src n i = m i := by
  intro n
  induction n with
  | zero => intro m dst src i _; rfl
  | succ n ih =>
    intro m dst src i h
    rw [moveUp, ih _ (by omega), Function.update_of_ne (by omega)]

/-- A byte of the destination is what is at its source **in the end**, where the source begins
before the destination: it has been copied after its source was written, if that was at all. -/
theorem moveUp_shift : ∀ (n : ℕ) (m : ℕ → UInt8) {dst src i : ℕ}, src < dst → i < n →
    moveUp m dst src n (dst + i) = moveUp m dst src n (src + i) := by
  intro n
  induction n with
  | zero => intro m dst src i _ hi; omega
  | succ n ih =>
    intro m dst src i hlt hi
    rw [moveUp]
    cases i with
    | zero =>
      rw [moveUp_of_outside n _ (by omega), moveUp_of_outside n _ (by omega), Nat.add_zero,
        Nat.add_zero, Function.update_self, Function.update_of_ne hlt.ne]
    | succ i =>
      have hnext := ih (Function.update m dst (m src)) (show src + 1 < dst + 1 by omega)
        (show i < n by omega)
      rw [show dst + (i + 1) = dst + 1 + i by omega, show src + (i + 1) = src + 1 + i by omega]
      exact hnext

/-- The bytes of the source that are also in the destination are as many places before it. -/
def Repeats (m : ℕ → UInt8) (dst src n : ℕ) : Prop :=
  ∀ i, dst + i < src + n → m (dst + i) = m (src + i)

/-- **Copying from the start moves** where the destination does not begin inside of the source,
or the source repeats itself from there on. -/
theorem moved_moveUp_iff :
    Moved m dst src n (moveUp m dst src n) ↔ (src < dst → Repeats m dst src n) := by
  constructor
  · intro h hlt i hi
    obtain ⟨k, rfl⟩ := Nat.exists_eq_add_of_lt hlt
    -- the byte `i` of the destination is the source of another one
    have hfar := h.inside (i := k + 1 + i) (by omega)
    have hshift := moveUp_shift n m (i := k + 1 + i) hlt (by omega)
    have hnear := h.inside (i := i) (by omega)
    rw [show src + (k + 1 + i) = src + k + 1 + i by omega] at hfar hshift
    rw [← hfar, hshift, hnear]
  · intro h
    rcases Nat.lt_or_ge src dst with hlt | hge
    · have hcopied : ∀ i < n, moveUp m dst src n (dst + i) = m (src + i) := by
        intro i
        induction i using Nat.strong_induction_on with
        | h i ih =>
          intro hi
          rw [moveUp_shift n m hlt hi]
          rcases Nat.lt_or_ge (src + i) dst with hbefore | hinside
          · exact moveUp_of_outside n m (.inl hbefore)
          · obtain ⟨j, hj⟩ := Nat.exists_eq_add_of_le hinside
            rw [hj, ih j (by omega) (by omega), h hlt j (by omega)]
      intro i
      split
      · next hin =>
        have hbyte := hcopied (i - dst) (by omega)
        rw [Nat.add_sub_cancel' hin.1] at hbyte
        exact hbyte
      · next hout => exact moveUp_of_outside n m (by omega)
    · exact fun i => moveUp_apply n m i (.inl hge)

/-! ### The two agree -/

/-- The ranges and the bytes for which a copy from the start moves: those of a length that is an
`int`, and for the others those that are the same before. -/
def Forward (m : ℕ → UInt8) (dst src n : ℕ) : Prop :=
  (n < 2 ^ 31 → src < dst → Repeats m dst src n) ∧
    (2 ^ 31 ≤ n → ∀ i < n, m (dst + i) = m (src + i))

theorem bmod_of_lt (h : n < 2 ^ 31) : (Int.bmod n (2 ^ 32)).toNat = n := by
  rw [Int.bmod_eq_of_le (by omega) (by omega), Int.toNat_natCast]

theorem bmod_of_ge (h : 2 ^ 31 ≤ n) (hn : n ≤ 2 ^ 32) : (Int.bmod n (2 ^ 32)).toNat = 0 := by
  rw [Int.bmod_def]
  omega

/-- **When the library moves.** -/
theorem moved_ulib_iff (m : ℕ → UInt8) (dst src : ℕ) (hn : n ≤ 2 ^ 32) :
    Moved m dst src n (Ulib.memmove m dst src (Int.bmod n (2 ^ 32))) ↔ Forward m dst src n := by
  rw [Ulib.memmove, Forward]
  rcases Nat.lt_or_ge n (2 ^ 31) with hlt | hge
  · rw [bmod_of_lt hlt, moved_moveUp_iff]
    exact ⟨fun h => ⟨fun _ => h, fun hge => by omega⟩, fun h => h.1 hlt⟩
  · rw [bmod_of_ge hge hn]
    refine ⟨fun h => ⟨fun hlt => by omega, fun _ i hi => h.inside hi⟩, fun h i => ?_⟩
    show m i = _
    split
    · next hin =>
      have hsame := h.2 hge (i - dst) (by omega)
      rw [Nat.add_sub_cancel' hin.1] at hsame
      exact hsame
    · rfl

/-- **When the two functions agree.**  Let two ranges of a length not wrap.  The kernel moves one
to the other; the library moves too, and then leaves the same memory, if and only if the
destination does not begin inside of the source, or the source repeats itself from there on (and
from the length `2 ^ 31` on, which is a negative `int`, if and only if there is nothing to do). -/
theorem memmove_iff (m : ℕ → UInt8) (dst src n : ℕ) (hsrc : src + n ≤ 2 ^ 32)
    (hdst : dst + n ≤ 2 ^ 32) :
    (Moved m dst src n (StringC.memmove m dst src n) ∧
      Moved m dst src n (Ulib.memmove m dst src (Int.bmod n (2 ^ 32))) ∧
      StringC.memmove m dst src n = Ulib.memmove m dst src (Int.bmod n (2 ^ 32))) ↔
    Forward m dst src n := by
  have hkernel := moved_stringC m hsrc hdst
  rw [← moved_ulib_iff m dst src (by omega)]
  exact ⟨fun h => h.2.1, fun h => ⟨hkernel, h, hkernel.unique h⟩⟩

/-- Three bytes that are moved down by one. -/
theorem memmove_iff_down :
    (Moved (fun i => UInt8.ofNat i) 0 1 3 (StringC.memmove (fun i => UInt8.ofNat i) 0 1 3) ∧
      Moved (fun i => UInt8.ofNat i) 0 1 3
        (Ulib.memmove (fun i => UInt8.ofNat i) 0 1 (Int.bmod 3 (2 ^ 32))) ∧
      StringC.memmove (fun i => UInt8.ofNat i) 0 1 3 =
        Ulib.memmove (fun i => UInt8.ofNat i) 0 1 (Int.bmod 3 (2 ^ 32))) ↔
    Forward (fun i => UInt8.ofNat i) 0 1 3 :=
  memmove_iff (fun i => UInt8.ofNat i) 0 1 3 (by norm_num) (by norm_num)

end Moves

/-- Two bytes that are moved up by one: the library writes the first of them twice. -/
theorem not_moved_ulib :
    ((List.range 3).map fun i => StringC.memmove (fun i => UInt8.ofNat i) 1 0 2 i) = [0, 0, 1] ∧
      ((List.range 3).map fun i => Ulib.memmove (fun i => UInt8.ofNat i) 1 0 2 i) = [0, 0, 0] ∧
      ¬ Moved (fun i => UInt8.ofNat i) 1 0 2 (Ulib.memmove (fun i => UInt8.ofNat i) 1 0 2) := by
  refine ⟨by decide, by decide, fun h => ?_⟩
  have hlast := h.inside (i := 1) (by norm_num)
  exact absurd hlast (by decide)

end Memmove
end Xv6
