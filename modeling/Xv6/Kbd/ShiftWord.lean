import Xv6.Kbd.Stock

/-!
# The bits of the shift word

The decoders set, clear and toggle bits of the shift word with tables of masks.  Each test
of the word is of one bit, and what a byte does to one bit depends on that bit alone.

* `IsBit` — a mask of one bit; `isBit_shift` … `isBit_e0esc`.
* `has_latch`, `has_keyRelease`, `has_release` — **one bit of the word after a press and after
  a release.**
* `keyChar_normal`, `keyChar_shift` — the map that the bits select.
-/

namespace Xv6
namespace Kbd

/-! ### Masks of one bit -/

theorem has_or (a b m : UInt32) : has (a ||| b) m = (has a m || has b m) := by
  rw [Bool.eq_iff_iff, Bool.or_eq_true]
  simp only [has, bne_iff_ne, ne_eq]
  have hdist : (a ||| b) &&& m = (a &&& m) ||| (b &&& m) := by
    rw [← UInt32.toBitVec_inj]
    ext i hi
    simp [Bool.and_or_distrib_right]
  rw [hdist, UInt32.or_eq_zero_iff, not_and_or]

/-- A mask of one bit. -/
def IsBit (m : UInt32) : Prop := ∃ k < 32, m.toBitVec = BitVec.twoPow 32 k

theorem isBit_shift : IsBit Mod.shift := ⟨0, by decide⟩
theorem isBit_ctl : IsBit Mod.ctl := ⟨1, by decide⟩
theorem isBit_capslock : IsBit Mod.capslock := ⟨3, by decide⟩
theorem isBit_e0esc : IsBit Mod.e0esc := ⟨6, by decide⟩

section Bits

variable {m : UInt32}

theorem IsBit.has_eq (hm : IsBit m) : ∃ k < 32, ∀ a, has a m = a.toBitVec.getLsbD k := by
  obtain ⟨k, hk, hm⟩ := hm
  refine ⟨k, hk, fun a => ?_⟩
  rw [Bool.eq_iff_iff]
  simp only [has, bne_iff_ne, ne_eq]
  rw [← UInt32.toBitVec_inj, UInt32.toBitVec_and, hm, BitVec.and_twoPow]
  cases h : a.toBitVec.getLsbD k with
  | false => simp
  | true =>
    refine iff_of_true (fun hzero => ?_) rfl
    have hbit := congrArg (fun x => x.getLsbD k) hzero
    simp [hk] at hbit

theorem IsBit.has_xor (hm : IsBit m) (a b : UInt32) :
    has (a ^^^ b) m = (has a m ^^ has b m) := by
  obtain ⟨k, -, h⟩ := hm.has_eq
  rw [h, h, h, UInt32.toBitVec_xor, BitVec.getLsbD_xor]

theorem IsBit.has_and_not (hm : IsBit m) (a b : UInt32) :
    has (a &&& ~~~b) m = (has a m && !has b m) := by
  obtain ⟨k, hk, h⟩ := hm.has_eq
  rw [h, h, h, UInt32.toBitVec_and, UInt32.toBitVec_not, BitVec.getLsbD_and, BitVec.getLsbD_not]
  simp [hk]

/-- **One bit after the press of a key.** -/
theorem has_latch (hm : IsBit m) (s : UInt32) (d : UInt8) :
    has (latch s d) m = ((has s m || has (shiftcode d) m) ^^ has (togglecode d) m) := by
  rw [latch, hm.has_xor, has_or]

/-- **One bit after the release of a key.** -/
theorem has_keyRelease (hm : IsBit m) (s : UInt32) (d : UInt8) :
    has (keyRelease s d) m = (has s m &&
      !(has (shiftcode (if has s Mod.e0esc then d else d &&& 0x7F)) m || has Mod.e0esc m)) := by
  rw [keyRelease, hm.has_and_not, has_or]

/-- The same without an `E0` prefix. -/
theorem has_release (hm : IsBit m) {s : UInt32} (he : has s Mod.e0esc = false) (d : UInt8) :
    has (keyRelease s d) m = (has s m && !has (shiftcode (d &&& 0x7F) ||| Mod.e0esc) m) := by
  rw [has_keyRelease hm, he, has_or]
  rfl

end Bits

/-- The `E0ESC` bit is set behind the `E0` prefix and nowhere else. -/
theorem Stock.has_scan_e0esc (s : UInt32) (data : UInt8) :
    has (Stock.scan s data).1 Mod.e0esc = (data == 0xE0) := by
  rcases byte_cases data with rfl | ⟨h0, hbreak⟩ | ⟨h0, hmake⟩
  · rw [Stock.scan_escape, has_or, Bool.or_comm]
    rfl
  · rw [Stock.scan_release s h0 hbreak, has_keyRelease isBit_e0esc, beq_eq_false_iff_ne.mpr h0]
    simp only [show has Mod.e0esc Mod.e0esc = true by decide, Bool.or_true, Bool.not_true,
      Bool.and_false]
  · have hcode : ∀ d, has (shiftcode d) Mod.e0esc = false :=
      forall_byte (fun d => has (shiftcode d) Mod.e0esc = false) (by decide +kernel)
    have htoggle : ∀ d, has (togglecode d) Mod.e0esc = false :=
      forall_byte (fun d => has (togglecode d) Mod.e0esc = false) (by decide +kernel)
    have hclear : has (unescape s data).1 Mod.e0esc = false := by
      unfold unescape
      split
      · rw [isBit_e0esc.has_and_not, show has Mod.e0esc Mod.e0esc = true by decide, Bool.not_true,
          Bool.and_false]
      · next he => exact Bool.eq_false_of_not_eq_true he
    rw [Stock.scan_press s h0 hmake, beq_eq_false_iff_ne.mpr h0, pressWord,
      has_latch isBit_e0esc, hclear, hcode, htoggle]
    rfl

/-! ### The map -/

theorem has_shift_iff (s : UInt32) : has s Mod.shift = true ↔ s.toNat % 2 = 1 := by
  have h : (s &&& Mod.shift).toNat = s.toNat % 2 := by
    rw [UInt32.toNat_and]
    exact Nat.and_two_pow_sub_one_eq_mod s.toNat 1
  simp only [has, bne_iff_ne, ne_eq, ← UInt32.toNat_inj, h]
  have hzero : (0 : UInt32).toNat = 0 := rfl
  omega

/-- Without Ctrl and Shift the character comes from `normalmap`. -/
theorem keyChar_normal {s : UInt32} (hctl : has s Mod.ctl = false)
    (hshift : has s Mod.shift = false) (d : UInt8) : keyChar s d = (normalmap d).toUInt32 := by
  rw [← Bool.not_eq_true, has_ctl_iff] at hctl
  rw [← Bool.not_eq_true, has_shift_iff] at hshift
  have hindex : s.toNat % 4 = 0 := by omega
  simp only [keyChar, charcode, charcode_index, hindex]

/-- With Shift alone it comes from `shiftmap`. -/
theorem keyChar_shift {s : UInt32} (hctl : has s Mod.ctl = false)
    (hshift : has s Mod.shift = true) (d : UInt8) : keyChar s d = (shiftmap d).toUInt32 := by
  rw [← Bool.not_eq_true, has_ctl_iff] at hctl
  rw [has_shift_iff] at hshift
  have hindex : s.toNat % 4 = 1 := by omega
  simp only [keyChar, charcode, charcode_index, hindex]

end Kbd
end Xv6
