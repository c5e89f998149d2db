import Mathlib

/-!
# Characters and strings

What the modules on the console and the keyboard share: C strings as lists of
bytes, the value of a `char`, `strncmp` of `string.c`, and the `C(x)` macro.
-/

namespace Xv6

/-- The bytes of a C string, its terminating NUL left out. -/
def str (s : String) : List UInt8 := s.toList.map fun c => UInt8.ofNat c.toNat

/-- The value of a `char`, which is signed. -/
def schar (b : UInt8) : ℤ := if b < 0x80 then b.toNat else (b.toNat : ℤ) - 256

/-- `strncmp`.  A list ends in the NUL that it leaves out. -/
def strncmp (p q : List UInt8) : ℕ → ℤ
  | 0 => 0
  | n + 1 =>
      let x := p.headD 0
      let y := q.headD 0
      if x ≠ 0 ∧ x = y then strncmp p.tail q.tail n else (x.toNat : ℤ) - y.toNat

/-- `C(x)`: Control-x. -/
def ctrl (x : Char) : UInt8 := UInt8.ofNat x.toNat - 0x40

end Xv6
