import Xv6.Basic

/-!
# Scancode tables

The tables of `kbd.h`, which all the drivers share, and the tests on the shift
word.  A table is written the way C initialises it: the positional values first,
then the designated ones, and zero wherever neither says anything.

* `has` — a test `shift & mask` of the shift word.
* `Mod.shift` … `Mod.e0esc` — the bits of the shift word.
* `shiftcode`, `togglecode` — the bits a key holds or toggles.
* `normalmap`, `shiftmap`, `ctlmap`, `charcode` — the characters of the keys.
* `qwertyToDvorakChar` — the Dvorak layout, as a map of characters.
* `swapCase` — the case inversion under CAPSLOCK.
-/

namespace Xv6
namespace Kbd

/-! ### The shift word -/

namespace Mod

def shift : UInt32 := 0x01
def ctl : UInt32 := 0x02
def alt : UInt32 := 0x04
def capslock : UInt32 := 0x08
def numlock : UInt32 := 0x10
def scrolllock : UInt32 := 0x20
def e0esc : UInt32 := 0x40

end Mod

/-- The truth value of the C test `shift & mask`. -/
def has (shift mask : UInt32) : Bool := shift &&& mask != 0

/-! ### Tables -/

/-- A C array initialiser: positional values, then designated ones. -/
def table {α : Type} [Zero α] (positional : List α) (designated : List (ℕ × α))
    (data : UInt8) : α :=
  (designated.lookup data.toNat).getD (positional.getD data.toNat 0)

/-- The modifier bits a key holds while it is down. -/
def shiftcode : UInt8 → UInt32 :=
  table [] [(0x1D, Mod.ctl), (0x2A, Mod.shift), (0x36, Mod.shift), (0x38, Mod.alt),
    (0x9D, Mod.ctl), (0xB8, Mod.alt)]

/-- The lock bits a key toggles. -/
def togglecode : UInt8 → UInt32 :=
  table [] [(0x3A, Mod.capslock), (0x45, Mod.numlock), (0x46, Mod.scrolllock)]

/-- The extended keys `KEY_HOME` … `KEY_DEL`, the same in every map. -/
def extendedKeys : List (ℕ × UInt8) :=
  [(0xC8, 0xE2), (0xD0, 0xE3), (0xC9, 0xE6), (0xD1, 0xE7), (0xCB, 0xE4), (0xCD, 0xE5),
    (0x97, 0xE0), (0xCF, 0xE1), (0xD2, 0xE8), (0xD3, 0xE9)]

/-- Rows `0x3A` to `0x53` of the positional values, the keypad among them. -/
def keypadRow : List UInt8 := List.replicate 13 0 ++ str "789-456+1230."

def normalmap : UInt8 → UInt8 :=
  table ([0, 0x1B] ++ str "1234567890-=" ++ str "\x08\t" ++ str "qwertyuiop[]\n" ++ [0] ++
      str "asdfghjkl;'`" ++ [0] ++ str "\\zxcvbnm,./" ++ [0] ++ str "*" ++ [0] ++ str " " ++
      keypadRow)
    ([(0x9C, 0x0A), (0xB5, 0x2F)] ++ extendedKeys)

def shiftmap : UInt8 → UInt8 :=
  table ([0, 0x1B] ++ str "!@#$%^&*()_+" ++ str "\x08\t" ++ str "QWERTYUIOP\x7b\x7d\n" ++ [0] ++
      str "ASDFGHJKL:\"~" ++ [0] ++ str "|ZXCVBNM<>?" ++ [0] ++ str "*" ++ [0] ++ str " " ++
      keypadRow)
    ([(0x9C, 0x0A), (0xB5, 0x2F)] ++ extendedKeys)

def ctlmap : UInt8 → UInt8 :=
  table (List.replicate 16 0 ++ "QWERTYUIOP".toList.map ctrl ++ [0, 0, 0x0D, 0] ++
      "ASDFGHJKL".toList.map ctrl ++ List.replicate 4 0 ++ "\\ZXCVBNM".toList.map ctrl ++
      [0, 0, ctrl '/', 0, 0])
    ([(0x9C, 0x0D), (0xB5, ctrl '/')] ++ extendedKeys)

/-- `charcode[i]`, the map the `CTL` and `SHIFT` bits select. -/
def charcode (i : UInt32) (data : UInt8) : UInt8 :=
  match i.toNat with
  | 0 => normalmap data
  | 1 => shiftmap data
  | _ => ctlmap data

/-- `qwerty_to_dvorak_char`: the Dvorak character of a QWERTY one, or zero. -/
def qwertyToDvorakChar : UInt8 → UInt8 :=
  table [] <| List.zip
    ((str "1234567890-=!@#$%^&*()_+[]\\;',./<>?:\"\x7b\x7d|" ++
      str "qwertyuiopasdfghjklzxcvbnmQWERTYUIOPASDFGHJKLZXCVBNM").map UInt8.toNat)
    (str "1234567890[]!@#$%^&*()\x7b\x7d/=\\s-wvzWVZS_?+|" ++
      str "',.pyfgcrlaoeuidhtn;qjkxbm\"<>PYFGCRLAOEUIDHTN:QJKXBM")

/-! ### Case inversion -/

def isLower (c : UInt32) : Bool := 0x61 ≤ c && c ≤ 0x7A
def isUpper (c : UInt32) : Bool := 0x41 ≤ c && c ≤ 0x5A

/-- The case inversion the drivers make under CAPSLOCK. -/
def swapCase (c : UInt32) : UInt32 :=
  if isLower c then c - 0x20 else if isUpper c then c + 0x20 else c

end Kbd
end Xv6
