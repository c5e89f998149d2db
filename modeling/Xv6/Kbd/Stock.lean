import Xv6.Kbd.Keymap

/-!
# The stock keyboard decoder

`kbdgetc` of the unmodified `kbd.c`.  The only state it keeps is the shift word;
each call reads the status port and, when a byte is pending, decodes it.  The
modified drivers repeat its pieces word for word, so those pieces have names:
`keyRelease` for a break code, `unescape` for the `E0` escape, `latch` for the
update of the shift word and `keyChar` for the table look-up.

## Main results

* `swapCase_swapCase`, `swapCase_eq_self_iff` — inverting the case twice is the
  identity, inverting it once moves exactly the letters.
* `isLetter_pressChar` — the presses that give a letter are those of a letter key,
  without Ctrl and without an `E0` prefix.
* `caps_swap_eq_iff` — a driver without the inversion differs on a `CapsLetter` only.
-/

namespace Xv6
namespace Kbd

/-! ### The pieces of the decoder -/

/-- The value of a `uint` returned as an `int`. -/
def asInt (c : UInt32) : ℤ := c.toInt32.toInt

/-- A key is released: the bits it holds are cleared, and the `E0` escape with them. -/
def keyRelease (shift : UInt32) (data : UInt8) : UInt32 :=
  shift &&& ~~~(shiftcode (if has shift Mod.e0esc then data else data &&& 0x7F) ||| Mod.e0esc)

/-- The last byte was an `E0` escape: or the data with `0x80`. -/
def unescape (shift : UInt32) (data : UInt8) : UInt32 × UInt8 :=
  if has shift Mod.e0esc then (shift &&& ~~~Mod.e0esc, data ||| 0x80) else (shift, data)

/-- The shift word after a key press. -/
def latch (shift : UInt32) (data : UInt8) : UInt32 := (shift ||| shiftcode data) ^^^ togglecode data

/-- The character of a key under a shift word. -/
def keyChar (shift : UInt32) (data : UInt8) : UInt32 :=
  (charcode (shift &&& (Mod.ctl ||| Mod.shift)) data).toUInt32

/-- The shift word after the press of a key, its `E0` escape taken into account. -/
def pressWord (shift : UInt32) (data : UInt8) : UInt32 :=
  latch (unescape shift data).1 (unescape shift data).2

/-- The character of a key press, before any case inversion. -/
def pressChar (shift : UInt32) (data : UInt8) : UInt32 :=
  keyChar (pressWord shift data) (unescape shift data).2

/-- A byte is the `E0` escape, a break code or a make code. -/
theorem byte_cases (data : UInt8) :
    data = 0xE0 ∨ (data ≠ 0xE0 ∧ data &&& 0x80 ≠ 0) ∨ (data ≠ 0xE0 ∧ data &&& 0x80 = 0) := by
  tauto

namespace Stock

/-- `kbdgetc` of the unmodified driver.  The argument is the byte the data port
holds, if the status port announces one. -/
def kbdgetc (shift : UInt32) : Option UInt8 → UInt32 × ℤ
  | none => (shift, -1)
  | some data =>
    if data = 0xE0 then (shift ||| Mod.e0esc, 0)
    else if data &&& 0x80 ≠ 0 then (keyRelease shift data, 0)
    else
      let c := pressChar shift data
      (pressWord shift data,
        asInt (if has (pressWord shift data) Mod.capslock then swapCase c else c))

/-- One byte of a stream through the stock decoder. -/
def scan (shift : UInt32) (data : UInt8) : UInt32 × ℤ := kbdgetc shift (some data)

theorem scan_escape (shift : UInt32) : scan shift 0xE0 = (shift ||| Mod.e0esc, 0) := rfl

theorem scan_release (shift : UInt32) {data : UInt8} (h0 : data ≠ 0xE0) (hrel : data &&& 0x80 ≠ 0) :
    scan shift data = (keyRelease shift data, 0) := by
  simp [scan, kbdgetc, h0, hrel]

theorem scan_press (shift : UInt32) {data : UInt8} (h0 : data ≠ 0xE0) (hrel : data &&& 0x80 = 0) :
    scan shift data =
      (pressWord shift data,
        asInt (if has (pressWord shift data) Mod.capslock then swapCase (pressChar shift data)
          else pressChar shift data)) := by
  simp [scan, kbdgetc, h0, hrel]

end Stock

/-- A statement about all bytes, by evaluation at each. -/
theorem forall_byte (P : UInt8 → Prop) (h : ∀ n < 256, P (UInt8.ofNat n)) (d : UInt8) : P d := by
  have hd := h d.toNat d.toNat_lt
  rwa [UInt8.ofNat_toNat] at hd

/-! ### Letters -/

def isLetter (c : UInt32) : Bool := isLower c || isUpper c

theorem asInt_inj {a b : UInt32} : asInt a = asInt b ↔ a = b := by
  unfold asInt
  constructor
  · intro h
    have h32 := Int32.toInt_inj.mp h
    rw [← UInt32.toUInt32_toInt32 a, h32, UInt32.toUInt32_toInt32]
  · rintro rfl
    rfl

theorem asInt_eq (c : UInt32) :
    asInt c = if 2 * c.toNat < 2 ^ 32 then (c.toNat : ℤ) else c.toNat - 2 ^ 32 :=
  BitVec.toInt_eq_toNat_cond c.toBitVec

theorem asInt_byte (b : UInt8) : asInt b.toUInt32 = b.toNat :=
  forall_byte (fun b => asInt b.toUInt32 = b.toNat) (by decide +kernel) b

theorem swapCase_of_not_isLetter {c : UInt32} (h : isLetter c = false) : swapCase c = c := by
  simp only [isLetter, Bool.or_eq_false_iff] at h
  simp [swapCase, h.1, h.2]

/-- Inverting the case twice is the identity. -/
theorem swapCase_swapCase (c : UInt32) : swapCase (swapCase c) = c := by
  unfold swapCase isLower isUpper
  grind

theorem swapCase_ne_of_isLetter {c : UInt32} (h : isLetter c = true) : swapCase c ≠ c := by
  unfold isLetter isLower isUpper at h
  unfold swapCase isLower isUpper
  grind

/-- Inverting the case moves exactly the letters. -/
theorem swapCase_eq_self_iff {c : UInt32} : swapCase c = c ↔ isLetter c = false := by
  constructor
  · intro h
    rw [← Bool.not_eq_true]
    exact fun hl => swapCase_ne_of_isLetter hl h
  · exact swapCase_of_not_isLetter

/-! ### Letter keys -/

/-- The keys of the letters `A` to `Z`. -/
def letterKey (data : UInt8) : Bool := isLower (normalmap data).toUInt32

/-- What the tables say of the letter keys. -/
structure LetterCodes (d : UInt8) : Prop where
  normal : isLetter (normalmap d).toUInt32 = letterKey d
  shift : isLetter (shiftmap d).toUInt32 = letterKey d
  ctl : isLetter (ctlmap d).toUInt32 = false
  extended : letterKey (d ||| 0x80) = false
  codes : letterKey d = true → shiftcode d = 0 ∧ togglecode d = 0 ∧ d ≠ 0xE0 ∧ d &&& 0x80 = 0

theorem letterCodes (d : UInt8) : LetterCodes d := by
  obtain ⟨hnormal, hshift, hctl, hextended, hcodes⟩ := forall_byte (fun d =>
    isLetter (normalmap d).toUInt32 = letterKey d ∧ isLetter (shiftmap d).toUInt32 = letterKey d ∧
    isLetter (ctlmap d).toUInt32 = false ∧ letterKey (d ||| 0x80) = false ∧
    (letterKey d = true → shiftcode d = 0 ∧ togglecode d = 0 ∧ d ≠ 0xE0 ∧ d &&& 0x80 = 0))
    (by decide +kernel) d
  exact ⟨hnormal, hshift, hctl, hextended, hcodes⟩

theorem isLetter_normalmap (d : UInt8) : isLetter (normalmap d).toUInt32 = letterKey d :=
  (letterCodes d).normal

theorem isLetter_shiftmap (d : UInt8) : isLetter (shiftmap d).toUInt32 = letterKey d :=
  (letterCodes d).shift

theorem isLetter_ctlmap (d : UInt8) : isLetter (ctlmap d).toUInt32 = false :=
  (letterCodes d).ctl

/-- No extended key is a letter key. -/
theorem letterKey_or (d : UInt8) : letterKey (d ||| 0x80) = false := (letterCodes d).extended

/-- A letter key holds and toggles nothing. -/
theorem latch_letterKey (shift : UInt32) {d : UInt8} (h : letterKey d = true) :
    latch shift d = shift := by
  obtain ⟨hs, ht, -⟩ := (letterCodes d).codes h
  simp [latch, hs, ht]

/-- The index into `charcode` is the two low bits of the shift word. -/
theorem charcode_index (s : UInt32) : (s &&& (Mod.ctl ||| Mod.shift)).toNat = s.toNat % 4 := by
  rw [UInt32.toNat_and]
  exact Nat.and_two_pow_sub_one_eq_mod s.toNat 2

theorem has_ctl_iff (s : UInt32) : has s Mod.ctl = true ↔ 2 ≤ s.toNat % 4 := by
  have h : (s &&& Mod.ctl).toNat = (s.toNat.testBit 1).toNat * 2 := by
    rw [UInt32.toNat_and]
    exact Nat.and_two_pow s.toNat 1
  rw [Nat.testBit_eq_decide_div_mod_eq] at h
  simp only [has, bne_iff_ne, ne_eq, ← UInt32.toNat_inj, h]
  by_cases h1 : s.toNat / 2 ^ 1 % 2 = 1 <;> simp <;> omega

/-- With Ctrl down the character comes from `ctlmap`. -/
theorem keyChar_of_ctl {s : UInt32} (h : has s Mod.ctl = true) (d : UInt8) :
    keyChar s d = (ctlmap d).toUInt32 := by
  rw [has_ctl_iff] at h
  unfold keyChar charcode
  rw [charcode_index]
  split
  · next h0 => omega
  · next h1 => omega
  · rfl

/-- With Ctrl up the character comes from `normalmap` or `shiftmap`. -/
theorem keyChar_of_not_ctl {s : UInt32} (h : has s Mod.ctl = false) (d : UInt8) :
    keyChar s d = (normalmap d).toUInt32 ∨ keyChar s d = (shiftmap d).toUInt32 := by
  rw [← Bool.not_eq_true, has_ctl_iff] at h
  unfold keyChar charcode
  rw [charcode_index]
  split
  · exact Or.inl rfl
  · exact Or.inr rfl
  · next h0 h1 =>
    have h0' : s.toNat % 4 ≠ 0 := h0
    have h1' : s.toNat % 4 ≠ 1 := h1
    omega

theorem isLetter_keyChar (s : UInt32) (d : UInt8) :
    isLetter (keyChar s d) = (letterKey d && !has s Mod.ctl) := by
  cases hctl : has s Mod.ctl with
  | true => rw [keyChar_of_ctl hctl, isLetter_ctlmap, Bool.not_true, Bool.and_false]
  | false =>
    rw [Bool.not_false, Bool.and_true]
    rcases keyChar_of_not_ctl hctl d with h | h
    · rw [h, isLetter_normalmap]
    · rw [h, isLetter_shiftmap]

/-- **The presses that give a letter**: those of a letter key, without Ctrl and
without an `E0` prefix. -/
theorem isLetter_pressChar (shift : UInt32) (data : UInt8) :
    isLetter (pressChar shift data) =
      (letterKey data && !has shift Mod.ctl && !has shift Mod.e0esc) := by
  rw [pressChar, isLetter_keyChar, pressWord, unescape]
  cases he : has shift Mod.e0esc with
  | true => simp [letterKey_or]
  | false =>
    cases hl : letterKey data with
    | false => simp [hl]
    | true => simp [hl, latch_letterKey]

/-- The codes of the tables are bytes. -/
theorem asInt_pressChar_lt (shift : UInt32) (data : UInt8) :
    asInt (pressChar shift data) < 256 := by
  rw [pressChar, keyChar, asInt_byte]
  exact_mod_cast UInt8.toNat_lt _

/-- When a press gives a letter, the shift word after it is the one before it. -/
theorem pressWord_of_isLetter {shift : UInt32} {data : UInt8}
    (h : isLetter (pressChar shift data) = true) : pressWord shift data = shift := by
  rw [isLetter_pressChar] at h
  simp only [Bool.and_eq_true, Bool.not_eq_true'] at h
  obtain ⟨⟨hkey, -⟩, he⟩ := h
  simp only [pressWord, unescape, he, Bool.false_eq_true, if_false]
  exact latch_letterKey shift hkey

/-- A letter key is pressed while CAPSLOCK is on and Ctrl is up. -/
def CapsLetter (shift : UInt32) (data : UInt8) : Prop :=
  letterKey data = true ∧ has shift Mod.capslock = true ∧ has shift Mod.ctl = false ∧
    has shift Mod.e0esc = false

instance (shift : UInt32) (data : UInt8) : Decidable (CapsLetter shift data) :=
  inferInstanceAs (Decidable (_ ∧ _))

/-- A letter key's make code is neither the `E0` escape nor a break code. -/
theorem make_of_letterKey {data : UInt8} (h : letterKey data = true) :
    data ≠ 0xE0 ∧ data &&& 0x80 = 0 := ((letterCodes data).codes h).2.2

/-- **Where the case inversion under CAPSLOCK shows.**  A driver that leaves the
inversion out gives the code of the stock driver, except for a `CapsLetter`. -/
theorem caps_swap_eq_iff (shift : UInt32) (data : UInt8) :
    asInt (pressChar shift data) =
        asInt (if has (pressWord shift data) Mod.capslock then swapCase (pressChar shift data)
          else pressChar shift data) ↔
      ¬ CapsLetter shift data := by
  have hpress := isLetter_pressChar shift data
  rw [asInt_inj, CapsLetter]
  cases hl : isLetter (pressChar shift data) with
  | false =>
    -- no letter: the inversion does nothing, and the key was none of the letter keys
    rw [swapCase_of_not_isLetter hl, ite_self]
    rw [hl, eq_comm] at hpress
    simp only [Bool.and_eq_false_iff, Bool.not_eq_false'] at hpress
    refine iff_of_true rfl ?_
    rintro ⟨hkey, -, hctl, he⟩
    rcases hpress with (h | h) | h
    · rw [hkey] at h; exact absurd h (by decide)
    · rw [hctl] at h; exact absurd h (by decide)
    · rw [he] at h; exact absurd h (by decide)
  | true =>
    rw [pressWord_of_isLetter hl]
    rw [hl, eq_comm] at hpress
    simp only [Bool.and_eq_true, Bool.not_eq_true'] at hpress
    obtain ⟨⟨hkey, hctl⟩, he⟩ := hpress
    cases hc : has shift Mod.capslock with
    | false => simp
    | true =>
      rw [if_pos rfl, eq_comm, swapCase_eq_self_iff, hl]
      simp [hkey, hctl, he]

end Kbd
end Xv6
