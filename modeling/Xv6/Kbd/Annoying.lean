import Xv6.Kbd.Stock
import Xv6.Lib.Machine

/-!
# The decoder of the Annoying console

`kbdgetc` of `B22CS052/Annoying/kbd.c`: the stock decoder with a devil mode that
Ctrl+Space enters and Ctrl+Tab leaves.  Outside devil mode it is meant to be the
stock decoder; but its CAPSLOCK test reads `shift & CAPSLOCK & !devil_mode`,
whose last conjunct is the number 0 or 1 and shares no bit with `CAPSLOCK`.

## Main results

* `capsTest_eq_false` — the CAPSLOCK test never succeeds.
* `outputs_annoying_eq_iff` — **the streams on which the driver returns what the
  stock driver returns.**
-/

namespace Xv6
namespace Kbd
namespace Annoying

/-- The static shift word, and `devil_mode`. -/
structure State where
  shift : UInt32
  devilMode : Bool
  deriving DecidableEq

/-- The state at boot. -/
def boot : State := ⟨0, false⟩

/-- The test `shift & CAPSLOCK & !devil_mode`. -/
def capsTest (s : State) : Bool :=
  s.shift &&& Mod.capslock &&& (if s.devilMode then 0 else 1) != 0

/-- What the driver makes of the character `c` of a key press. -/
def finish (s : State) (c : UInt32) : ℤ :=
  if capsTest s then asInt (swapCase c)
  else if s.devilMode then
    if has s.shift Mod.shift then asInt (c - 0x40)
    else if has s.shift Mod.ctl then asInt (c + 128)
    else asInt c
  else asInt c

/-- `kbdgetc` of the Annoying driver. -/
def kbdgetc (s : State) : Option UInt8 → State × ℤ
  | none => (s, -1)
  | some data =>
    if data = 0xE0 then ({ s with shift := s.shift ||| Mod.e0esc }, 0)
    else if data &&& 0x80 ≠ 0 then ({ s with shift := keyRelease s.shift data }, 0)
    else if !has s.shift Mod.e0esc && has s.shift Mod.ctl && data == 0x39 then
      ({ s with devilMode := true }, 2000)
    else if !has s.shift Mod.e0esc && has s.shift Mod.ctl && data == 0x0F then
      ({ s with devilMode := false }, 0)
    else
      let s' : State := { s with shift := pressWord s.shift data }
      (s', finish s' (pressChar s.shift data))

/-- One byte of a stream through the decoder. -/
def scan (s : State) (data : UInt8) : State × ℤ := kbdgetc s (some data)

/-- The CAPSLOCK test never succeeds. -/
theorem capsTest_eq_false (s : State) : capsTest s = false := by
  have hbits : Mod.capslock &&& (if s.devilMode then 0 else 1) = (0 : UInt32) := by
    cases s.devilMode <;> decide
  rw [capsTest, UInt32.and_assoc, hbits, UInt32.and_zero]
  rfl

/-- The press of Space or Tab while Ctrl is down. -/
def DevilChord (shift : UInt32) (data : UInt8) : Prop :=
  has shift Mod.e0esc = false ∧ has shift Mod.ctl = true ∧ (data = 0x39 ∨ data = 0x0F)

instance (shift : UInt32) (data : UInt8) : Decidable (DevilChord shift data) :=
  inferInstanceAs (Decidable (_ ∧ _))

/-- A press that is no chord. -/
theorem scan_press {s : State} {data : UInt8} (h0 : data ≠ 0xE0) (hmake : data &&& 0x80 = 0)
    (hchord : ¬ DevilChord s.shift data) :
    scan s data = ({ s with shift := pressWord s.shift data },
      finish { s with shift := pressWord s.shift data } (pressChar s.shift data)) := by
  have hspace : (!has s.shift Mod.e0esc && has s.shift Mod.ctl && data == 0x39) = false := by
    rw [← Bool.not_eq_true]
    intro h
    simp only [Bool.and_eq_true, Bool.not_eq_true', beq_iff_eq] at h
    exact hchord ⟨h.1.1, h.1.2, .inl h.2⟩
  have htab : (!has s.shift Mod.e0esc && has s.shift Mod.ctl && data == 0x0F) = false := by
    rw [← Bool.not_eq_true]
    intro h
    simp only [Bool.and_eq_true, Bool.not_eq_true', beq_iff_eq] at h
    exact hchord ⟨h.1.1, h.1.2, .inr h.2⟩
  simp [scan, kbdgetc, h0, hmake, hspace, htab]

/-- Space is not pressed while Ctrl is down. -/
def NoSpace (shift : UInt32) (data : UInt8) : Prop :=
  has shift Mod.e0esc = false → has shift Mod.ctl = true → data ≠ 0x39

instance (shift : UInt32) (data : UInt8) : Decidable (NoSpace shift data) :=
  inferInstanceAs (Decidable (_ → _ → _))

/-- The streams on which devil mode is never entered. -/
def SpaceFree (stream : List UInt8) : Prop := Machine.Along Stock.scan NoSpace 0 stream

instance (stream : List UInt8) : Decidable (SpaceFree stream) := Machine.decidableAlong _ _ _ _

/-- The states related by the simulation: no devil mode, and the same shift word. -/
def Sim (shift : UInt32) (s : State) : Prop := s = ⟨shift, false⟩

/-- Ctrl+Tab is a key without a character: the stock driver returns zero for it. -/
theorem scan_ctrl_tab {shift : UInt32} (he : has shift Mod.e0esc = false)
    (hctl : has shift Mod.ctl = true) : Stock.scan shift 0x0F = (shift, 0) := by
  have hword : pressWord shift 0x0F = shift := by
    have hcode : shiftcode 0x0F = 0 := by decide
    have htog : togglecode 0x0F = 0 := by decide
    simp [pressWord, unescape, he, latch, hcode, htog]
  have hchar : pressChar shift 0x0F = 0 := by
    have hmap : ctlmap 0x0F = 0 := by decide
    rw [pressChar, hword, unescape, he, if_neg (by decide), keyChar_of_ctl hctl, hmap]
    rfl
  have hswap : swapCase 0 = 0 := by decide
  rw [Stock.scan_press _ (by decide) (by decide), hword, hchar, hswap, ite_self]
  rfl

/-- **One byte outside devil mode.**  The states stay related, and the code is
that of the stock driver except for a `CapsLetter`. -/
theorem scan_sim {shift : UInt32} {s : State} (h : Sim shift s) {data : UInt8}
    (hdata : NoSpace shift data) :
    Sim (Stock.scan shift data).1 (scan s data).1 ∧
      ((scan s data).2 = (Stock.scan shift data).2 ↔ ¬ CapsLetter shift data) := by
  subst h
  rcases byte_cases data with rfl | ⟨h0, hrel⟩ | ⟨h0, hrel⟩
  · refine ⟨rfl, iff_of_true rfl ?_⟩
    exact fun hc => (make_of_letterKey hc.1).1 rfl
  · have hscan : scan ⟨shift, false⟩ data = (⟨keyRelease shift data, false⟩, 0) := by
      simp [scan, kbdgetc, h0, hrel]
    rw [hscan, Stock.scan_release _ h0 hrel]
    refine ⟨rfl, iff_of_true rfl ?_⟩
    exact fun hc => hrel (make_of_letterKey hc.1).2
  · by_cases htab : has shift Mod.e0esc = false ∧ has shift Mod.ctl = true ∧ data = 0x0F
    · obtain ⟨he, hctl, rfl⟩ := htab
      have hscan : scan ⟨shift, false⟩ 0x0F = (⟨shift, false⟩, 0) := by
        simp [scan, kbdgetc, he, hctl, hrel]
      rw [hscan, scan_ctrl_tab he hctl]
      refine ⟨rfl, iff_of_true rfl ?_⟩
      exact fun hc => absurd hc.1 (by decide)
    · have hscan : scan ⟨shift, false⟩ data =
          (⟨pressWord shift data, false⟩, asInt (pressChar shift data)) := by
        have hchord : ¬ DevilChord shift data := by
          rintro ⟨he, hctl, hkey | hkey⟩
          · exact hdata he hctl hkey
          · exact htab ⟨he, hctl, hkey⟩
        rw [scan_press h0 hrel hchord]
        simp [finish, capsTest_eq_false]
      rw [hscan, Stock.scan_press _ h0 hrel]
      exact ⟨rfl, caps_swap_eq_iff shift data⟩

/-- **The streams on which the Annoying driver is the stock driver.**  From boot,
on a stream that never enters devil mode, the two return the same codes exactly
when no letter key is pressed under CAPSLOCK. -/
theorem outputs_annoying_eq_iff (stream : List UInt8) (h : SpaceFree stream) :
    Machine.outputs scan boot stream = Machine.outputs Stock.scan 0 stream ↔
      Machine.Along Stock.scan (fun shift data => ¬ CapsLetter shift data) 0 stream := by
  refine Machine.outputs_eq_iff_along Sim NoSpace _ ?_ ?_ stream 0 boot rfl h
  · intro shift s data hsim hdata
    exact (scan_sim hsim hdata).2
  · intro shift s data hsim hdata _
    exact (scan_sim hsim hdata).1

/-- The rule at Ctrl+Tab, Shift+`A`, then CAPSLOCK and `1`. -/
theorem outputs_annoying_eq_ctrl_tab :
    Machine.outputs scan boot [0x1D, 0x0F, 0x8F, 0x9D, 0x2A, 0x1E, 0x9E, 0xAA, 0x3A, 0x02] =
      Machine.outputs Stock.scan 0
        [0x1D, 0x0F, 0x8F, 0x9D, 0x2A, 0x1E, 0x9E, 0xAA, 0x3A, 0x02] :=
  (outputs_annoying_eq_iff _ (by decide)).mpr (by decide)

/-- CAPSLOCK, then the `A` key: the stock driver returns `A`, the Annoying driver `a`. -/
theorem outputs_annoying_capslock :
    SpaceFree [0x3A, 0x1E] ∧ Machine.outputs scan boot [0x3A, 0x1E] = [0, 0x61] ∧
      Machine.outputs Stock.scan 0 [0x3A, 0x1E] = [0, 0x41] := by
  decide

end Annoying
end Kbd
end Xv6
