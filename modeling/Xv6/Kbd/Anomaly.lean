import Xv6.Kbd.Dvorak
import Xv6.Kbd.ShiftWord

/-!
# The anomaly mode driver

`B22CS039/Modified_Keyboard_Driver/Anomaly_Mode_kbd.c`: the stock decoder with a mode that
Ctrl+A switches, in which Space and Tab change places, Backspace and Enter change places, and
the case of the letters is inverted once more.

The second swap of the source looks at the key that the first swap leaves, and the mode
inverts the case of the character that CAPSLOCK leaves.

* `kbdgetc` — the driver, with what it prints.
* `Reading` — the stock driver, given the relabelled keys.
* `anomaly_reading` — **every byte of a stream is answered as the reading says.**
-/

namespace Xv6
namespace Kbd
namespace Anomaly

open Console Dvorak

/-! ### The code -/

/-- The static variables of the driver. -/
structure State where
  shift : UInt32
  aMode : Bool
  deriving DecidableEq

/-- The state at boot. -/
def boot : State := ⟨0, false⟩

/-- The two swaps of the mode, one after the other. -/
def swapKeys (data : UInt8) : UInt8 :=
  let data := if data = 0x39 then 0x0F else if data = 0x0F then 0x39 else data
  if data = 0x0E then 0x1C else if data = 0x1C then 0x0E else data

/-- `kbdgetc`: the code, and what is printed.  The last argument is the byte the data port
holds, if the status port announces one. -/
def kbdgetc (s : State) : Option UInt8 → State × ℤ × List Out
  | none => (s, -1, [])
  | some data =>
    if data = 0xE0 then ({ s with shift := s.shift ||| Mod.e0esc }, 0, [])
    else if data &&& 0x80 ≠ 0 then ({ s with shift := keyRelease s.shift data }, 0, [])
    else
      let u := unescape s.shift data
      if u.2 = 0x1E ∧ has u.1 Mod.ctl = true then                    -- Ctrl+A
        let on := !s.aMode
        (⟨u.1, on⟩, 0,
          printStr (if on then "ANOMALY MODE ENABLED!!\n" else "ANOMALY MODE DISABLED!!\n"))
      else
        let key := if s.aMode then swapKeys u.2 else u.2
        let word := latch u.1 key
        let c := keyChar word key
        let c := if has word Mod.capslock then swapCase c else c
        let c := if s.aMode then swapCase c else c
        ({ s with shift := word }, asInt c, [])

/-- One byte of a stream. -/
def scan (s : State) (data : UInt8) : State × ℤ × List Out := kbdgetc s (some data)

/-! ### The stock driver with relabelled keys -/

/-- The key whose place a key takes in the mode. -/
def partner (data : UInt8) : UInt8 :=
  if data = 0x39 then 0x0F
  else if data = 0x0F then 0x39
  else if data = 0x0E then 0x1C
  else if data = 0x1C then 0x0E
  else data

/-- A code with the case of its letter inverted. -/
def invertCase (code : ℤ) : ℤ :=
  if 0x61 ≤ code ∧ code ≤ 0x7A then code - 0x20
  else if 0x41 ≤ code ∧ code ≤ 0x5A then code + 0x20
  else code

/-- How far a stream has been read: the shift word of the stock driver, whether the last byte
was the `E0` prefix, and how often Ctrl+A has been pressed. -/
structure Reading where
  shift : UInt32
  escaped : Bool
  presses : ℕ
  deriving DecidableEq

namespace Reading

/-- Nothing has been read. -/
def start : Reading := ⟨0, false, 0⟩

/-- The byte is a press of Ctrl+A. -/
def CtrlA (t : Reading) (data : UInt8) : Prop :=
  data = 0x1E ∧ has t.shift Mod.ctl = true ∧ t.escaped = false

instance (t : Reading) (data : UInt8) : Decidable (t.CtrlA data) :=
  inferInstanceAs (Decidable (_ ∧ _))

/-- The byte that the stock driver is given: after an odd number of presses, the partner of
a key without an `E0` prefix. -/
def key (t : Reading) (data : UInt8) : UInt8 :=
  if t.presses % 2 = 1 ∧ t.escaped = false then partner data else data

/-- The code of the stock driver, after an odd number of presses with its case inverted. -/
def code (t : Reading) (data : UInt8) : ℤ :=
  if t.presses % 2 = 1 then invertCase (Stock.scan t.shift (t.key data)).2
  else (Stock.scan t.shift (t.key data)).2

/-- One byte more. -/
def next (t : Reading) (data : UInt8) : Reading where
  shift := (Stock.scan t.shift (t.key data)).1
  escaped := data == 0xE0
  presses := if t.CtrlA data then t.presses + 1 else t.presses

end Reading

/-! ### The swaps do not cascade -/

/-- The two swaps are one. -/
theorem swapKeys_eq (data : UInt8) : swapKeys data = partner data :=
  forall_byte (fun d => swapKeys d = partner d) (by decide +kernel) data

/-- No extended key has a partner. -/
theorem partner_extended (data : UInt8) : partner (data ||| 0x80) = data ||| 0x80 :=
  forall_byte (fun d => partner (d ||| 0x80) = d ||| 0x80) (by decide +kernel) data

/-- The partner of a make code is a make code; a break code has no partner. -/
theorem partner_make {data : UInt8} (hmake : data &&& 0x80 = 0) :
    partner data ≠ 0xE0 ∧ partner data &&& 0x80 = 0 :=
  forall_byte (fun d => d &&& 0x80 = 0 → partner d ≠ 0xE0 ∧ partner d &&& 0x80 = 0)
    (by decide +kernel) data hmake

theorem partner_escape (data : UInt8) : (partner data == 0xE0) = (data == 0xE0) :=
  forall_byte (fun d => (partner d == 0xE0) = (d == 0xE0)) (by decide +kernel) data

theorem partner_break {data : UInt8} (hbreak : data &&& 0x80 ≠ 0) : partner data = data :=
  forall_byte (fun d => d &&& 0x80 ≠ 0 → partner d = d) (by decide +kernel) data hbreak

/-! ### The case of a code -/

theorem isLower_iff (c : UInt32) : isLower c = true ↔ 0x61 ≤ c.toNat ∧ c.toNat ≤ 0x7A := by
  simp only [isLower, Bool.and_eq_true, decide_eq_true_eq, UInt32.le_iff_toNat_le]
  exact Iff.rfl

theorem isUpper_iff (c : UInt32) : isUpper c = true ↔ 0x41 ≤ c.toNat ∧ c.toNat ≤ 0x5A := by
  simp only [isUpper, Bool.and_eq_true, decide_eq_true_eq, UInt32.le_iff_toNat_le]
  exact Iff.rfl

/-- The inversion of a character is the inversion of its code. -/
theorem asInt_swapCase (c : UInt32) : asInt (swapCase c) = invertCase (asInt c) := by
  have hlt := c.toNat_lt
  have h20 : (0x20 : UInt32).toNat = 0x20 := rfl
  by_cases hl : isLower c = true
  · obtain ⟨hlo, hhi⟩ := (isLower_iff c).mp hl
    have hsub : (c - 0x20).toNat = c.toNat - 0x20 :=
      UInt32.toNat_sub_of_le c 0x20 (UInt32.le_iff_toNat_le.mpr (by omega))
    rw [swapCase, if_pos hl, asInt_eq, asInt_eq, hsub, invertCase]
    split_ifs <;> omega
  · by_cases hu : isUpper c = true
    · obtain ⟨hlo, hhi⟩ := (isUpper_iff c).mp hu
      have hadd : (c + 0x20).toNat = c.toNat + 0x20 := by
        rw [UInt32.toNat_add, h20]
        omega
      rw [swapCase, if_neg hl, if_pos hu, asInt_eq, asInt_eq, hadd, invertCase]
      split_ifs <;> omega
    · rw [swapCase, if_neg hl, if_neg hu]
      rw [isLower_iff] at hl
      rw [isUpper_iff] at hu
      rw [asInt_eq, invertCase]
      split_ifs <;> omega

theorem invertCase_zero : invertCase 0 = 0 := by decide

/-! ### One byte -/

/-- The driver and the reading agree on the shift word, the prefix and the mode. -/
structure Sim (s : State) (t : Reading) : Prop where
  shift : s.shift = t.shift
  escaped : t.escaped = has t.shift Mod.e0esc
  mode : s.aMode = decide (t.presses % 2 = 1)

/-- What is said of a byte: Ctrl+A has the code zero and leaves the shift word alone, and any
other byte has the code of the reading. -/
def Answers (s : State) (t : Reading) (data : UInt8) : Prop :=
  if t.CtrlA data then (scan s data).2.1 = 0 ∧ (scan s data).1.shift = s.shift
  else (scan s data).2.1 = t.code data

/-- The key by the mode of the driver. -/
theorem Sim.key_eq {s : State} {t : Reading} (h : Sim s t) (data : UInt8) :
    t.key data = if s.aMode = true ∧ has s.shift Mod.e0esc = false then partner data else data := by
  rw [Reading.key, h.escaped, ← h.shift]
  simp only [h.mode, decide_eq_true_eq]

theorem Sim.code_eq {s : State} {t : Reading} (h : Sim s t) (data : UInt8) :
    t.code data = if s.aMode then invertCase (Stock.scan s.shift (t.key data)).2
      else (Stock.scan s.shift (t.key data)).2 := by
  rw [Reading.code, h.shift, h.mode]
  simp only [decide_eq_true_eq]

/-- The key the driver decodes is the key of the reading. -/
theorem Sim.unescape_key {s : State} {t : Reading} (h : Sim s t) (data : UInt8) :
    unescape s.shift (t.key data) = ((unescape s.shift data).1,
      if s.aMode then swapKeys (unescape s.shift data).2 else (unescape s.shift data).2) := by
  rw [h.key_eq, swapKeys_eq, unescape, unescape]
  cases he : has s.shift Mod.e0esc with
  | true => simp [partner_extended]
  | false => simp

/-- The test of the driver is for a press of Ctrl+A. -/
theorem Sim.ctrlA_iff {s : State} {t : Reading} (h : Sim s t) (data : UInt8) :
    (unescape s.shift data).2 = 0x1E ∧ has (unescape s.shift data).1 Mod.ctl = true ↔
      t.CtrlA data := by
  rw [Reading.CtrlA, h.escaped, ← h.shift, unescape]
  cases he : has s.shift Mod.e0esc with
  | true =>
    have hne : data ||| 0x80 ≠ 0x1E :=
      forall_byte (fun d => d ||| 0x80 ≠ 0x1E) (by decide +kernel) data
    simp [hne]
  | false => simp

/-- The relation goes on when the mode changes with the presses of Ctrl+A. -/
theorem Sim.next {s : State} {t : Reading} (h : Sim s t) (data : UInt8) :
    Sim ⟨(Stock.scan s.shift (t.key data)).1, if t.CtrlA data then !s.aMode else s.aMode⟩
      (t.next data) := by
  refine ⟨?_, ?_, ?_⟩
  · rw [h.shift]
    rfl
  · have hkey : (t.key data == 0xE0) = (data == 0xE0) := by
      rw [h.key_eq]
      split
      · exact partner_escape data
      · rfl
    rw [Reading.next, Stock.has_scan_e0esc, hkey]
  · rw [Reading.next, h.mode]
    split
    · rw [← decide_not, decide_eq_decide]
      dsimp only
      omega
    · rfl

/-- **One byte.** -/
theorem sim_scan {s : State} {t : Reading} (h : Sim s t) (data : UInt8) :
    Answers s t data ∧ Sim (scan s data).1 (t.next data) := by
  have hnext := h.next data
  rw [Answers, h.code_eq]
  rcases byte_cases data with rfl | ⟨h0, hbreak⟩ | ⟨h0, hmake⟩
  · have hctrl : ¬ t.CtrlA 0xE0 := fun hc => absurd hc.1 (by decide)
    have hkey : t.key 0xE0 = 0xE0 := by
      rw [Reading.key, partner_break (by decide), ite_self]
    rw [if_neg hctrl, hkey] at hnext
    rw [if_neg hctrl, hkey, Stock.scan_escape, invertCase_zero, ite_self]
    exact ⟨rfl, hnext⟩
  · have hctrl : ¬ t.CtrlA data := by
      rintro ⟨rfl, -⟩
      exact hbreak (by decide)
    have hkey : t.key data = data := by rw [Reading.key, partner_break hbreak, ite_self]
    have hscan : scan s data = ({ s with shift := keyRelease s.shift data }, 0, []) := by
      rw [scan, kbdgetc, if_neg h0, if_pos hbreak]
    rw [if_neg hctrl, hkey, Stock.scan_release _ h0 hbreak] at hnext
    rw [if_neg hctrl, hkey, Stock.scan_release _ h0 hbreak, invertCase_zero, ite_self, hscan]
    exact ⟨rfl, hnext⟩
  · have htest := h.ctrlA_iff data
    by_cases hctrl : t.CtrlA data
    · obtain ⟨rfl, -, hesc⟩ := id hctrl
      have hplain : has s.shift Mod.e0esc = false := by rw [h.shift, ← h.escaped, hesc]
      have hunescape : unescape s.shift 0x1E = (s.shift, 0x1E) := by
        rw [unescape, hplain, if_neg Bool.false_ne_true]
      have hword : pressWord s.shift 0x1E = s.shift := by
        rw [pressWord, hunescape]
        exact latch_letterKey s.shift (d := 0x1E) (by decide)
      have hkey : t.key 0x1E = 0x1E := by
        rw [Reading.key, show partner 0x1E = 0x1E by decide, ite_self]
      rw [if_pos hctrl, hkey, Stock.scan_press _ h0 hmake, hword] at hnext
      have hscan : (scan s 0x1E).1 = ⟨s.shift, !s.aMode⟩ ∧ (scan s 0x1E).2.1 = 0 := by
        rw [scan, kbdgetc, if_neg h0, if_neg (not_not.mpr hmake)]
        dsimp only
        rw [if_pos (htest.mpr hctrl), hunescape]
        exact ⟨rfl, rfl⟩
      rw [if_pos hctrl, hscan.1, hscan.2]
      exact ⟨⟨rfl, rfl⟩, hnext⟩
    · have hstock : t.key data ≠ 0xE0 ∧ t.key data &&& 0x80 = 0 := by
        rw [h.key_eq]
        split
        · exact partner_make hmake
        · exact ⟨h0, hmake⟩
      rw [if_neg hctrl, Stock.scan_press _ hstock.1 hstock.2] at hnext
      rw [if_neg hctrl, Stock.scan_press _ hstock.1 hstock.2]
      -- the driver decodes the key of the reading, and inverts the case after CAPSLOCK
      have hscan : scan s data = ({ s with shift := pressWord s.shift (t.key data) },
          asInt (let c := if has (pressWord s.shift (t.key data)) Mod.capslock then
              swapCase (pressChar s.shift (t.key data)) else pressChar s.shift (t.key data)
            if s.aMode then swapCase c else c), []) := by
        rw [scan, kbdgetc, if_neg h0, if_neg (not_not.mpr hmake)]
        dsimp only
        rw [if_neg (htest.not.mpr hctrl), pressChar, pressWord, h.unescape_key]
      rw [hscan]
      refine ⟨?_, hnext⟩
      dsimp only
      split
      · exact asInt_swapCase _
      · rfl

theorem sim_start : Sim boot Reading.start := ⟨rfl, by decide, by decide⟩

/-- **Anomaly mode is the stock driver with relabelled keys.**  However a stream has been
read, a press of Ctrl+A is answered with zero and leaves the shift word alone; any other byte
is answered with the code that the stock driver, given the relabelled keys, has for it. -/
theorem anomaly_reading (stream : List UInt8) (data : UInt8) :
    Answers (Machine.final scan boot stream) (stream.foldl Reading.next Reading.start) data := by
  have hsim : Sim (Machine.final scan boot stream) (stream.foldl Reading.next Reading.start) :=
    Machine.final_foldl (R := Sim) (V := fun _ => True)
      (fun s t data h _ => (sim_scan h data).2) stream boot Reading.start sim_start
      fun _ _ => trivial
  exact (sim_scan hsim data).1

/-- Ctrl+A, then Space and `A`: a Tab and an upper case `A`. -/
example : (Machine.outputs scan boot [0x1D, 0x1E, 0x9E, 0x9D, 0x39, 0x1E]).map (·.1) =
    [0, 0, 0, 0, 0x09, 0x41] := by decide

end Anomaly
end Kbd
end Xv6
