import Xv6.Console.Discipline
import Xv6.Kbd.Stock
import Xv6.Lib.Machine

/-!
# The Dvorak keyboard driver

`B22CS039/kbd.c`: the stock decoder with a second layout, and a `kbdintr` that switches
the layout at Ctrl+D.  Any other code it prints with `consputc`.  The stock `kbdintr`
hands the decoder to `consoleintr`; this one never calls it, and no key reaches the
console input.

## Main results

* `kbdgetc_qwerty` — in the QWERTY layout the decoder is the stock decoder.
* `same_iff_deaf` — the two drivers treat a byte alike exactly when it is `Deaf`.
* `delivers_iff` — **the streams on which this driver delivers what the stock driver
  delivers.**
-/

namespace Xv6
namespace Kbd

open Console

/-! ### The stock driver -/

/-- `kbdintr` of the stock driver on one byte: `consoleintr` drains the code of the byte,
and finds no further byte. -/
def Stock.kbdintr (s : UInt32 × Input) (data : UInt8) : (UInt32 × Input) × List Out :=
  let p := Stock.kbdgetc s.1 (some data)
  let q := Console.Stock.consoleintr s.2 (if 0 ≤ p.2 then [p.2.toNat] else [])
  ((p.1, q.1), q.2)

namespace Dvorak

/-! ### The code -/

/-- The static shift word, and `is_dvorak`. -/
structure State where
  shift : UInt32
  isDvorak : Bool
  deriving DecidableEq

/-- The state at boot: the QWERTY layout. -/
def boot : State := ⟨0, false⟩

/-- The character in the Dvorak layout, if the table has one. -/
def relayout (c : UInt32) : UInt32 :=
  if 0x20 ≤ c ∧ c < 0x7F then
    let mapped := qwertyToDvorakChar c.toUInt8
    if mapped ≠ 0 then mapped.toUInt32 else c
  else c

/-- `kbdgetc`. -/
def kbdgetc (s : State) : Option UInt8 → State × ℤ
  | none => (s, -1)
  | some data =>
    if data = 0xE0 then ({ s with shift := s.shift ||| Mod.e0esc }, 0)
    else if data &&& 0x80 ≠ 0 then ({ s with shift := keyRelease s.shift data }, 0)
    else
      let word := pressWord s.shift data
      let c := if s.isDvorak then relayout (pressChar s.shift data) else pressChar s.shift data
      ({ s with shift := word }, asInt (if has word Mod.capslock then swapCase c else c))

/-- `print_str`. -/
def printStr (s : String) : List Out := (str s).map fun b => .putc (schar b)

/-- `kbdintr` on one byte.  The console input is not among what it changes. -/
def kbdintr (s : State × Input) (data : UInt8) : (State × Input) × List Out :=
  let p := kbdgetc s.1 (some data)
  if p.2 ≠ -1 then
    if p.2 % 256 = 4 then                                            -- Ctrl+D
      (({ p.1 with isDvorak := !p.1.isDvorak }, s.2),
        [.putc 0x0A] ++ printStr "Keyboard layout switched to " ++
          printStr (if !p.1.isDvorak then "Dvorak" else "QWERTY") ++ [.putc 0x0A])
    else ((p.1, s.2), [.putc p.2])
  else ((p.1, s.2), [])

/-! ### The two drivers side by side -/

/-- The stock driver and this one, on the same byte. -/
def pair (s : (UInt32 × Input) × (State × Input)) (data : UInt8) :
    ((UInt32 × Input) × (State × Input)) × Unit :=
  (((Stock.kbdintr s.1 data).1, (kbdintr s.2 data).1), ())

/-- The two at boot, over the same ring. -/
def start (g : Input) : (UInt32 × Input) × (State × Input) := ((0, g), (boot, g))

/-- A byte for which the stock driver has no code prints nothing. -/
def Silent (s : (UInt32 × Input) × (State × Input)) (data : UInt8) : Prop :=
  (Stock.scan s.1.1 data).2 = 0 → (kbdintr s.2 data).2 = []

/-- A byte leaves the same console input in both, and prints nothing if it has no code. -/
def Same (s : (UInt32 × Input) × (State × Input)) (data : UInt8) : Prop :=
  (pair s data).1.1.2 = (pair s data).1.2.2 ∧ Silent s data

/-- **A byte that the stock console is deaf to**: a key with a character, pressed without
modifiers, which is Backspace with nothing to erase, or another key with the ring full. -/
def Deaf (g : Input) (data : UInt8) : Prop :=
  data &&& 0x80 = 0 ∧ normalmap data ≠ 0 ∧
    if data = 0x0E then g.e = g.w else 128 ≤ Counter.dist g.r g.e

instance (g : Input) (data : UInt8) : Decidable (Deaf g data) :=
  inferInstanceAs (Decidable (_ ∧ _ ∧ _))

/-- In the QWERTY layout the decoder is the stock decoder. -/
theorem kbdgetc_qwerty (shift : UInt32) (data : UInt8) :
    kbdgetc ⟨shift, false⟩ (some data) =
      (⟨(Stock.scan shift data).1, false⟩, (Stock.scan shift data).2) := by
  unfold kbdgetc Stock.scan Stock.kbdgetc
  dsimp only
  split
  · rfl
  · split
    · rfl
    · rfl

/-- A key with a character, pressed without an `E0` prefix. -/
def IsKey (d : UInt8) : Prop := d &&& 0x80 = 0 ∧ normalmap d ≠ 0

instance (d : UInt8) : Decidable (IsKey d) := inferInstanceAs (Decidable (_ ∧ _))

/-- Without modifiers, a key gives its character and leaves the shift word alone; no
character is a control character of the console but Backspace. -/
theorem scan_key {d : UInt8} (h : IsKey d) :
    Stock.scan 0 d = (0, ((normalmap d).toNat : ℤ)) ∧ (normalmap d).toNat ≠ 0x04 ∧
      (normalmap d).toNat ≠ 0x10 ∧ (normalmap d).toNat ≠ 0x15 ∧ (normalmap d).toNat ≠ 0x7F ∧
      ((normalmap d).toNat = 0x08 ↔ d = 0x0E) :=
  forall_byte (fun d => IsKey d →
    Stock.scan 0 d = (0, ((normalmap d).toNat : ℤ)) ∧ (normalmap d).toNat ≠ 0x04 ∧
      (normalmap d).toNat ≠ 0x10 ∧ (normalmap d).toNat ≠ 0x15 ∧ (normalmap d).toNat ≠ 0x7F ∧
      ((normalmap d).toNat = 0x08 ↔ d = 0x0E)) (by decide +kernel) d h

/-- Without modifiers, any other byte has no code. -/
theorem scan_not_key {d : UInt8} (h : ¬ IsKey d) : (Stock.scan 0 d).2 = 0 :=
  forall_byte (fun d => ¬ IsKey d → (Stock.scan 0 d).2 = 0) (by decide +kernel) d h

/-- A byte without a code is printed all the same. -/
theorem not_silent {g h : Input} {d : UInt8} (hcode : (Stock.scan 0 d).2 = 0) :
    ¬ Silent ((0, g), (boot, h)) d := by
  intro hsilent
  have hout := hsilent hcode
  rw [kbdintr, boot, kbdgetc_qwerty, hcode] at hout
  contradiction

/-! ### What the stock console does with a key -/

theorem put_ne (g : Input) (c : UInt8) (w : UInt32) : ({ g.put c with w := w } : Input) ≠ g := by
  intro heq
  have he : g.e + 1 = g.e := congrArg Input.e heq
  rw [← UInt32.toNat_inj, UInt32.toNat_add] at he
  have hlt := UInt32.toNat_lt g.e
  have hone : (1 : UInt32).toNat = 1 := rfl
  omega

/-- The default case leaves the ring as it is only if it refuses the character. -/
theorem insert_eq_self {g : Input} {c : ℕ} (hc : c ≠ 0) :
    (insert g c).1 = g ↔ 128 ≤ Counter.dist g.r g.e := by
  constructor
  · intro heq
    by_contra hlt
    rw [insert_of_accept hc (not_le.mp hlt)] at heq
    dsimp only at heq
    split at heq
    · exact put_ne g _ _ heq
    · exact put_ne g _ g.w heq
  · intro hfull
    rw [insert_of_refuse (.inr hfull)]

/-- Backspace leaves the ring as it is only if there is nothing to erase. -/
theorem backspace_eq_self {g : Input} : (backspace g).1 = g ↔ g.e = g.w := by
  constructor
  · intro heq
    by_contra hne
    rw [backspace, if_pos hne] at heq
    have he : g.e - 1 = g.e := congrArg Input.e heq
    rw [← UInt32.toNat_inj, UInt32.toNat_sub] at he
    have hlt := UInt32.toNat_lt g.e
    have hone : (1 : UInt32).toNat = 1 := rfl
    omega
  · intro he
    rw [backspace, if_neg (not_not.mpr he)]

/-- The stock ring after a key pressed without modifiers. -/
def keyRing (g : Input) (d : UInt8) : Input :=
  if d = 0x0E then (backspace g).1 else (insert g (normalmap d).toNat).1

theorem stock_kbdintr_key {d : UInt8} (h : IsKey d) (g : Input) :
    (Stock.kbdintr (0, g) d).1 = (0, keyRing g d) := by
  obtain ⟨hscan, -, h10, h15, h7f, h08⟩ := scan_key h
  rw [Stock.scan] at hscan
  rw [Stock.kbdintr]
  simp only [hscan, Int.toNat_natCast, Nat.cast_nonneg, if_true]
  refine Prod.ext rfl ?_
  simp only [Console.Stock.consoleintr, Console.Stock.drain, Console.Stock.code, keyRing]
  rw [if_neg h10, if_neg h15]
  rcases eq_or_ne d 0x0E with hback | hback
  · rw [if_pos (.inl (h08.mpr hback)), if_pos hback]
  · rw [if_neg fun h' => h'.elim (fun h' => hback (h08.mp h')) h7f, if_neg hback]

theorem kbdintr_key {d : UInt8} (h : IsKey d) (g : Input) :
    (kbdintr (boot, g) d).1 = (boot, g) := by
  obtain ⟨hscan, h04, -⟩ := scan_key h
  have hcode : ((normalmap d).toNat : ℤ) % 256 ≠ 4 := by
    have hlt := UInt8.toNat_lt (normalmap d)
    omega
  have hne : ((normalmap d).toNat : ℤ) ≠ -1 := by omega
  rw [kbdintr, boot, kbdgetc_qwerty, hscan]
  simp only [hcode, hne, ne_eq, not_false_eq_true, if_true, if_false]

theorem pair_key {d : UInt8} (h : IsKey d) (g g' : Input) :
    (pair ((0, g), (boot, g')) d).1 = ((0, keyRing g d), (boot, g')) := by
  rw [pair, stock_kbdintr_key h, kbdintr_key h]

/-- A byte is silent exactly if it is a key. -/
theorem silent_iff {d : UInt8} (g g' : Input) : Silent ((0, g), (boot, g')) d ↔ IsKey d := by
  constructor
  · intro hsilent
    by_contra hkey
    exact not_silent (scan_not_key hkey) hsilent
  · intro hkey hcode
    rw [(scan_key hkey).1] at hcode
    exact absurd (UInt8.toNat_inj.mp (Int.natCast_eq_zero.mp hcode)) hkey.2

/-- **The two drivers treat a byte alike exactly when the console is deaf to it.** -/
theorem same_iff_deaf (g : Input) (d : UInt8) : Same (start g) d ↔ Deaf g d := by
  rw [Same, start, silent_iff, Deaf, ← and_assoc, ← IsKey, and_comm]
  refine and_congr_right fun hkey => ?_
  have hpos : (normalmap d).toNat ≠ 0 := fun h => hkey.2 (UInt8.toNat_inj.mp h)
  rw [pair_key hkey, keyRing]
  dsimp only
  split
  · exact backspace_eq_self
  · exact insert_eq_self hpos

/-- Bytes that the console is deaf to leave both drivers where they are. -/
theorem pair_of_same {g : Input} {d : UInt8} (h : Same (start g) d) :
    (pair (start g) d).1 = start g := by
  have hkey : IsKey d := (silent_iff g g).mp h.2
  have hring := h.1
  rw [start, pair_key hkey] at hring ⊢
  have hring' : keyRing g d = g := hring
  rw [hring']

/-! ### From an empty ring -/

/-- A character stands somewhere in the ring. -/
def Typed (g : Input) : Prop := ∃ i, g.buf.get i ≠ 0

theorem not_typed_boot : ¬ Typed Input.boot := by
  rintro ⟨i, hi⟩
  exact hi (by simp [Input.boot, Vector.get_eq_getElem])

theorem typed_insert {g : Input} {c : ℕ} (h0 : c ≠ 0) (hc : c < 256)
    (h : Typed g ∨ Counter.dist g.r g.e < 128) : Typed (insert g c).1 := by
  rcases Nat.lt_or_ge (Counter.dist g.r g.e) 128 with hlt | hge
  · have hbyte : byteOf c ≠ 0 := by
      intro hzero
      have hcr := congrArg UInt8.toNat hzero
      rw [byteOf, UInt8.toNat_ofNat'] at hcr
      unfold crToNl at hcr
      have hz : (0 : UInt8).toNat = 0 := rfl
      split at hcr <;> omega
    have hput : Typed (g.put (byteOf c)) :=
      ⟨⟨g.e.toNat % 128, Nat.mod_lt _ (by decide)⟩, by simpa [Input.put, Vector.get_eq_getElem]⟩
    rw [insert_of_accept h0 hlt]
    dsimp only
    split
    · exact hput
    · exact hput
  · rw [insert_of_refuse (.inr hge)]
    exact h.resolve_right (Nat.not_lt.mpr hge)

theorem typed_keyRing {g : Input} {d : UInt8} (hkey : IsKey d)
    (h : Typed g ∨ Counter.dist g.r g.e < 128 ∧ d ≠ 0x0E) : Typed (keyRing g d) := by
  have hpos : (normalmap d).toNat ≠ 0 := fun h => hkey.2 (UInt8.toNat_inj.mp h)
  unfold keyRing
  split
  · next hback =>
    have hg : Typed g := h.resolve_right fun h' => h'.2 hback
    unfold backspace
    split
    · exact hg
    · exact hg
  · exact typed_insert hpos (UInt8.toNat_lt _) (h.imp_right And.left)

/-- A character, once typed, stays in the stock ring; this driver's ring does not change. -/
theorem final_typed : ∀ (stream : List UInt8) {g g' : Input}, Typed g →
    Machine.Along pair Silent ((0, g), (boot, g')) stream →
      Typed (Machine.final pair ((0, g), (boot, g')) stream).1.2 ∧
        (Machine.final pair ((0, g), (boot, g')) stream).2.2 = g' := by
  intro stream
  induction stream with
  | nil => intro g g' h _; exact ⟨h, rfl⟩
  | cons d stream ih =>
    intro g g' h halong
    rw [Machine.along_cons, silent_iff] at halong
    rw [pair_key halong.1] at halong
    rw [Machine.final_cons, pair_key halong.1]
    exact ih (typed_keyRing halong.1 (.inl h)) halong.2

/-- From boot, the rings end alike and no byte without a code is printed only if the stream
is made of Backspaces. -/
theorem final_boot_iff (stream : List UInt8) :
    (Machine.final pair (start Input.boot) stream).1.2 =
          (Machine.final pair (start Input.boot) stream).2.2 ∧
        Machine.Along pair Silent (start Input.boot) stream ↔
      ∀ d ∈ stream, d = 0x0E := by
  induction stream with
  | nil => simp [start]
  | cons d stream ih =>
    rw [List.forall_mem_cons, Machine.along_cons, Machine.final_cons]
    by_cases hback : d = 0x0E
    · -- a Backspace with nothing to erase
      subst hback
      have hsame : Same (start Input.boot) 0x0E := (same_iff_deaf _ _).mpr (by decide)
      rw [pair_of_same hsame, and_iff_right hsame.2, and_iff_right rfl, ih]
    · refine iff_of_false ?_ fun h => hback h.1
      rintro ⟨hend, hsilent, halong⟩
      have hkey : IsKey d := (silent_iff _ _).mp hsilent
      rw [start, pair_key hkey] at hend halong
      obtain ⟨htyped, hring⟩ :=
        final_typed stream (typed_keyRing hkey (.inr ⟨by decide, hback⟩)) halong
      rw [hend, hring] at htyped
      exact not_typed_boot htyped

/-- **The streams on which this driver delivers what the stock driver delivers.**  From any
ring, the two have the same console input after every byte, and bytes without a code
print nothing, exactly when the console is deaf to each byte; and from the empty ring
they end with the same input, silently, exactly on streams of Backspaces. -/
theorem delivers_iff (g : Input) (stream : List UInt8) :
    (Machine.Along pair Same (start g) stream ↔ ∀ d ∈ stream, Deaf g d) ∧
      ((Machine.final pair (start Input.boot) stream).1.2 =
            (Machine.final pair (start Input.boot) stream).2.2 ∧
          Machine.Along pair Silent (start Input.boot) stream ↔
        ∀ d ∈ stream, d = 0x0E) := by
  refine ⟨?_, final_boot_iff stream⟩
  rw [Machine.along_iff_forall fun d hd => pair_of_same hd]
  exact forall₂_congr fun d _ => same_iff_deaf g d

/-- `l`, `s` and Enter: the stock console commits a line, this driver only prints it.  And
the release of the key prints a NUL. -/
theorem not_delivers_ls :
    ((Machine.final pair (start Input.boot) [0x26, 0x1F, 0x1C]).1.2.queue,
        (Machine.final pair (start Input.boot) [0x26, 0x1F, 0x1C]).2.2.queue) =
          (str "ls\n", []) ∧
      (Stock.scan 0 0xA6).2 = 0 ∧ (kbdintr (boot, Input.boot) 0xA6).2 = [.putc 0] := by
  decide +kernel

end Dvorak
end Kbd
end Xv6
