import Xv6.Kbd.Stock
import Xv6.Lib.Machine

/-!
# The decoder of the Helpful console

`kbdgetc` of `B22CS052/Helpful/kbd.c`.  A long else-if chain looks for mode
chords before the byte reaches the tables, and what the tables give is then
passed through the modes one after the other.  The chain is `chords`, the passes
are `translate` and the functions it composes, in the order of the source.

Outside the chords the driver is meant to be the stock one.  It is, except that
under CAPSLOCK it inverts the case of a letter twice, once in the chain of the
case modes and once in the pass marked "Handle regular CAPSLOCK", and that it
looks for Ctrl+Shift+H before it looks at the `E0` escape.

## Main results

* `outputs_helpful_eq_iff` — **the streams on which the driver returns what the
  stock driver returns.**
-/

namespace Xv6
namespace Kbd
namespace Helpful

/-- The static variables of the driver. -/
structure State where
  shift : UInt32
  pascalCase : Bool
  camelCase : Bool
  spacePressed : Bool
  newLinePressed : Bool
  snakeCase : Bool
  encryptionMode : Bool
  upKeyUsed : Bool
  devilMode : Bool
  isDvorak : Bool
  aMode : Bool
  capsActive : Bool
  skEnabled : Bool
  lastShiftPress : UInt32
  skTime : UInt32
  deriving DecidableEq

/-- The state with another shift word. -/
def State.withShift (s : State) (shift : UInt32) : State := { s with shift := shift }

@[simp] theorem State.withShift_shift (s : State) (x : UInt32) : (s.withShift x).shift = x := rfl

@[simp] theorem State.withShift_self (s : State) : s.withShift s.shift = s := rfl

/-- The state at boot: all variables are zero. -/
def boot : State :=
  ⟨0, false, false, false, false, false, false, false, false, false, false, false, false, 0, 0⟩

/-- `DOUBLE_PRESS`. -/
def doublePress : UInt32 := 100

/-- `SK_tq`. -/
def skTq : UInt32 := 500

/-! ### The chain of chords -/

/-- How the chain ends: the call returns, or goes on to the tables with a byte. -/
inductive Chain
  | ret (s : State) (code : ℤ)
  | go (s : State) (data : UInt8)

/-- The Ctrl+Shift chord on the key `key` is being pressed. -/
def chord (s : State) (data key : UInt8) : Bool :=
  has s.shift Mod.ctl && has s.shift Mod.shift && data == key

/-- The else-if chain of `kbdgetc`. -/
def chords (s : State) (ticks : UInt32) (data : UInt8) : Chain :=
  if chord s data 0x23 then .ret s 2504
  else if data = 0xE0 then .ret (s.withShift (s.shift ||| Mod.e0esc)) 0
  else if data = 0xE2 then
    if s.upKeyUsed then .ret s 0 else .ret { s with upKeyUsed := true } 226
  else if data &&& 0x80 ≠ 0 then .ret (s.withShift (keyRelease s.shift data)) 0
  else if has s.shift Mod.e0esc then
    .go (s.withShift (s.shift &&& ~~~Mod.e0esc)) (data ||| 0x80)
  else if chord s data 0x19 then
    .ret { s with pascalCase := !s.pascalCase, camelCase := false, snakeCase := false,
                  newLinePressed := true } 0
  else if chord s data 0x2E then
    .ret { s with camelCase := !s.camelCase, pascalCase := false, snakeCase := false } 0
  else if chord s data 0x1F then
    .ret { s with snakeCase := !s.snakeCase, pascalCase := false, camelCase := false } 0
  else if chord s data 0x20 then
    .ret { s with snakeCase := false, pascalCase := false, camelCase := false,
                  encryptionMode := false, upKeyUsed := false, devilMode := !s.devilMode,
                  aMode := !s.aMode } 2000
  else if has s.shift Mod.ctl && data == 0x12 then
    -- the only chord that does not return: Ctrl+E goes on to the tables
    .go { s with camelCase := false, pascalCase := false, snakeCase := false,
                 encryptionMode := !s.encryptionMode } data
  else if chord s data 0x39 && has s.shift Mod.alt then
    .ret { s with pascalCase := false, camelCase := false, snakeCase := false,
                  devilMode := false, aMode := false, skEnabled := false, isDvorak := false,
                  upKeyUsed := false, newLinePressed := false, encryptionMode := false } 0x0A
  else if data == 0x1F && has s.shift Mod.ctl then
    -- `sk_time = ticks` stands after the return and is never reached
    .ret { s with skEnabled := !s.skEnabled } (if s.skEnabled then 2501 else 2500)
  else if has s.shift Mod.ctl && data == 0x20 then
    .ret { s with isDvorak := !s.isDvorak } (if s.isDvorak then 2503 else 2502)
  else if s.skEnabled && skTq ≤ ticks - s.skTime then .go { s with skEnabled := false } data
  else if s.skEnabled && (data == 0x2A || data == 0x36) then
    .go { s with capsActive := if s.lastShiftPress ≠ 0 ∧ ticks - s.lastShiftPress < doublePress
                   then !s.capsActive else s.capsActive,
                 lastShiftPress := ticks } data
  else .go s data

/-! ### The passes over the character -/

/-- The devil-mode branch, which returns. -/
def devil (s : State) (data : UInt8) : ℤ :=
  let c := (normalmap data).toUInt32
  if s.aMode && data == 0x39 then 0x09
  else if s.aMode && data == 0x0F then 0x20
  else if s.aMode && data == 0x0E then 0x0A
  else if s.aMode && data == 0x1C then 0x08
  else if has s.shift Mod.ctl && isLower c then asInt (c + 128 + 2000)
  else if s.aMode then asInt (swapCase c + 2000)
  else asInt (c + 2000)

def toLower (c : UInt32) : UInt32 := if isUpper c then c + 0x20 else c
def toUpper (c : UInt32) : UInt32 := if isLower c then c - 0x20 else c

/-- The case modes, CAPSLOCK the last of them. -/
def caseModes (s : State) (c : UInt32) : UInt32 :=
  if s.pascalCase then
    if (s.spacePressed || s.newLinePressed) && isLower c then toUpper c else toLower c
  else if s.camelCase then
    if s.spacePressed && isLower c then toUpper c else toLower c
  else if has s.shift Mod.capslock then swapCase c
  else c

/-- The space pass: `space_pressed`, and the underscore of snake case. -/
def spacePass (s : State) (c : UInt32) : State × UInt32 :=
  ({ s with spacePressed := c == 0x20 }, if c == 0x20 && s.snakeCase then 0x5F else c)

/-- The newline pass: `new_line_pressed`, and `up_key_used`. -/
def newLinePass (s : State) (c : UInt32) : State :=
  { s with newLinePressed := c == 0x0A, upKeyUsed := s.upKeyUsed && c != 0x0A }

/-- The Dvorak pass. -/
def dvorakPass (isDvorak : Bool) (c : UInt32) : UInt32 :=
  if isDvorak && 0x20 ≤ c && c < 0x7F then
    let mapped := qwertyToDvorakChar c.toUInt8
    if mapped ≠ 0 then mapped.toUInt32 else c
  else c

/-- "Handle regular CAPSLOCK". -/
def capsPass (s : State) (c : UInt32) : UInt32 :=
  if !s.skEnabled && has s.shift Mod.capslock then swapCase c else c

/-- "Handle Sticky Keys CAPSLOCK". -/
def stickyPass (s : State) (c : UInt32) : UInt32 :=
  if s.capsActive && s.skEnabled then toUpper c else c

/-- The passes in order, for the character `c` of the key `data`. -/
def passes (s : State) (data : UInt8) (c : UInt32) : State × ℤ :=
  if s.devilMode then (s, devil s data)
  else if s.encryptionMode then (s, asInt (c + 1000))
  else
    let p := spacePass s (caseModes s c)
    let s' := newLinePass p.1 p.2
    (s', asInt (stickyPass s' (capsPass s' (dvorakPass s'.isDvorak p.2))))

/-- The tables and the passes, for a byte the chain let through. -/
def translate (s : State) (data : UInt8) : State × ℤ :=
  let shift := latch s.shift data
  passes (s.withShift shift) data (keyChar shift data)

/-- `kbdgetc` of the Helpful driver, at a tick value.  The last argument is the
byte the data port holds, if the status port announces one. -/
def kbdgetc (s : State) (ticks : UInt32) : Option UInt8 → State × ℤ
  | none => (s, -1)
  | some data =>
    match chords s ticks data with
    | .ret s' code => (s', code)
    | .go s' data' => translate s' data'

/-- One byte of a stream, with the tick at which it arrives. -/
def scan (s : State) (i : UInt32 × UInt8) : State × ℤ := kbdgetc s i.1 (some i.2)

/-! ### Outside the modes -/

/-- No mode is active.  `aMode` and `capsActive` are left out: they are read only
under `devilMode` and `skEnabled`. -/
structure Idle (s : State) : Prop where
  pascalCase : s.pascalCase = false
  camelCase : s.camelCase = false
  snakeCase : s.snakeCase = false
  encryptionMode : s.encryptionMode = false
  devilMode : s.devilMode = false
  isDvorak : s.isDvorak = false
  skEnabled : s.skEnabled = false

/-- The keys of the chords: `P`, `C`, `S`, `D`, `E`, `H` and Space. -/
def chordKeys : List UInt8 := [0x19, 0x2E, 0x1F, 0x20, 0x12, 0x23, 0x39]

/-- The byte is not `0xE2`, and not the press of a chord key while Ctrl is down. -/
def NoChord (shift : UInt32) (data : UInt8) : Prop :=
  data ≠ 0xE2 ∧
    (has shift Mod.ctl = true → has shift Mod.e0esc = false → data ∉ chordKeys)

/-- The byte `0x23` follows an `E0` escape while Ctrl and Shift are down. -/
def ExtendedH (shift : UInt32) (data : UInt8) : Prop :=
  has shift Mod.e0esc = true ∧ has shift Mod.ctl = true ∧ has shift Mod.shift = true ∧
    data = 0x23

instance (shift : UInt32) (data : UInt8) : Decidable (NoChord shift data) :=
  inferInstanceAs (Decidable (_ ∧ _))

instance (shift : UInt32) (data : UInt8) : Decidable (ExtendedH shift data) :=
  inferInstanceAs (Decidable (_ ∧ _))

/-- Outside the modes and the chords the chain does what the stock driver does. -/
theorem chords_idle {s : State} (hs : Idle s) (ticks : UInt32) {data : UInt8}
    (hdata : NoChord s.shift data) (hH : ¬ ExtendedH s.shift data) :
    chords s ticks data =
      if data = 0xE0 then .ret (s.withShift (s.shift ||| Mod.e0esc)) 0
      else if data &&& 0x80 ≠ 0 then .ret (s.withShift (keyRelease s.shift data)) 0
      else .go (s.withShift (unescape s.shift data).1) (unescape s.shift data).2 := by
  obtain ⟨hE2, hkeys⟩ := hdata
  unfold chords unescape
  cases he : has s.shift Mod.e0esc with
  | true =>
    have hchord : chord s data 0x23 = false := by
      rw [← Bool.not_eq_true]
      intro h
      simp only [chord, Bool.and_eq_true, beq_iff_eq] at h
      exact hH ⟨he, h.1.1, h.1.2, h.2⟩
    simp [hchord, hE2]
  | false =>
    cases hctl : has s.shift Mod.ctl with
    | false => simp [chord, hctl, hE2, hs.skEnabled]
    | true =>
      have hmem := hkeys hctl he
      simp only [chordKeys, List.mem_cons, List.not_mem_nil, or_false, not_or] at hmem
      obtain ⟨hP, hC, hS, hD, hE, hHkey, hSpace⟩ := hmem
      simp [chord, hP, hC, hS, hD, hE, hHkey, hSpace, hE2, hs.skEnabled]

theorem Idle.withShift {s : State} (hs : Idle s) (x : UInt32) : Idle (s.withShift x) :=
  ⟨hs.pascalCase, hs.camelCase, hs.snakeCase, hs.encryptionMode, hs.devilMode, hs.isDvorak,
    hs.skEnabled⟩

/-- Outside the modes the passes invert the case twice or not at all. -/
theorem passes_idle {s : State} (hs : Idle s) (data : UInt8) (c : UInt32) :
    (passes s data c).2 = asInt c := by
  simp only [passes, hs.devilMode, hs.encryptionMode, Bool.false_eq_true, if_false]
  congr 1
  simp only [stickyPass, capsPass, dvorakPass, newLinePass, spacePass, caseModes, hs.pascalCase,
    hs.camelCase, hs.snakeCase, hs.isDvorak, hs.skEnabled, Bool.and_false, Bool.false_and,
    Bool.false_eq_true, if_false, Bool.not_false, Bool.true_and]
  split
  · exact swapCase_swapCase _
  · rfl

theorem passes_shift (s : State) (data : UInt8) (c : UInt32) :
    (passes s data c).1.shift = s.shift := by
  unfold passes
  split
  · rfl
  · split <;> rfl

theorem idle_passes {s : State} (hs : Idle s) (data : UInt8) (c : UInt32) :
    Idle (passes s data c).1 := by
  unfold passes
  rw [hs.devilMode, hs.encryptionMode]
  exact ⟨hs.pascalCase, hs.camelCase, hs.snakeCase, hs.encryptionMode, hs.devilMode,
    hs.isDvorak, hs.skEnabled⟩

/-! ### The simulation -/

/-- The states related by the simulation: no mode is active, and the shift words agree. -/
def Sim (shift : UInt32) (s : State) : Prop := Idle s ∧ s.shift = shift

theorem sim_boot : Sim 0 boot := ⟨⟨rfl, rfl, rfl, rfl, rfl, rfl, rfl⟩, rfl⟩

/-- **One byte outside the chords.**  The states stay related, and the code is
that of the stock driver except for a `CapsLetter`. -/
theorem scan_sim {shift : UInt32} {s : State} (h : Sim shift s) (ticks : UInt32) {data : UInt8}
    (hdata : NoChord shift data) (hH : ¬ ExtendedH shift data) :
    Sim (Stock.scan shift data).1 (scan s (ticks, data)).1 ∧
      ((scan s (ticks, data)).2 = (Stock.scan shift data).2 ↔ ¬ CapsLetter shift data) := by
  obtain ⟨hs, rfl⟩ := h
  have hchain := chords_idle hs ticks hdata hH
  rcases byte_cases data with rfl | ⟨h0, hrel⟩ | ⟨h0, hrel⟩
  · rw [if_pos rfl] at hchain
    simp only [scan, kbdgetc, hchain, Stock.scan_escape]
    refine ⟨⟨hs.withShift _, rfl⟩, iff_of_true trivial ?_⟩
    exact fun hc => (make_of_letterKey hc.1).1 rfl
  · rw [if_neg h0, if_pos hrel] at hchain
    simp only [scan, kbdgetc, hchain, Stock.scan_release _ h0 hrel]
    refine ⟨⟨hs.withShift _, rfl⟩, iff_of_true trivial ?_⟩
    exact fun hc => hrel (make_of_letterKey hc.1).2
  · rw [if_neg h0, if_neg (not_not.mpr hrel)] at hchain
    simp only [scan, kbdgetc, hchain, Stock.scan_press _ h0 hrel, translate,
      State.withShift_shift]
    refine ⟨⟨idle_passes ((hs.withShift _).withShift _) _ _, passes_shift _ _ _⟩, ?_⟩
    rw [passes_idle ((hs.withShift _).withShift _)]
    exact caps_swap_eq_iff s.shift data

/-- The `E0`-prefixed `0x23` gives the guide code, which the stock driver never gives. -/
theorem scan_extendedH {shift : UInt32} {s : State} (h : Sim shift s) (ticks : UInt32)
    {data : UInt8} (hH : ExtendedH shift data) :
    (scan s (ticks, data)).2 ≠ (Stock.scan shift data).2 := by
  obtain ⟨-, rfl⟩ := h
  obtain ⟨he, hctl, hshift, rfl⟩ := hH
  have hcode : (scan s (ticks, 0x23)).2 = 2504 := by
    simp [scan, kbdgetc, chords, chord, hctl, hshift]
  rw [hcode, Stock.scan_press _ (by decide) (by decide)]
  have hl : isLetter (pressChar s.shift 0x23) = false := by
    rw [isLetter_pressChar, he, Bool.not_true, Bool.and_false]
  rw [swapCase_of_not_isLetter hl, ite_self]
  exact ((asInt_pressChar_lt s.shift 0x23).trans (by decide)).ne'

/-- The streams without a chord: no byte `0xE2`, and no chord key pressed under Ctrl. -/
def ChordFree (stream : List (UInt32 × UInt8)) : Prop :=
  Machine.Along (fun shift i => Stock.scan shift i.2) (fun shift i => NoChord shift i.2) 0 stream

instance (stream : List (UInt32 × UInt8)) : Decidable (ChordFree stream) :=
  Machine.decidableAlong _ _ _ _

/-- The bytes on which the two drivers agree: neither a letter key under CAPSLOCK
nor the extended `0x23` under Ctrl and Shift. -/
def Agrees (shift : UInt32) (data : UInt8) : Prop :=
  ¬ CapsLetter shift data ∧ ¬ ExtendedH shift data

instance (shift : UInt32) (data : UInt8) : Decidable (Agrees shift data) :=
  inferInstanceAs (Decidable (_ ∧ _))

/-- **The streams on which the Helpful driver is the stock driver.**  From boot,
on a stream without a chord, the two return the same codes exactly when no letter
key is pressed under CAPSLOCK (and no extended `0x23` under Ctrl and Shift). -/
theorem outputs_helpful_eq_iff (stream : List (UInt32 × UInt8)) (h : ChordFree stream) :
    Machine.outputs scan boot stream =
        Machine.outputs (fun shift i => Stock.scan shift i.2) (0 : UInt32) stream ↔
      Machine.Along (fun shift i => Stock.scan shift i.2)
        (fun shift (i : UInt32 × UInt8) => Agrees shift i.2) 0 stream := by
  refine Machine.outputs_eq_iff_along Sim _ _ ?_ ?_ stream 0 boot sim_boot h
  · rintro shift s ⟨ticks, data⟩ hsim hdata
    by_cases hH : ExtendedH shift data
    · exact iff_of_false (scan_extendedH hsim ticks hH) fun hA => hA.2 hH
    · rw [(scan_sim hsim ticks hdata hH).2]
      exact ⟨fun hc => ⟨hc, hH⟩, fun hA => hA.1⟩
  · rintro shift s ⟨ticks, data⟩ hsim hdata hA
    exact (scan_sim hsim ticks hdata hA.2).1

/-- The rule at a stream with Shift, a letter and CAPSLOCK: `A`, then CAPSLOCK and `1`. -/
theorem outputs_helpful_eq_shift_caps :
    Machine.outputs scan boot
        [(0, 0x2A), (1, 0x1E), (2, 0x9E), (3, 0xAA), (4, 0x3A), (5, 0xBA), (6, 0x02)] =
      Machine.outputs (fun shift i => Stock.scan shift i.2) (0 : UInt32)
        [(0, 0x2A), (1, 0x1E), (2, 0x9E), (3, 0xAA), (4, 0x3A), (5, 0xBA), (6, 0x02)] :=
  (outputs_helpful_eq_iff _ (by decide)).mpr (by decide)

/-- CAPSLOCK, then the `A` key: the stock driver returns `A`, the Helpful driver `a`. -/
theorem outputs_helpful_capslock :
    ChordFree [(0, 0x3A), (0, 0x1E)] ∧
      Machine.outputs scan boot [(0, 0x3A), (0, 0x1E)] = [0, 0x61] ∧
      Machine.outputs (fun shift i => Stock.scan shift i.2) (0 : UInt32)
        [(0, 0x3A), ((0 : UInt32), 0x1E)] = [0, 0x41] := by
  decide

end Helpful
end Kbd
end Xv6
