import Xv6.Console.HelpfulRun
import Xv6.Kbd.HelpfulModes

/-!
# Pressing a mode chord twice

The Helpful driver and the Helpful console together, one interrupt for each byte.  A chord
answers with 0 or with a code of its own, which the console notes and does not type; only
Ctrl+E goes on to the tables.  Its first press is enciphered and noted, its second is the
control character 5, which the console types.

* `Terminal`, `kbdintr` — the two components, and what a byte does to them.
* `Chord` — the mode chords; `Hands` — the bytes that hold and release keys.
* `scan_hands`, `scan_chord` — the codes of both.
* `run_hands` — the ring while keys are held and released.
* `toggle_iff` — **the states in which pressing a chord twice leaves the ring as it was.**
-/

namespace Xv6
namespace Kbd
namespace Helpful

/-! ### The driver -/

/-- The mode chords. -/
inductive Chord
  | pascal | camel | snake | devil | encryption | sticky | dvorak
  deriving DecidableEq

/-- The key of a chord. -/
def Chord.key : Chord → UInt8
  | .pascal => 0x19
  | .camel => 0x2E
  | .snake => 0x1F
  | .devil => 0x20
  | .encryption => 0x12
  | .sticky => 0x1F
  | .dvorak => 0x20

/-- The chord is pressed with Shift. -/
def Chord.shifted : Chord → Bool
  | .pascal | .camel | .snake | .devil => true
  | .encryption | .sticky | .dvorak => false

/-- The modifiers of a chord are down. -/
structure Chord.Held (c : Chord) (w : UInt32) : Prop where
  ctl : has w Mod.ctl = true
  shift : has w Mod.shift = c.shifted
  plain : has w Mod.e0esc = false

/-- A Ctrl, Shift or Alt key goes down, or any key goes up. -/
def Hands (data : UInt8) : Prop :=
  data ∈ [(0x1D : UInt8), 0x2A, 0x36, 0x38] ∨ data &&& 0x80 ≠ 0 ∧ data ≠ 0xE2

/-- The devil mode is on if the chord switched it on, and so is the cipher. -/
structure Switched (c : Chord) (on : Bool) (s : State) : Prop where
  devil : s.devilMode = (on && c == .devil)
  encryption : s.encryptionMode = (on && c == .encryption)

/-- A key without a character in any map. -/
def Nul (d : UInt8) : Prop := normalmap d = 0 ∧ shiftmap d = 0 ∧ ctlmap d = 0

instance (d : UInt8) : Decidable (Nul d) := inferInstanceAs (Decidable (_ ∧ _ ∧ _))

theorem keyChar_nul {d : UInt8} (h : Nul d) (w : UInt32) : keyChar w d = 0 := by
  obtain ⟨hn, hs, hc⟩ := h
  cases hctl : has w Mod.ctl with
  | true => rw [keyChar_of_ctl hctl, hc]; rfl
  | false =>
    rcases keyChar_of_not_ctl hctl d with hchar | hchar
    · rw [hchar, hn]; rfl
    · rw [hchar, hs]; rfl

/-- The code of a key without a character. -/
def nulCode (s : State) : ℤ :=
  if s.devilMode then 2000 else if s.encryptionMode then 1000 else 0

theorem passes_nul (s : State) {d : UInt8} (h : Nul d) : (passes s d 0).2 = nulCode s := by
  unfold nulCode
  cases hdevil : s.devilMode with
  | true =>
    have hkey : ∀ key ∈ [(0x39 : UInt8), 0x0F, 0x0E, 0x1C], (d == key) = false := by
      intro key hkey
      rw [beq_eq_false_iff_ne]
      rintro rfl
      have hmap : ∀ d ∈ [(0x39 : UInt8), 0x0F, 0x0E, 0x1C], normalmap d ≠ 0 := by decide +kernel
      exact hmap d hkey h.1
    have hnul : isLower (0 : UInt8).toUInt32 = false := by decide
    have hswap : swapCase (0 : UInt8).toUInt32 = 0 := by decide
    rw [passes, if_pos hdevil, devil, h.1]
    simp only [hkey 0x39 (by simp), hkey 0x0F (by simp), hkey 0x0E (by simp),
      hkey 0x1C (by simp), hnul, hswap, Bool.and_false, Bool.false_eq_true, if_false, if_true]
    rw [show (0 : UInt8).toUInt32 = 0 by decide, ite_self]
    decide
  | false =>
    cases hcipher : s.encryptionMode with
    | true =>
      rw [passes, hdevil, hcipher]
      show asInt (0 + 1000) = 1000
      decide
    | false =>
      rw [passes_control hdevil hcipher (by decide)]
      decide

theorem translate_nul (s : State) {d : UInt8} (h : Nul d) : (translate s d).2 = nulCode s := by
  rw [translate, keyChar_nul h]
  exact passes_nul _ h

/-- Neither a modifier key nor its `E0`-prefixed sibling has a character. -/
theorem nul_of_mem {data : UInt8} (h : data ∈ [(0x1D : UInt8), 0x2A, 0x36, 0x38]) :
    Nul data ∧ Nul (data ||| 0x80) ∧ data &&& 0x80 = 0 ∧ data ≠ 0x23 := by
  have hall : ∀ d ∈ [(0x1D : UInt8), 0x2A, 0x36, 0x38],
      Nul d ∧ Nul (d ||| 0x80) ∧ d &&& 0x80 = 0 ∧ d ≠ 0x23 := by decide +kernel
  exact hall data h

/-- **The code of a byte that holds or releases a key**, and what it leaves alone. -/
theorem scan_hands {s : State} {data : UInt8} (h : Hands data) (ticks : UInt32) :
    (scan s (ticks, data)).2 = (if data &&& 0x80 = 0 then nulCode s else 0) ∧
      (scan s (ticks, data)).1.devilMode = s.devilMode ∧
      (scan s (ticks, data)).1.encryptionMode = s.encryptionMode := by
  have hframe : ∀ (s : State) d, (translate s d).1.devilMode = s.devilMode ∧
      (translate s d).1.encryptionMode = s.encryptionMode := by
    intro s d
    obtain ⟨sp, nl, up, hd⟩ := translate_frame s d
    rw [hd]
    exact ⟨rfl, rfl⟩
  rcases h with h | ⟨hbreak, hE2⟩
  · obtain ⟨hnul, hnul', hmake, hne⟩ := nul_of_mem h
    have hH : chord s data 0x23 = false := by
      rw [← Bool.not_eq_true]
      exact fun hc => hne (chord_eq_true.mp hc).2.2
    rw [if_pos hmake]
    cases he : has s.shift Mod.e0esc with
    | true =>
      rw [scan_extended hH hmake he, translate_nul _ hnul']
      exact ⟨rfl, hframe _ _⟩
    | false =>
      have hno : ¬ ModeChord s data := by
        intro hc
        have hkeys : ∀ d ∈ [(0x1D : UInt8), 0x2A, 0x36, 0x38],
            d ∉ [(0x19 : UInt8), 0x2E, 0x12, 0x1F, 0x20, 0x39] := by decide +kernel
        exact hkeys data h hc.key
      obtain ⟨sk, ca, l, htick⟩ := s.tick_frame ticks data
      rw [scan_press ⟨hmake, he⟩ hH hno, translate_nul _ hnul, htick]
      exact ⟨rfl, hframe _ _⟩
  · rw [if_neg hbreak]
    rcases eq_or_ne data 0xE0 with rfl | h0
    · rw [scan_escape]
      exact ⟨rfl, rfl, rfl⟩
    · rw [scan_release _ _ h0 hE2 hbreak]
      exact ⟨rfl, rfl, rfl⟩

/-- The codes of a chord: all but the second Ctrl+E are 0 or a code that is not typed. -/
def Chord.codes (c : Chord) (on : Bool) : List ℤ :=
  match c with
  | .pascal | .camel | .snake => [0]
  | .devil => [2000]
  | .encryption => [if on then 5 else 1005]
  | .sticky => [2500, 2501]
  | .dvorak => [2502, 2503]

/-- Ctrl+E goes on to the tables. -/
theorem scan_ctrlE {s : State} (hctl : has s.shift Mod.ctl = true)
    (he : has s.shift Mod.e0esc = false) (hdevil : s.devilMode = false) (ticks : UInt32) :
    (scan s (ticks, 0x12)).2 = (if s.encryptionMode then 5 else 1005) ∧
      (scan s (ticks, 0x12)).1.devilMode = false ∧
      (scan s (ticks, 0x12)).1.encryptionMode = !s.encryptionMode := by
  have hmake : (0x12 : UInt8) &&& 0x80 = 0 := by decide
  have hgo : chords s ticks 0x12 = .go { s with camelCase := false, pascalCase := false,
                                                snakeCase := false,
                                                encryptionMode := !s.encryptionMode } 0x12 := by
    simp [chords, chord, hctl, he, hmake]
  generalize hs' : ({ s with camelCase := false, pascalCase := false, snakeCase := false,
                             encryptionMode := !s.encryptionMode } : State) = s' at hgo
  have hshift : s'.shift = s.shift := by rw [← hs']
  have hdevil' : s'.devilMode = false := by rw [← hs', ← hdevil]
  have hcipher : s'.encryptionMode = !s.encryptionMode := by rw [← hs']
  have hchar : keyChar s.shift 0x12 = 5 := by rw [keyChar_of_ctl hctl]; decide
  obtain ⟨sp, nl, up, hframe⟩ := translate_frame s' 0x12
  have hscan : scan s (ticks, 0x12) = translate s' 0x12 := by rw [scan, kbdgetc, hgo]
  rw [hscan]
  refine ⟨?_, by rw [hframe]; exact hdevil', by rw [hframe]; exact hcipher⟩
  rw [translate, latch_letterKey _ (by decide), State.withShift_self, hshift, hchar]
  cases hon : s.encryptionMode with
  | true =>
    rw [hon] at hcipher
    rw [passes_control hdevil' hcipher (by decide)]
    decide
  | false =>
    rw [hon] at hcipher
    rw [passes, hdevil', hcipher]
    show asInt (5 + 1000) = 1005
    decide

/-- Most chords touch neither the devil mode nor the cipher. -/
theorem Switched.other {c : Chord} {on on' : Bool} {s s' : State} (h : Switched c on s)
    (hc : c ≠ .devil) (hc' : c ≠ .encryption) (hdevil : s'.devilMode = s.devilMode)
    (hcipher : s'.encryptionMode = s.encryptionMode) : Switched c on' s' := by
  have hd : (c == .devil) = false := beq_eq_false_iff_ne.mpr hc
  have he : (c == .encryption) = false := beq_eq_false_iff_ne.mpr hc'
  refine ⟨?_, ?_⟩
  · rw [hdevil, h.devil, hd, Bool.and_false, Bool.and_false]
  · rw [hcipher, h.encryption, he, Bool.and_false, Bool.and_false]

/-- **The press of a chord.** -/
theorem scan_chord {s : State} {c : Chord} {on : Bool} (hheld : c.Held s.shift)
    (hs : Switched c on s) (ticks : UInt32) :
    Switched c (!on) (scan s (ticks, c.key)).1 ∧ (scan s (ticks, c.key)).2 ∈ c.codes on := by
  obtain ⟨hctl, hshift, he⟩ := hheld
  cases c with
  | encryption =>
    have hdevil : s.devilMode = false := hs.devil.trans (Bool.and_false _)
    have hcipher : s.encryptionMode = on := hs.encryption.trans (Bool.and_true _)
    obtain ⟨hcode, hdevil', hcipher'⟩ := scan_ctrlE hctl he hdevil ticks
    rw [hcipher] at hcode hcipher'
    refine ⟨⟨?_, ?_⟩, ?_⟩
    · rw [Chord.key, hdevil']
      exact (Bool.and_false _).symm
    · rw [Chord.key, hcipher']
      exact (Bool.and_true _).symm
    · rw [Chord.key, hcode, Chord.codes]
      exact List.mem_singleton_self _
  | pascal =>
    rw [Chord.key, scan_pascal (chord_eq_true.mpr ⟨hctl, hshift, rfl⟩) he]
    exact ⟨hs.other (by decide) (by decide) rfl rfl, List.mem_singleton_self _⟩
  | camel =>
    rw [Chord.key, scan_camel (chord_eq_true.mpr ⟨hctl, hshift, rfl⟩) he]
    exact ⟨hs.other (by decide) (by decide) rfl rfl, List.mem_singleton_self _⟩
  | snake =>
    have hshift' : has s.shift Mod.shift = true := hshift
    have hmake : (0x1F : UInt8) &&& 0x80 = 0 := by decide
    have hret : chords s ticks 0x1F =
        .ret { s with snakeCase := !s.snakeCase, pascalCase := false, camelCase := false } 0 := by
      simp [chords, chord, hctl, hshift', he, hmake]
    rw [scan, kbdgetc, Chord.key, hret]
    exact ⟨hs.other (by decide) (by decide) rfl rfl, by simp [Chord.codes]⟩
  | devil =>
    have hshift' : has s.shift Mod.shift = true := hshift
    have hmake : (0x20 : UInt8) &&& 0x80 = 0 := by decide
    have hret : chords s ticks 0x20 = .ret { s with snakeCase := false, pascalCase := false,
                                                    camelCase := false, encryptionMode := false,
                                                    upKeyUsed := false, devilMode := !s.devilMode,
                                                    aMode := !s.aMode } 2000 := by
      simp [chords, chord, hctl, hshift', he, hmake]
    rw [scan, kbdgetc, Chord.key, hret]
    refine ⟨⟨?_, by simp⟩, by simp [Chord.codes]⟩
    show (!s.devilMode) = _
    rw [hs.devil]
    simp
  | sticky =>
    have hshift' : has s.shift Mod.shift = false := hshift
    have hmake : (0x1F : UInt8) &&& 0x80 = 0 := by decide
    have hret : chords s ticks 0x1F = .ret { s with skEnabled := !s.skEnabled }
        (if s.skEnabled then 2501 else 2500) := by
      simp [chords, chord, hctl, hshift', he, hmake]
    rw [scan, kbdgetc, Chord.key, hret]
    refine ⟨hs.other (by decide) (by decide) rfl rfl, ?_⟩
    cases s.skEnabled <;> simp [Chord.codes]
  | dvorak =>
    have hshift' : has s.shift Mod.shift = false := hshift
    have hmake : (0x20 : UInt8) &&& 0x80 = 0 := by decide
    have hret : chords s ticks 0x20 = .ret { s with isDvorak := !s.isDvorak }
        (if s.isDvorak then 2503 else 2502) := by
      simp [chords, chord, hctl, hshift', he, hmake]
    rw [scan, kbdgetc, Chord.key, hret]
    refine ⟨hs.other (by decide) (by decide) rfl rfl, ?_⟩
    cases s.isDvorak <;> simp [Chord.codes]

end Helpful
end Kbd
end Xv6

namespace Xv6
namespace Console
namespace Helpful

open Counter
open Kbd (has)
open Kbd.Helpful (Chord Hands Switched)

/-! ### The console -/

variable {m : Memory} {g : Input} {v : Vars}

theorem consoleintr_singleton (m : Memory) (g : Input) (v : Vars) (c : ℕ) :
    consoleintr m g v [c] = (code m ⟨g, v, {}⟩ c).bind fun p =>
      (deferred m p.1).map fun q => (q.1, q.2.1, p.2 ++ q.2.2) := by
  rw [consoleintr, Machine.run]
  cases code m ⟨g, v, {}⟩ c with
  | none => rfl
  | some p => simp

theorem consoleintr_nul (m : Memory) (g : Input) (v : Vars) :
    consoleintr m g v [0] = some (g, v, []) := by
  rw [consoleintr_singleton]
  rfl

/-- The codes of the chords that are not typed leave the ring alone. -/
theorem consoleintr_chord {c : ℕ} (hc : c ∈ [2000, 2500, 2501, 2502, 2503]) :
    ∃ v' out, consoleintr m g v [c] = some (g, v', out) ∧ v'.trackEnigma = v.trackEnigma := by
  simp only [List.mem_cons, List.not_mem_nil, or_false] at hc
  rw [consoleintr_singleton]
  rcases hc with rfl | rfl | rfl | rfl | rfl
  · exact ⟨{ v with frustrationLevel := v.frustrationLevel + 1 }, _, rfl, rfl⟩
  · exact ⟨v, _, rfl, rfl⟩
  · exact ⟨v, _, rfl, rfl⟩
  · exact ⟨v, _, rfl, rfl⟩
  · exact ⟨v, _, rfl, rfl⟩

/-- An enciphered code is recorded in `previous_line`, if that has room. -/
theorem consoleintr_cipher {c : ℕ} (hc : 1000 ≤ c ∧ c < 2000) (hc' : c ≠ 1010) :
    (v.trackEnigma < 128 → ∃ v' out, consoleintr m g v [c] = some (g, v', out) ∧
        v'.trackEnigma = v.trackEnigma + 1) ∧
      (128 ≤ v.trackEnigma → consoleintr m g v [c] = none) := by
  have hnl : c - 1000 ≠ 0x0A := by omega
  rw [consoleintr_singleton, code, if_pos hc]
  constructor
  · intro hroom
    dsimp only
    rw [dif_pos hroom]
    dsimp only [Option.bind_some, deferred, encrypt]
    simp only [Bool.false_eq_true, if_false, if_true, if_neg hnl]
    split
    · exact ⟨_, _, rfl, rfl⟩
    · exact ⟨_, _, rfl, rfl⟩
  · intro hfull
    dsimp only
    rw [dif_neg (Nat.not_lt.mpr hfull)]
    rfl

/-- The control character 5 is typed unless the ring is full. -/
theorem consoleintr_five :
    (128 ≤ dist g.r g.e → consoleintr m g v [5] = some (g, v, [])) ∧
      (dist g.r g.e < 128 → ∀ q, consoleintr m g v [5] = some q → q.1.e = g.e + 1) := by
  have hcode : code m ⟨g, v, {}⟩ 5 = (typed m g v 5).map fun q =>
      (({ input := q.1, vars := q.2.1 } : State), q.2.2) := by
    rw [code_edit (by decide) (by decide)]
    rfl
  rw [consoleintr_singleton, hcode]
  constructor
  · intro hfull
    rw [typed, if_neg (by omega)]
    rfl
  · intro hroom q hq
    obtain ⟨p, hp, hq⟩ := Option.bind_eq_some_iff.mp hq
    obtain ⟨p', hp', rfl⟩ := Option.map_eq_some_iff.mp hp
    obtain ⟨q', hq', rfl⟩ := Option.map_eq_some_iff.mp hq
    have hidle : q' = (p'.1, p'.2.1, []) := (Option.some_injective _ hq').symm
    have hinsert : p'.1 = (insert g 5).1 := congrArg Prod.fst (typed_insert hp')
    rw [hidle]
    dsimp only
    rw [hinsert, insert_of_accept (by decide) hroom]
    dsimp only
    split
    · rfl
    · rfl

/-! ### The two together -/

/-- The driver and the console. -/
structure Terminal where
  kbd : Kbd.Helpful.State
  input : Input
  vars : Vars

/-- `kbdintr` on one byte, with the tick at which it arrives: `consoleintr` drains the code of
the byte, and finds no further byte. -/
def kbdintr (m : Memory) (s : Terminal) (i : UInt32 × UInt8) : Option (Terminal × List Out) :=
  let p := Kbd.Helpful.kbdgetc s.kbd i.1 (some i.2)
  (consoleintr m s.input s.vars (if 0 ≤ p.2 then [p.2.toNat] else [])).map fun q =>
    (⟨p.1, q.1, q.2.1⟩, q.2.2)

/-- The bytes between the reader and the end of the line, and the three indices, are the same. -/
structure SameRing (g g' : Input) : Prop where
  r : g'.r = g.r
  w : g'.w = g.w
  e : g'.e = g.e
  bytes : segment g'.get g.r (dist g.r g.e) = segment g.get g.r (dist g.r g.e)

theorem SameRing.of_eq {g g' : Input} (h : g' = g) : SameRing g g' := by
  subst h
  exact ⟨rfl, rfl, rfl, rfl⟩

/-- How many keys a stream presses. -/
def presses (stream : List (UInt32 × UInt8)) : ℕ := stream.countP fun i => i.2 &&& 0x80 = 0

/-- How many codes of a stream the cipher records. -/
def load (c : Chord) (on : Bool) (stream : List (UInt32 × UInt8)) : ℕ :=
  if on && c == .encryption then presses stream else 0

theorem load_cons (c : Chord) (on : Bool) (i : UInt32 × UInt8) (stream : List (UInt32 × UInt8)) :
    load c on (i :: stream) = load c on [i] + load c on stream := by
  unfold load
  split
  · simp only [presses, List.countP_cons, List.countP_nil]
    omega
  · rfl

/-- A byte with a code that is not typed and not recorded. -/
theorem kbdintr_quiet {s : Terminal} {i : UInt32 × UInt8} {code : ℕ}
    (hcode : (Kbd.Helpful.scan s.kbd i).2 = code)
    (hc : code ∈ [0, 2000, 2500, 2501, 2502, 2503]) :
    ∃ v' out, kbdintr m s i = some (⟨(Kbd.Helpful.scan s.kbd i).1, s.input, v'⟩, out) ∧
      v'.trackEnigma = s.vars.trackEnigma := by
  rw [Kbd.Helpful.scan] at hcode ⊢
  rw [kbdintr, hcode, if_pos (by omega), Int.toNat_natCast]
  rcases List.mem_cons.mp hc with rfl | hc
  · exact ⟨s.vars, [], by rw [consoleintr_nul]; rfl, rfl⟩
  · obtain ⟨v', out, hv, htrack⟩ := consoleintr_chord (m := m) (g := s.input) (v := s.vars) hc
    exact ⟨v', out, by rw [hv]; rfl, htrack⟩

/-- A byte with an enciphered code. -/
theorem kbdintr_cipher {s : Terminal} {i : UInt32 × UInt8} {code : ℕ}
    (hcode : (Kbd.Helpful.scan s.kbd i).2 = code) (hc : 1000 ≤ code ∧ code < 2000)
    (hc' : code ≠ 1010) :
    (s.vars.trackEnigma < 128 →
        ∃ v' out, kbdintr m s i = some (⟨(Kbd.Helpful.scan s.kbd i).1, s.input, v'⟩, out) ∧
          v'.trackEnigma = s.vars.trackEnigma + 1) ∧
      (128 ≤ s.vars.trackEnigma → kbdintr m s i = none) := by
  obtain ⟨hroom, hfull⟩ := consoleintr_cipher (m := m) (g := s.input) (v := s.vars) hc hc'
  rw [Kbd.Helpful.scan] at hcode ⊢
  rw [kbdintr, hcode, if_pos (by omega), Int.toNat_natCast]
  constructor
  · intro h
    obtain ⟨v', out, hv, htrack⟩ := hroom h
    exact ⟨v', out, by rw [hv]; rfl, htrack⟩
  · intro h
    rw [hfull h]
    rfl

/-- A byte that holds or releases a key is recorded, or has a code that the ring does not see. -/
theorem hands_code {c : Chord} {on : Bool} {s : Kbd.Helpful.State} {i : UInt32 × UInt8}
    (hi : Hands i.2) (hs : Switched c on s) :
    (load c on [i] = 0 ∧ ∃ code : ℕ, (Kbd.Helpful.scan s i).2 = code ∧
        code ∈ [0, 2000, 2500, 2501, 2502, 2503]) ∨
      (load c on [i] = 1 ∧ (Kbd.Helpful.scan s i).2 = (1000 : ℕ)) := by
  obtain ⟨hcode, -, -⟩ := Kbd.Helpful.scan_hands (s := s) hi i.1
  have hcode' : (Kbd.Helpful.scan s i).2 =
      if i.2 &&& 0x80 = 0 then Kbd.Helpful.nulCode s else 0 := hcode
  rw [hcode', Kbd.Helpful.nulCode, hs.devil, hs.encryption, load, presses, List.countP_singleton]
  by_cases hmake : i.2 &&& 0x80 = 0
  · rw [if_pos hmake, if_pos (decide_eq_true hmake)]
    cases h : (on && c == .encryption) with
    | true =>
      -- the cipher is on, and the devil mode is not
      obtain ⟨rfl, hc⟩ := (Bool.and_eq_true _ _).mp h |>.imp_right beq_iff_eq.mp
      subst hc
      exact .inr ⟨rfl, rfl⟩
    | false =>
      refine .inl ⟨rfl, ?_⟩
      cases on && c == .devil with
      | true => exact ⟨2000, rfl, by decide⟩
      | false => exact ⟨0, rfl, by decide⟩
  · rw [if_neg hmake, decide_eq_false hmake]
    exact .inl ⟨ite_self 0, 0, rfl, by decide⟩

/-- **Holding and releasing keys**: the ring stays as it is, and under the cipher each key that
goes down is recorded in `previous_line`. -/
theorem run_hands (m : Memory) (c : Chord) (on : Bool) :
    ∀ (stream : List (UInt32 × UInt8)) (s : Terminal), (∀ i ∈ stream, Hands i.2) →
      Switched c on s.kbd →
      (load c on stream = 0 ∨ s.vars.trackEnigma + load c on stream ≤ 128 →
        ∃ r, Machine.run (kbdintr m) s stream = some r ∧
          r.1.kbd = Machine.final Kbd.Helpful.scan s.kbd stream ∧
          Switched c on r.1.kbd ∧ r.1.input = s.input ∧
          r.1.vars.trackEnigma = s.vars.trackEnigma + load c on stream) ∧
      (0 < load c on stream → 128 < s.vars.trackEnigma + load c on stream →
        Machine.run (kbdintr m) s stream = none) := by
  intro stream
  induction stream with
  | nil =>
    intro s _ hs
    refine ⟨fun _ => ⟨(s, []), rfl, rfl, hs, rfl, ?_⟩, fun h => ?_⟩
    · simp [load, presses]
    · simp [load, presses] at h
  | cons i stream ih =>
    intro s hstream hs
    rw [List.forall_mem_cons] at hstream
    obtain ⟨hi, hstream⟩ := hstream
    obtain ⟨-, hdevil, hcipher⟩ := Kbd.Helpful.scan_hands (s := s.kbd) hi i.1
    have hs' : Switched c on (Kbd.Helpful.scan s.kbd i).1 :=
      ⟨hdevil.trans hs.devil, hcipher.trans hs.encryption⟩
    rw [load_cons]
    -- what follows a byte that is handled
    have hrest : ∀ {v' : Vars} {out : List Out},
        kbdintr m s i = some (⟨(Kbd.Helpful.scan s.kbd i).1, s.input, v'⟩, out) →
        v'.trackEnigma = s.vars.trackEnigma + load c on [i] →
        (load c on stream = 0 ∨ v'.trackEnigma + load c on stream ≤ 128 →
          ∃ r, Machine.run (kbdintr m) s (i :: stream) = some r ∧
            r.1.kbd = Machine.final Kbd.Helpful.scan s.kbd (i :: stream) ∧
            Switched c on r.1.kbd ∧ r.1.input = s.input ∧
            r.1.vars.trackEnigma = s.vars.trackEnigma + (load c on [i] + load c on stream)) ∧
        (0 < load c on stream → 128 < v'.trackEnigma + load c on stream →
          Machine.run (kbdintr m) s (i :: stream) = none) := by
      intro v' out hv htrack
      have hcons : Machine.run (kbdintr m) s (i :: stream) =
          (Machine.run (kbdintr m) ⟨(Kbd.Helpful.scan s.kbd i).1, s.input, v'⟩ stream).map
            fun q => (q.1, out :: q.2) := by
        rw [Machine.run, hv, Option.bind_some]
      obtain ⟨hdef, hundef⟩ := ih ⟨(Kbd.Helpful.scan s.kbd i).1, s.input, v'⟩ hstream hs'
      constructor
      · intro h
        obtain ⟨r, hr, hkbd, hr', hinput, htrack'⟩ := hdef h
        refine ⟨(r.1, out :: r.2), by rw [hcons, hr]; rfl, hkbd, hr', hinput, ?_⟩
        rw [htrack', htrack, Nat.add_assoc]
      · intro hpos h
        rw [hcons, hundef hpos h]
        rfl
    rcases hands_code hi hs with ⟨hload, code, hcode, hc⟩ | ⟨hload, hcode⟩
    · obtain ⟨v', out, hv, htrack⟩ := kbdintr_quiet (m := m) hcode hc
      obtain ⟨hdef, hundef⟩ := hrest hv (by omega)
      exact ⟨fun h => hdef (by omega), fun h h' => hundef (by omega) (by omega)⟩
    · obtain ⟨hroom, hfull⟩ := kbdintr_cipher (m := m) hcode (by omega) (by omega)
      rcases Nat.lt_or_ge s.vars.trackEnigma 128 with hlt | hge
      · obtain ⟨v', out, hv, htrack⟩ := hroom hlt
        obtain ⟨hdef, hundef⟩ := hrest hv (by omega)
        exact ⟨fun h => hdef (by omega), fun h h' => hundef (by omega) (by omega)⟩
      · refine ⟨fun h => absurd h (by omega), fun _ _ => ?_⟩
        rw [Machine.run, hfull hge]
        rfl

/-! ### Pressing a chord twice -/

theorem run_cons_of_step {s s' : Terminal} {i : UInt32 × UInt8} {out : List Out}
    (h : kbdintr m s i = some (s', out)) (stream : List (UInt32 × UInt8)) :
    Machine.run (kbdintr m) s (i :: stream) =
      (Machine.run (kbdintr m) s' stream).map fun q => (q.1, out :: q.2) := by
  rw [Machine.run, h, Option.bind_some]

theorem run_append_of_run {s : Terminal} {stream : List (UInt32 × UInt8)}
    {r : Terminal × List (List Out)} (h : Machine.run (kbdintr m) s stream = some r)
    (rest : List (UInt32 × UInt8)) :
    Machine.run (kbdintr m) s (stream ++ rest) =
      (Machine.run (kbdintr m) r.1 rest).map fun q => (q.1, r.2 ++ q.2) := by
  rw [Machine.run_append, h, Option.bind_some]

/-- The codes of a chord other than Ctrl+E. -/
theorem quiet_of_mem_codes {c : Chord} {on : Bool} (hc : c ≠ .encryption) {x : ℤ}
    (hx : x ∈ c.codes on) :
    ∃ code : ℕ, x = code ∧ code ∈ [0, 2000, 2500, 2501, 2502, 2503] := by
  cases c with
  | encryption => exact absurd rfl hc
  | pascal => exact ⟨0, List.mem_singleton.mp hx, by decide⟩
  | camel => exact ⟨0, List.mem_singleton.mp hx, by decide⟩
  | snake => exact ⟨0, List.mem_singleton.mp hx, by decide⟩
  | devil => exact ⟨2000, List.mem_singleton.mp hx, by decide⟩
  | sticky =>
    rcases List.mem_pair.mp hx with h | h
    · exact ⟨2500, h, by decide⟩
    · exact ⟨2501, h, by decide⟩
  | dvorak =>
    rcases List.mem_pair.mp hx with h | h
    · exact ⟨2502, h, by decide⟩
    · exact ⟨2503, h, by decide⟩

/-- A chord other than Ctrl+E, pressed twice. -/
theorem toggle_quiet {c : Chord} (hc : c ≠ .encryption) {s : Terminal}
    (hs : Switched c false s.kbd) {mid : List (UInt32 × UInt8)} {t₁ t₂ : UInt32}
    (hmid : ∀ i ∈ mid, Hands i.2) (h₁ : c.Held s.kbd.shift)
    (h₂ : c.Held (Machine.final Kbd.Helpful.scan s.kbd ((t₁, c.key) :: mid)).shift) :
    ∃ r, Machine.run (kbdintr m) s ((t₁, c.key) :: (mid ++ [(t₂, c.key)])) = some r ∧
      r.1.input = s.input := by
  have hload : load c true mid = 0 := by
    rw [load, beq_eq_false_iff_ne.mpr hc]
    rfl
  obtain ⟨hs₁, hmem₁⟩ := Kbd.Helpful.scan_chord h₁ hs t₁
  obtain ⟨code₁, hcode₁, hquiet₁⟩ := quiet_of_mem_codes hc hmem₁
  obtain ⟨v₁, out₁, hstep₁, -⟩ := kbdintr_quiet (m := m) hcode₁ hquiet₁
  obtain ⟨r₂, hrun₂, hkbd₂, hs₂, hinput₂, -⟩ :=
    (run_hands m c true mid ⟨_, s.input, v₁⟩ hmid hs₁).1 (.inl hload)
  have h₂' : c.Held r₂.1.kbd.shift := by
    rw [hkbd₂]
    exact h₂
  obtain ⟨-, hmem₃⟩ := Kbd.Helpful.scan_chord h₂' hs₂ t₂
  obtain ⟨code₃, hcode₃, hquiet₃⟩ := quiet_of_mem_codes hc hmem₃
  obtain ⟨v₃, out₃, hstep₃, -⟩ := kbdintr_quiet (m := m) hcode₃ hquiet₃
  have hrun : Machine.run (kbdintr m) s ((t₁, c.key) :: (mid ++ [(t₂, c.key)])) =
      some (⟨(Kbd.Helpful.scan r₂.1.kbd (t₂, c.key)).1, r₂.1.input, v₃⟩,
        out₁ :: (r₂.2 ++ [out₃])) := by
    rw [run_cons_of_step hstep₁, run_append_of_run hrun₂, run_cons_of_step hstep₃]
    rfl
  exact ⟨_, hrun, hinput₂⟩

/-- Ctrl+E, pressed twice. -/
theorem toggle_encryption_iff {s : Terminal} (hs : Switched .encryption false s.kbd)
    {mid : List (UInt32 × UInt8)} {t₁ t₂ : UInt32} (hmid : ∀ i ∈ mid, Hands i.2)
    (h₁ : Chord.encryption.Held s.kbd.shift)
    (h₂ : Chord.encryption.Held
      (Machine.final Kbd.Helpful.scan s.kbd ((t₁, Chord.encryption.key) :: mid)).shift) :
    (∃ r, Machine.run (kbdintr m) s
        ((t₁, Chord.encryption.key) :: (mid ++ [(t₂, Chord.encryption.key)])) = some r ∧
        SameRing s.input r.1.input) ↔
      128 ≤ dist s.input.r s.input.e ∧ s.vars.trackEnigma + 1 + presses mid ≤ 128 := by
  have hload : load .encryption true mid = presses mid := rfl
  obtain ⟨hs₁, hmem₁⟩ := Kbd.Helpful.scan_chord h₁ hs t₁
  have hcode₁ : (Kbd.Helpful.scan s.kbd (t₁, Chord.encryption.key)).2 = (1005 : ℕ) :=
    List.mem_singleton.mp hmem₁
  obtain ⟨hroom₁, hfull₁⟩ := kbdintr_cipher (m := m) hcode₁ (by omega) (by omega)
  -- the first press is recorded, and so are the keys that go down behind it
  rcases Nat.lt_or_ge s.vars.trackEnigma 128 with hlt | hge
  rotate_left
  · refine iff_of_false ?_ (by omega)
    rintro ⟨r, hr, -⟩
    rw [Machine.run, hfull₁ hge] at hr
    contradiction
  obtain ⟨v₁, out₁, hstep₁, htrack₁⟩ := hroom₁ hlt
  obtain ⟨hdef, hundef⟩ := run_hands m .encryption true mid ⟨_, s.input, v₁⟩ hmid hs₁
  rw [hload] at hdef hundef
  by_cases hfits : presses mid = 0 ∨ v₁.trackEnigma + presses mid ≤ 128
  rotate_left
  · refine iff_of_false ?_ (by omega)
    rintro ⟨r, hr, -⟩
    rw [run_cons_of_step hstep₁, Machine.run_append, hundef (by omega) (by dsimp only; omega)] at hr
    contradiction
  obtain ⟨r₂, hrun₂, hkbd₂, hs₂, hinput₂, -⟩ := hdef hfits
  -- the second press is the control character 5
  have h₂' : Chord.encryption.Held r₂.1.kbd.shift := by
    rw [hkbd₂]
    exact h₂
  obtain ⟨-, hmem₃⟩ := Kbd.Helpful.scan_chord h₂' hs₂ t₂
  have hcode₃ : (Kbd.Helpful.scan r₂.1.kbd (t₂, Chord.encryption.key)).2 = (5 : ℕ) :=
    List.mem_singleton.mp hmem₃
  have hstep₃ : kbdintr m r₂.1 (t₂, Chord.encryption.key) =
      (consoleintr m s.input r₂.1.vars [5]).map fun q =>
        (⟨(Kbd.Helpful.scan r₂.1.kbd (t₂, Chord.encryption.key)).1, q.1, q.2.1⟩, q.2.2) := by
    rw [Kbd.Helpful.scan] at hcode₃ ⊢
    rw [kbdintr, hcode₃, hinput₂]
    rfl
  obtain ⟨hsame, htyped⟩ := consoleintr_five (m := m) (g := s.input) (v := r₂.1.vars)
  have hrun : Machine.run (kbdintr m) s
        ((t₁, Chord.encryption.key) :: (mid ++ [(t₂, Chord.encryption.key)])) =
      (Machine.run (kbdintr m) r₂.1 [(t₂, Chord.encryption.key)]).map
        fun q => (q.1, out₁ :: (r₂.2 ++ q.2)) := by
    rw [run_cons_of_step hstep₁, run_append_of_run hrun₂, Option.map_map]
    rfl
  rw [hrun]
  rcases Nat.lt_or_ge (dist s.input.r s.input.e) 128 with hroom | hfull
  · refine iff_of_false ?_ (by omega)
    rintro ⟨r, hr, hring⟩
    obtain ⟨q, hq, rfl⟩ := Option.map_eq_some_iff.mp hr
    obtain ⟨p, q', hp, hq', rfl⟩ := Machine.run_cons_eq_some.mp hq
    cases hq'
    rw [hstep₃] at hp
    obtain ⟨p', hp', rfl⟩ := Option.map_eq_some_iff.mp hp
    have he : s.input.e + 1 = s.input.e := (htyped hroom p' hp').symm.trans hring.e
    simp at he
  · refine iff_of_true ?_ ⟨hfull, by omega⟩
    have hlast : Machine.run (kbdintr m) r₂.1 [(t₂, Chord.encryption.key)] =
        some (⟨(Kbd.Helpful.scan r₂.1.kbd (t₂, Chord.encryption.key)).1, s.input, r₂.1.vars⟩,
          [[]]) := by
      rw [Machine.run, hstep₃, hsame hfull]
      rfl
    rw [hlast]
    exact ⟨_, rfl, .of_eq rfl⟩

/-- **The states in which pressing a chord twice leaves the ring as it was**: all of them, for
a chord other than Ctrl+E; for Ctrl+E those with a full ring, if `previous_line` has room for
the keys that go down in between. -/
theorem toggle_iff (m : Memory) (c : Chord) (s : Terminal) (hidle : Kbd.Helpful.Idle s.kbd)
    (pre mid : List (UInt32 × UInt8)) (t₁ t₂ : UInt32) (hpre : ∀ i ∈ pre, Hands i.2)
    (hmid : ∀ i ∈ mid, Hands i.2)
    (h₁ : c.Held (Machine.final Kbd.Helpful.scan s.kbd pre).shift)
    (h₂ : c.Held (Machine.final Kbd.Helpful.scan s.kbd (pre ++ (t₁, c.key) :: mid)).shift) :
    (∃ r, Machine.run (kbdintr m) s (pre ++ (t₁, c.key) :: (mid ++ [(t₂, c.key)])) = some r ∧
        SameRing s.input r.1.input) ↔
      (c = .encryption →
        128 ≤ dist s.input.r s.input.e ∧ s.vars.trackEnigma + 1 + presses mid ≤ 128) := by
  have hs : Switched c false s.kbd := ⟨hidle.devilMode, hidle.encryptionMode⟩
  obtain ⟨r₀, hrun₀, hkbd₀, hs₀, hinput₀, htrack₀⟩ :=
    (run_hands m c false pre s hpre hs).1 (.inl rfl)
  have hfinal : Machine.final Kbd.Helpful.scan s.kbd (pre ++ (t₁, c.key) :: mid) =
      Machine.final Kbd.Helpful.scan r₀.1.kbd ((t₁, c.key) :: mid) := by
    rw [Machine.final_append, hkbd₀]
  rw [← hkbd₀] at h₁
  rw [hfinal] at h₂
  rw [run_append_of_run hrun₀, ← hinput₀]
  have htrack : r₀.1.vars.trackEnigma = s.vars.trackEnigma := htrack₀
  rw [← htrack]
  -- the keys held before the first press change nothing
  have hstart : (∃ r, (Machine.run (kbdintr m) r₀.1
          ((t₁, c.key) :: (mid ++ [(t₂, c.key)]))).map (fun q => (q.1, r₀.2 ++ q.2)) = some r ∧
        SameRing r₀.1.input r.1.input) ↔
      ∃ r, Machine.run (kbdintr m) r₀.1 ((t₁, c.key) :: (mid ++ [(t₂, c.key)])) = some r ∧
        SameRing r₀.1.input r.1.input := by
    constructor
    · rintro ⟨r, hr, hring⟩
      obtain ⟨q, hq, rfl⟩ := Option.map_eq_some_iff.mp hr
      exact ⟨q, hq, hring⟩
    · rintro ⟨q, hq, hring⟩
      exact ⟨_, Option.map_eq_some_iff.mpr ⟨q, hq, rfl⟩, hring⟩
  rw [hstart]
  by_cases hc : c = .encryption
  · subst hc
    rw [toggle_encryption_iff hs₀ hmid h₁ h₂]
    exact ⟨fun h _ => h, fun h => h rfl⟩
  · obtain ⟨r, hr, hring⟩ := toggle_quiet hc hs₀ hmid h₁ h₂
    exact iff_of_true ⟨r, hr, .of_eq hring⟩ fun h => absurd h hc

/-- The rule at Ctrl+S, pressed twice at boot while Ctrl is held. -/
theorem toggle_sticky :
    ∃ r, Machine.run (kbdintr .zero) ⟨Kbd.Helpful.boot, Input.boot, Vars.boot⟩
        ([(0, 0x1D)] ++ (1, 0x1F) :: ([(2, 0x9F)] ++ [(3, 0x1F)])) = some r ∧
      SameRing Input.boot r.1.input :=
  (toggle_iff .zero .sticky ⟨Kbd.Helpful.boot, Input.boot, Vars.boot⟩
    ⟨rfl, rfl, rfl, rfl, rfl, rfl, rfl⟩ [(0, 0x1D)] [(2, 0x9F)] 1 3
    (by simp [Hands]) (by rintro i hi; rw [List.mem_singleton.mp hi]; exact .inr (by decide))
    ⟨by decide, by decide, by decide⟩ ⟨by decide, by decide, by decide⟩).mpr (by decide)

/-- Ctrl+E, pressed twice at boot while Ctrl is held, types the control character 5. -/
theorem not_toggle_ctrlE :
    (Machine.run (kbdintr .zero) ⟨Kbd.Helpful.boot, Input.boot, Vars.boot⟩
      [(0, 0x1D), (1, 0x12), (2, 0x92), (3, 0x12)]).map (fun r => (r.1.input.e, r.1.input.line)) =
        some (1, [5]) ∧
      (Input.boot.e, Input.boot.line) = (0, []) := by
  decide +kernel

end Helpful
end Console
end Xv6
