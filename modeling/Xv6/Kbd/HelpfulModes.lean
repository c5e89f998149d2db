import Xv6.Kbd.Helpful
import Xv6.Kbd.ShiftWord

/-!
# The modes of the Helpful driver

What one byte can do to the Helpful driver, branch by branch, and which of its modes can be on
together.  A case chord switches the other two case modes off, Ctrl+E switches all three off,
and the devil chord the cipher as well; but no chord switches the devil mode off except its
own and the reset, and none of the case chords switches the cipher off.

* `Branch`, `chords_branch` — **the branches of the chain**, each with its guard.
* `passes_frame` — the passes change `space_pressed`, `new_line_pressed` and `up_key_used`.
* `exclusive_iff` — **the streams along which the modes exclude each other.**
-/

namespace Xv6
namespace Kbd
namespace Helpful

/-! ### The branches of the chain -/

/-- The press of a key without an `E0` prefix. -/
structure Press (s : State) (data : UInt8) : Prop where
  make : data &&& 0x80 = 0
  plain : has s.shift Mod.e0esc = false

/-- A mode chord, or the reset chord: the key is pressed while its modifiers are held. -/
def ModeChord (s : State) (data : UInt8) : Prop :=
  has s.shift Mod.e0esc = false ∧
    (chord s data 0x19 = true ∨ chord s data 0x2E = true ∨
      has s.shift Mod.ctl = true ∧ data ∈ [(0x12 : UInt8), 0x1F, 0x20] ∨
      chord s data 0x39 = true ∧ has s.shift Mod.alt = true)

instance (s : State) (data : UInt8) : Decidable (ModeChord s data) :=
  inferInstanceAs (Decidable (_ ∧ _))

/-- The state that the reset chord leaves. -/
def State.reset (s : State) : State :=
  { s with pascalCase := false, camelCase := false, snakeCase := false, devilMode := false,
           aMode := false, skEnabled := false, isDvorak := false, upKeyUsed := false,
           newLinePressed := false, encryptionMode := false }

/-- What the end of the chain does: the timeout of the sticky keys, and the double Shift. -/
def State.tick (s : State) (ticks : UInt32) (data : UInt8) : State :=
  if s.skEnabled && skTq ≤ ticks - s.skTime then { s with skEnabled := false }
  else if s.skEnabled && (data == 0x2A || data == 0x36) then
    { s with capsActive := if s.lastShiftPress ≠ 0 ∧ ticks - s.lastShiftPress < doublePress
               then !s.capsActive else s.capsActive,
             lastShiftPress := ticks }
  else s

theorem State.tick_frame (s : State) (ticks : UInt32) (data : UInt8) :
    ∃ sk ca l, s.tick ticks data =
      { s with skEnabled := sk, capsActive := ca, lastShiftPress := l } := by
  unfold State.tick
  split
  · exact ⟨_, _, _, rfl⟩
  · split
    · exact ⟨_, _, _, rfl⟩
    · exact ⟨_, _, _, rfl⟩

/-- Without the sticky keys the end of the chain does nothing. -/
theorem State.tick_of_off {s : State} (h : s.skEnabled = false) (ticks : UInt32) (data : UInt8) :
    s.tick ticks data = s := by
  rw [State.tick, h]
  rfl

/-- The branches of the chain, with what is known in each. -/
inductive Branch (s : State) (ticks : UInt32) (data : UInt8) : Chain → Prop
  | guide (h : chord s data 0x23 = true) : Branch s ticks data (.ret s 2504)
  | escape (h : data = 0xE0) :
      Branch s ticks data (.ret (s.withShift (s.shift ||| Mod.e0esc)) 0)
  | upAgain (h : data = 0xE2) : Branch s ticks data (.ret s 0)
  | up (h : data = 0xE2) : Branch s ticks data (.ret { s with upKeyUsed := true } 226)
  | release (h0 : data ≠ 0xE0) (h2 : data ≠ 0xE2) (h : data &&& 0x80 ≠ 0) :
      Branch s ticks data (.ret (s.withShift (keyRelease s.shift data)) 0)
  | extended (hH : chord s data 0x23 = false) (h : data &&& 0x80 = 0)
      (he : has s.shift Mod.e0esc = true) :
      Branch s ticks data (.go (s.withShift (s.shift &&& ~~~Mod.e0esc)) (data ||| 0x80))
  | pascal (hp : Press s data) (h : chord s data 0x19 = true) :
      Branch s ticks data (.ret { s with pascalCase := !s.pascalCase, camelCase := false,
                                         snakeCase := false, newLinePressed := true } 0)
  | camel (hp : Press s data) (h : chord s data 0x2E = true) :
      Branch s ticks data (.ret { s with camelCase := !s.camelCase, pascalCase := false,
                                         snakeCase := false } 0)
  | snake (hp : Press s data) (h : chord s data 0x1F = true) :
      Branch s ticks data (.ret { s with snakeCase := !s.snakeCase, pascalCase := false,
                                         camelCase := false } 0)
  | devil (hp : Press s data) (h : chord s data 0x20 = true) :
      Branch s ticks data (.ret { s with snakeCase := false, pascalCase := false,
                                         camelCase := false, encryptionMode := false,
                                         upKeyUsed := false, devilMode := !s.devilMode,
                                         aMode := !s.aMode } 2000)
  | encryption (hp : Press s data) (hctl : has s.shift Mod.ctl = true) (h : data = 0x12) :
      Branch s ticks data (.go { s with camelCase := false, pascalCase := false,
                                        snakeCase := false,
                                        encryptionMode := !s.encryptionMode } data)
  | reset (hp : Press s data) (h : chord s data 0x39 = true)
      (halt : has s.shift Mod.alt = true) : Branch s ticks data (.ret s.reset 0x0A)
  | sticky (hp : Press s data) (hctl : has s.shift Mod.ctl = true)
      (hshift : has s.shift Mod.shift = false) (h : data = 0x1F) :
      Branch s ticks data
        (.ret { s with skEnabled := !s.skEnabled } (if s.skEnabled then 2501 else 2500))
  | dvorak (hp : Press s data) (hctl : has s.shift Mod.ctl = true)
      (hshift : has s.shift Mod.shift = false) (h : data = 0x20) :
      Branch s ticks data
        (.ret { s with isDvorak := !s.isDvorak } (if s.isDvorak then 2503 else 2502))
  | press (hp : Press s data) (hH : chord s data 0x23 = false) (hno : ¬ ModeChord s data) :
      Branch s ticks data (.go (s.tick ticks data) data)

theorem chord_eq_true {s : State} {data key : UInt8} :
    chord s data key = true ↔
      has s.shift Mod.ctl = true ∧ has s.shift Mod.shift = true ∧ data = key := by
  simp only [chord, Bool.and_eq_true, beq_iff_eq, and_assoc]

theorem chords_branch (s : State) (ticks : UInt32) (data : UInt8) :
    Branch s ticks data (chords s ticks data) := by
  unfold chords
  refine iteInduction (fun h => .guide h) fun hH => ?_
  rw [Bool.not_eq_true] at hH
  refine iteInduction (fun h => .escape h) fun h0 => ?_
  refine iteInduction (fun h2 => ?_) fun h2 => ?_
  · exact iteInduction (fun _ => .upAgain h2) fun _ => .up h2
  refine iteInduction (fun h => .release h0 h2 h) fun hmake => ?_
  rw [not_not] at hmake
  refine iteInduction (fun he => .extended hH hmake he) fun he => ?_
  rw [Bool.not_eq_true] at he
  have hp : Press s data := ⟨hmake, he⟩
  refine iteInduction (fun h => .pascal hp h) fun hP => ?_
  refine iteInduction (fun h => .camel hp h) fun hC => ?_
  refine iteInduction (fun h => .snake hp h) fun hS => ?_
  refine iteInduction (fun h => .devil hp h) fun hD => ?_
  refine iteInduction (fun h => ?_) fun hE => ?_
  · rw [Bool.and_eq_true, beq_iff_eq] at h
    exact .encryption hp h.1 h.2
  refine iteInduction (fun h => ?_) fun hR => ?_
  · rw [Bool.and_eq_true] at h
    exact .reset hp h.1 h.2
  refine iteInduction (fun h => ?_) fun hs => ?_
  · rw [Bool.and_eq_true, beq_iff_eq] at h
    refine .sticky hp h.2 ?_ h.1
    rw [← Bool.not_eq_true]
    exact fun hshift => hS (chord_eq_true.mpr ⟨h.2, hshift, h.1⟩)
  refine iteInduction (fun h => ?_) fun hd => ?_
  · rw [Bool.and_eq_true, beq_iff_eq] at h
    refine .dvorak hp h.1 ?_ h.2
    rw [← Bool.not_eq_true]
    exact fun hshift => hD (chord_eq_true.mpr ⟨h.1, hshift, h.2⟩)
  -- the byte is the key of no chord
  have hno : ¬ ModeChord s data := by
    simp only [Bool.and_eq_true, beq_iff_eq, not_and] at hE hR hs hd
    rintro ⟨-, h | h | ⟨hctl, h⟩ | ⟨h, halt⟩⟩
    · exact hP h
    · exact hC h
    · simp only [List.mem_cons, List.not_mem_nil, or_false] at h
      rcases h with h | h | h
      · exact hE hctl h
      · exact hs h hctl
      · exact hd hctl h
    · exact hR h halt
  -- what is left of the chain is `State.tick`
  have hpress : Branch s ticks data (.go (s.tick ticks data) data) := .press hp hH hno
  rw [State.tick, apply_ite (Chain.go · data), apply_ite (Chain.go · data)] at hpress
  exact hpress

theorem ModeChord.of_ctl {s : State} {data : UInt8} (hp : Press s data)
    (hctl : has s.shift Mod.ctl = true) (h : data ∈ [(0x12 : UInt8), 0x1F, 0x20]) :
    ModeChord s data := ⟨hp.plain, .inr (.inr (.inl ⟨hctl, h⟩))⟩

/-- A mode chord is the press of one of six keys. -/
theorem ModeChord.key {s : State} {data : UInt8} (h : ModeChord s data) :
    data ∈ [(0x19 : UInt8), 0x2E, 0x12, 0x1F, 0x20, 0x39] := by
  obtain ⟨-, h | h | ⟨-, h⟩ | ⟨h, -⟩⟩ := h
  · simp [(chord_eq_true.mp h).2.2]
  · simp [(chord_eq_true.mp h).2.2]
  · simp only [List.mem_cons, List.not_mem_nil, or_false] at h ⊢
    tauto
  · simp [(chord_eq_true.mp h).2.2]

theorem ModeChord.press {s : State} {data : UInt8} (h : ModeChord s data) : Press s data := by
  refine ⟨?_, h.1⟩
  have hkey : ∀ d ∈ [(0x19 : UInt8), 0x2E, 0x12, 0x1F, 0x20, 0x39], d &&& 0x80 = 0 := by
    decide +kernel
  exact hkey data h.key

/-- With Ctrl up there is no chord. -/
theorem chord_of_ctl {s : State} (h : has s.shift Mod.ctl = false) (data key : UInt8) :
    chord s data key = false := by
  rw [chord, h, Bool.false_and, Bool.false_and]

theorem not_modeChord_of_ctl {s : State} (h : has s.shift Mod.ctl = false) (data : UInt8) :
    ¬ ModeChord s data := by
  rintro ⟨-, hc | hc | ⟨hc, -⟩ | ⟨hc, -⟩⟩
  · exact absurd ((chord_eq_true.mp hc).1.symm.trans h) (by decide)
  · exact absurd ((chord_eq_true.mp hc).1.symm.trans h) (by decide)
  · exact absurd (hc.symm.trans h) (by decide)
  · exact absurd ((chord_eq_true.mp hc).1.symm.trans h) (by decide)

/-! ### What the passes do -/

theorem toUpper_of_not_isLetter {c : UInt32} (h : isLetter c = false) : toUpper c = c := by
  rw [isLetter, Bool.or_eq_false_iff] at h
  simp [toUpper, h.1]

theorem caseModes_of_not_isLetter (s : State) {c : UInt32} (h : isLetter c = false) :
    caseModes s c = c := by
  rw [isLetter, Bool.or_eq_false_iff] at h
  simp [caseModes, toLower, swapCase, h.1, h.2]

/-- Outside the devil mode and the cipher a control character passes unchanged. -/
theorem passes_control {s : State} (hdevil : s.devilMode = false)
    (hcipher : s.encryptionMode = false) {c : UInt32} (hc : c < 0x20) (data : UInt8) :
    (passes s data c).2 = asInt c := by
  have hletter : isLetter c = false := by
    rw [isLetter, isLower, isUpper]
    grind
  have hspace : (c == 0x20) = false := by
    rw [beq_eq_false_iff_ne]
    exact UInt32.ne_of_lt hc
  have hlow : ¬ (0x20 : UInt32) ≤ c := UInt32.not_le.mpr hc
  rw [passes, hdevil, hcipher]
  simp only [Bool.false_eq_true, if_false, spacePass, newLinePass, dvorakPass, capsPass,
    stickyPass, caseModes_of_not_isLetter s hletter, hspace, Bool.false_and, hlow, decide_false,
    Bool.and_false, swapCase_of_not_isLetter hletter, toUpper_of_not_isLetter hletter, ite_self]

theorem passes_frame (s : State) (data : UInt8) (c : UInt32) :
    ∃ sp nl up, (passes s data c).1 =
      { s with spacePressed := sp, newLinePressed := nl, upKeyUsed := up } := by
  unfold passes
  split
  · exact ⟨_, _, _, rfl⟩
  · split
    · exact ⟨_, _, _, rfl⟩
    · exact ⟨_, _, _, rfl⟩

theorem translate_frame (s : State) (data : UInt8) :
    ∃ sp nl up, (translate s data).1 = { s with
      shift := latch s.shift data, spacePressed := sp, newLinePressed := nl, upKeyUsed := up } := by
  obtain ⟨sp, nl, up, h⟩ :=
    passes_frame (s.withShift (latch s.shift data)) data (keyChar (latch s.shift data) data)
  exact ⟨sp, nl, up, h⟩

/-- The state with which the chain returns or goes on. -/
def Chain.state : Chain → State
  | .ret s _ => s
  | .go s _ => s

/-- What a byte does to a part of the state that the tables and passes leave alone. -/
theorem scan_frame {α : Type*} (f : State → α)
    (hf : ∀ (s : State) x sp nl up,
      f { s with shift := x, spacePressed := sp, newLinePressed := nl, upKeyUsed := up } = f s)
    (s : State) (i : UInt32 × UInt8) : f (scan s i).1 = f (chords s i.1 i.2).state := by
  rw [scan, kbdgetc]
  cases chords s i.1 i.2 with
  | ret s' code => rfl
  | go s' data =>
    obtain ⟨sp, nl, up, h⟩ := translate_frame s' data
    dsimp only [Chain.state]
    rw [h, hf]

/-! ### Single branches -/

/-- A release. -/
theorem scan_release (s : State) (ticks : UInt32) {data : UInt8} (h0 : data ≠ 0xE0)
    (h2 : data ≠ 0xE2) (h : data &&& 0x80 ≠ 0) :
    scan s (ticks, data) = (s.withShift (keyRelease s.shift data), 0) := by
  have hH : ¬ chord s data 0x23 = true := by
    intro hc
    rw [(chord_eq_true.mp hc).2.2] at h
    exact h (by decide)
  simp only [scan, kbdgetc]
  rw [chords, if_neg hH, if_neg h0, if_neg h2, if_pos h]

/-- The escape. -/
theorem scan_escape (s : State) (ticks : UInt32) :
    scan s (ticks, 0xE0) = (s.withShift (s.shift ||| Mod.e0esc), 0) := by
  have hH : ¬ chord s 0xE0 0x23 = true := fun hc => absurd (chord_eq_true.mp hc).2.2 (by decide)
  simp only [scan, kbdgetc]
  rw [chords, if_neg hH, if_pos rfl]

/-- The press of a key with an `E0` prefix. -/
theorem scan_extended {s : State} {data : UInt8} (hH : chord s data 0x23 = false)
    (hmake : data &&& 0x80 = 0) (he : has s.shift Mod.e0esc = true) (ticks : UInt32) :
    scan s (ticks, data) =
      translate (s.withShift (s.shift &&& ~~~Mod.e0esc)) (data ||| 0x80) := by
  have h0 : data ≠ 0xE0 := by rintro rfl; exact absurd hmake (by decide)
  have h2 : data ≠ 0xE2 := by rintro rfl; exact absurd hmake (by decide)
  simp only [scan, kbdgetc]
  rw [chords, if_neg (by rw [hH]; decide), if_neg h0, if_neg h2, if_neg (not_not.mpr hmake),
    if_pos he]

/-- The Pascal chord. -/
theorem scan_pascal {s : State} (h : chord s 0x19 0x19 = true) (he : has s.shift Mod.e0esc = false)
    (ticks : UInt32) :
    scan s (ticks, 0x19) = ({ s with pascalCase := !s.pascalCase, camelCase := false,
                                     snakeCase := false, newLinePressed := true }, 0) := by
  obtain ⟨hctl, hshift, -⟩ := chord_eq_true.mp h
  have hmake : (0x19 : UInt8) &&& 0x80 = 0 := by decide
  simp [scan, kbdgetc, chords, chord, hctl, hshift, he, hmake]

/-- The camel chord. -/
theorem scan_camel {s : State} (h : chord s 0x2E 0x2E = true) (he : has s.shift Mod.e0esc = false)
    (ticks : UInt32) :
    scan s (ticks, 0x2E) = ({ s with camelCase := !s.camelCase, pascalCase := false,
                                     snakeCase := false }, 0) := by
  obtain ⟨hctl, hshift, -⟩ := chord_eq_true.mp h
  have hmake : (0x2E : UInt8) &&& 0x80 = 0 := by decide
  simp [scan, kbdgetc, chords, chord, hctl, hshift, he, hmake]

/-- A press that is no chord. -/
theorem scan_press {s : State} {data : UInt8} (hp : Press s data)
    (hH : chord s data 0x23 = false) (hno : ¬ ModeChord s data) (ticks : UInt32) :
    scan s (ticks, data) = translate (s.tick ticks data) data := by
  have hgo : chords s ticks data = .go (s.tick ticks data) data := by
    have hbranch := chords_branch s ticks data
    generalize chords s ticks data = c at hbranch ⊢
    cases hbranch with
    | guide h => rw [h] at hH; contradiction
    | escape h => exact absurd hp.make (by rw [h]; decide)
    | upAgain h => exact absurd hp.make (by rw [h]; decide)
    | up h => exact absurd hp.make (by rw [h]; decide)
    | release h0 h2 h => exact absurd hp.make h
    | extended _ h he => rw [hp.plain] at he; contradiction
    | pascal _ h => exact absurd ⟨hp.plain, .inl h⟩ hno
    | camel _ h => exact absurd ⟨hp.plain, .inr (.inl h)⟩ hno
    | snake _ h =>
      obtain ⟨hctl, -, rfl⟩ := chord_eq_true.mp h
      exact absurd (.of_ctl hp hctl (by decide)) hno
    | devil _ h =>
      obtain ⟨hctl, -, rfl⟩ := chord_eq_true.mp h
      exact absurd (.of_ctl hp hctl (by decide)) hno
    | encryption _ hctl h => exact absurd (.of_ctl hp hctl (by simp [h])) hno
    | reset _ h halt => exact absurd ⟨hp.plain, .inr (.inr (.inr ⟨h, halt⟩))⟩ hno
    | sticky _ hctl _ h => exact absurd (.of_ctl hp hctl (by simp [h])) hno
    | dvorak _ hctl _ h => exact absurd (.of_ctl hp hctl (by simp [h])) hno
    | press => rfl
  rw [scan, kbdgetc, hgo]

/-! ### Modes that exclude each other -/

/-- How many of the case modes, the cipher and the devil mode are on. -/
def State.modes (s : State) : ℕ :=
  s.pascalCase.toNat + s.camelCase.toNat + s.snakeCase.toNat + s.encryptionMode.toNat +
    s.devilMode.toNat

/-- At most one mode is on, and `A_mode` is on with the devil mode. -/
def Exclusive (s : State) : Prop := s.modes ≤ 1 ∧ s.aMode = s.devilMode

instance (s : State) : Decidable (Exclusive s) := inferInstanceAs (Decidable (_ ∧ _))

/-- A case mode is switched on during the cipher or the devil mode, or the cipher during the
devil mode. -/
def Clash (s : State) (data : UInt8) : Prop :=
  has s.shift Mod.e0esc = false ∧
    ((chord s data 0x19 = true ∧ s.pascalCase = false ∨
        chord s data 0x2E = true ∧ s.camelCase = false ∨
        chord s data 0x1F = true ∧ s.snakeCase = false) ∧
        (s.encryptionMode = true ∨ s.devilMode = true) ∨
      has s.shift Mod.ctl = true ∧ data = 0x12 ∧ s.encryptionMode = false ∧ s.devilMode = true)

instance (s : State) (data : UInt8) : Decidable (Clash s data) :=
  inferInstanceAs (Decidable (_ ∧ _))

theorem Clash.modeChord {s : State} {data : UInt8} (h : Clash s data) : ModeChord s data := by
  obtain ⟨he, ⟨⟨h, -⟩ | ⟨h, -⟩ | ⟨h, -⟩, -⟩ | ⟨hctl, h, -⟩⟩ := h
  · exact ⟨he, .inl h⟩
  · exact ⟨he, .inr (.inl h)⟩
  · exact ⟨he, .inr (.inr (.inl ⟨(chord_eq_true.mp h).1, by simp [(chord_eq_true.mp h).2.2]⟩))⟩
  · exact ⟨he, .inr (.inr (.inl ⟨hctl, by simp [h]⟩))⟩

/-- A case chord leaves one case mode in question. -/
theorem case_chord {p c n x e d : Bool}
    (h : p.toNat + c.toNat + n.toNat + e.toNat + d.toNat ≤ 1) :
    (!x).toNat + e.toNat + d.toNat ≤ 1 ↔ ¬ (x = false ∧ (e = true ∨ d = true)) := by
  rw [← Bool.toNat_eq_zero, ← Bool.toNat_eq_one, ← Bool.toNat_eq_one]
  have hx : (!x).toNat + x.toNat = 1 := by cases x <;> rfl
  omega

/-- **One byte keeps the modes apart exactly if it is no `Clash`.** -/
theorem exclusive_scan {s : State} (hs : Exclusive s) (i : UInt32 × UInt8) :
    Exclusive (scan s i).1 ↔ ¬ Clash s i.2 := by
  have hframe : Exclusive (scan s i).1 ↔ Exclusive (chords s i.1 i.2).state :=
    iff_of_eq (scan_frame Exclusive (fun _ _ _ _ _ => rfl) s i)
  rw [hframe]
  obtain ⟨ticks, data⟩ := i
  obtain ⟨hcount, ha⟩ := hs
  have hbranch := chords_branch s ticks data
  generalize chords s ticks data = c at hbranch ⊢
  dsimp only
  cases hbranch with
  | guide h =>
    refine iff_of_true ⟨hcount, ha⟩ fun hc => ?_
    have hkey := hc.modeChord.key
    rw [(chord_eq_true.mp h).2.2] at hkey
    exact absurd hkey (by decide)
  | escape h => exact iff_of_true ⟨hcount, ha⟩ fun hc => absurd hc.modeChord.key (by rw [h]; decide)
  | upAgain h =>
    exact iff_of_true ⟨hcount, ha⟩ fun hc => absurd hc.modeChord.key (by rw [h]; decide)
  | up h => exact iff_of_true ⟨hcount, ha⟩ fun hc => absurd hc.modeChord.key (by rw [h]; decide)
  | release h0 h2 h =>
    exact iff_of_true ⟨hcount, ha⟩ fun hc => h hc.modeChord.press.make
  | extended hH h he =>
    refine iff_of_true ⟨hcount, ha⟩ fun hc => ?_
    rw [hc.1] at he
    contradiction
  | pascal hp h =>
    obtain ⟨hctl, hshift, rfl⟩ := chord_eq_true.mp h
    have hclash : Clash s 0x19 ↔
        s.pascalCase = false ∧ (s.encryptionMode = true ∨ s.devilMode = true) := by
      simp [Clash, chord, hp.plain, hctl, hshift]
    refine (and_iff_left ha).trans ?_
    rw [hclash, ← case_chord hcount]
    simp [State.modes, Chain.state]
  | camel hp h =>
    obtain ⟨hctl, hshift, rfl⟩ := chord_eq_true.mp h
    have hclash : Clash s 0x2E ↔
        s.camelCase = false ∧ (s.encryptionMode = true ∨ s.devilMode = true) := by
      simp [Clash, chord, hp.plain, hctl, hshift]
    refine (and_iff_left ha).trans ?_
    rw [hclash, ← case_chord hcount]
    simp [State.modes, Chain.state]
  | snake hp h =>
    obtain ⟨hctl, hshift, rfl⟩ := chord_eq_true.mp h
    have hclash : Clash s 0x1F ↔
        s.snakeCase = false ∧ (s.encryptionMode = true ∨ s.devilMode = true) := by
      simp [Clash, chord, hp.plain, hctl, hshift]
    refine (and_iff_left ha).trans ?_
    rw [hclash, ← case_chord hcount]
    simp [State.modes, Chain.state]
  | devil hp h =>
    obtain ⟨hctl, hshift, rfl⟩ := chord_eq_true.mp h
    have hclash : ¬ Clash s 0x20 := by simp [Clash, chord]
    refine iff_of_true ⟨?_, congrArg (!·) ha⟩ hclash
    simpa [State.modes, Chain.state] using Bool.toNat_le _
  | encryption hp hctl h =>
    subst h
    have hclash : Clash s 0x12 ↔ s.encryptionMode = false ∧ s.devilMode = true := by
      simp [Clash, chord, hp.plain, hctl]
    refine (and_iff_left ha).trans ?_
    have he : (!s.encryptionMode).toNat + s.encryptionMode.toNat = 1 := by
      cases s.encryptionMode <;> rfl
    have hd := Bool.toNat_le s.devilMode
    rw [hclash, ← Bool.toNat_eq_zero, ← Bool.toNat_eq_one]
    simp only [State.modes, Chain.state, Bool.toNat_false, Nat.zero_add]
    omega
  | reset hp h halt =>
    obtain ⟨hctl, hshift, rfl⟩ := chord_eq_true.mp h
    have hclash : ¬ Clash s 0x39 := by simp [Clash, chord]
    exact iff_of_true ⟨Nat.zero_le 1, rfl⟩ hclash
  | sticky hp hctl hshift h =>
    subst h
    have hclash : ¬ Clash s 0x1F := by simp [Clash, chord, hshift]
    exact iff_of_true ⟨hcount, ha⟩ hclash
  | dvorak hp hctl hshift h =>
    subst h
    have hclash : ¬ Clash s 0x20 := by simp [Clash, chord]
    exact iff_of_true ⟨hcount, ha⟩ hclash
  | press hp hH hno =>
    refine iff_of_true ?_ fun hc => hno hc.modeChord
    obtain ⟨sk, ca, l, htick⟩ := s.tick_frame ticks data
    rw [Chain.state, htick]
    exact ⟨hcount, ha⟩

/-- **The streams along which the modes exclude each other**, in every state from boot on. -/
theorem exclusive_iff (stream : List (UInt32 × UInt8)) :
    (∀ pre, pre <+: stream → Exclusive (Machine.final scan boot pre)) ↔
      Machine.Along scan (fun s i => ¬ Clash s i.2) boot stream := by
  have hboot : Exclusive boot := by decide
  rw [Machine.forall_prefix_iff_along, and_iff_right hboot]
  exact Machine.along_congr Exclusive (fun _ _ _ => id) (fun _ i hs => exclusive_scan hs i) stream
    boot hboot

/-- Ctrl+E, then Ctrl+Shift+P: the cipher and the Pascal mode are both on. -/
theorem not_exclusive_cipher_pascal :
    ¬ Exclusive (Machine.final scan boot
      [(0, 0x1D), (1, 0x12), (2, 0x92), (3, 0x2A), (4, 0x19)]) := by
  decide

end Helpful
end Kbd
end Xv6
