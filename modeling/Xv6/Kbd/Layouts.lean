import Xv6.Kbd.Dvorak
import Xv6.Kbd.HelpfulModes

/-!
# Two Dvorak drivers

The driver of `B22CS039/kbd.c`, whose layout `kbdintr` switches at each code 4, beside the
decoder of the Helpful console, which switches its layout itself, on streams whose only chord
is Ctrl+D.  The first driver maps a character to the Dvorak layout and then inverts its case
under CAPSLOCK; the second inverts the case, maps the character, and inverts the case again.

* `relayout_swapCase_iff` — the layout tells the two cases of a letter apart.
* `agree_iff` — **the streams on which the two give the same codes**, the codes of Ctrl+D
  itself left out.
-/

namespace Xv6
namespace Kbd
namespace Layouts

open Console

/-! ### The two drivers -/

/-- `kbdgetc` of the first driver, and the switch of the layout by its `kbdintr`. -/
def stroke (s : Dvorak.State) (data : UInt8) : Dvorak.State × ℤ :=
  ((Dvorak.kbdintr (s, Input.boot) data).1.1, (Dvorak.kbdgetc s (some data)).2)

/-- The two drivers on the same byte, with the tick at which it arrives. -/
def drivers (s : Dvorak.State × Helpful.State) (i : UInt32 × UInt8) :
    (Dvorak.State × Helpful.State) × ℤ × ℤ :=
  let p := stroke s.1 i.2
  let q := Helpful.scan s.2 i
  ((p.1, q.1), p.2, q.2)

/-- The press of `D` while Ctrl is down. -/
def CtrlD (shift : UInt32) (data : UInt8) : Prop :=
  data = 0x20 ∧ has shift Mod.ctl = true ∧ has shift Mod.e0esc = false

instance (shift : UInt32) (data : UInt8) : Decidable (CtrlD shift data) :=
  inferInstanceAs (Decidable (_ ∧ _))

/-- The byte is not `0xE2`, not the press of `P`, `C`, `S`, `E`, `H` or Space while Ctrl is
down, and not the press of `D` while Ctrl and Shift are down. -/
def OnlyCtrlD (shift : UInt32) (data : UInt8) : Prop :=
  data ≠ 0xE2 ∧ (has shift Mod.ctl = true → has shift Mod.e0esc = false →
    data ∉ [(0x19 : UInt8), 0x2E, 0x1F, 0x12, 0x23, 0x39] ∧
      (has shift Mod.shift = true → data ≠ 0x20))

instance (shift : UInt32) (data : UInt8) : Decidable (OnlyCtrlD shift data) :=
  inferInstanceAs (Decidable (_ ∧ _))

/-- The two drivers give a byte the same code, unless it is a press of Ctrl+D. -/
def SameCode (s : Dvorak.State × Helpful.State) (i : UInt32 × UInt8) : Prop :=
  ¬ CtrlD s.1.shift i.2 → (drivers s i).2.1 = (drivers s i).2.2

instance (s : Dvorak.State × Helpful.State) (i : UInt32 × UInt8) : Decidable (SameCode s i) :=
  inferInstanceAs (Decidable (_ → _))

/-! ### The layout and the case -/

/-- A character in the layout. -/
def layout (isDvorak : Bool) (c : UInt32) : UInt32 := if isDvorak then Dvorak.relayout c else c

theorem dvorakPass_eq (isDvorak : Bool) (c : UInt32) :
    Helpful.dvorakPass isDvorak c = layout isDvorak c := by
  unfold Helpful.dvorakPass layout Dvorak.relayout
  cases isDvorak with
  | false => rfl
  | true => simp only [Bool.true_and, Bool.and_eq_true, decide_eq_true_eq, if_true]

/-- Both layouts tell the two cases of a letter apart. -/
theorem layout_swapCase_iff (isDvorak : Bool) (b : UInt8) :
    layout isDvorak (swapCase b.toUInt32) = layout isDvorak b.toUInt32 ↔
      isLetter b.toUInt32 = false := by
  cases isDvorak with
  | false => exact swapCase_eq_self_iff
  | true =>
    exact forall_byte (fun b => layout true (swapCase b.toUInt32) = layout true b.toUInt32 ↔
      isLetter b.toUInt32 = false) (by decide +kernel) b

/-- The case inversion under CAPSLOCK. -/
def capsCase (caps : Bool) (c : UInt32) : UInt32 := if caps then swapCase c else c

/-- The codes of the first driver are bytes, and 4 is the code of the character 4 alone. -/
theorem layout_code (isDvorak caps : Bool) (b : UInt8) :
    asInt (capsCase caps (layout isDvorak b.toUInt32)) < 256 ∧
      (asInt (capsCase caps (layout isDvorak b.toUInt32)) % 256 = 4 ↔ b.toUInt32 = 4) :=
  forall_byte (fun b => ∀ v c : Bool, asInt (capsCase c (layout v b.toUInt32)) < 256 ∧
    (asInt (capsCase c (layout v b.toUInt32)) % 256 = 4 ↔ b.toUInt32 = 4)) (by decide +kernel)
    b isDvorak caps

/-! ### The first driver -/

/-- Ctrl+D, in terms of the word and the key that the tables see. -/
theorem ctrlD_iff (shift : UInt32) (data : UInt8) :
    CtrlD shift data ↔
      (unescape shift data).2 = 0x20 ∧ has (pressWord shift data) Mod.ctl = true := by
  rw [CtrlD, pressWord, unescape]
  cases he : has shift Mod.e0esc with
  | true =>
    have hne : data ||| 0x80 ≠ 0x20 :=
      forall_byte (fun d => d ||| 0x80 ≠ 0x20) (by decide +kernel) data
    simp [hne]
  | false =>
    simp only [Bool.false_eq_true, if_false, and_true]
    refine and_congr_right ?_
    rintro rfl
    rw [latch_letterKey shift (d := 0x20) (by decide)]

/-- The press of `D` under Ctrl is the press of the character 4. -/
theorem pressChar_eq_four_iff (shift : UInt32) (data : UInt8) :
    pressChar shift data = 4 ↔ CtrlD shift data := by
  have hctlmap : ∀ d, (ctlmap d).toUInt32 = 4 ↔ d = 0x20 :=
    forall_byte (fun d => (ctlmap d).toUInt32 = 4 ↔ d = 0x20) (by decide +kernel)
  have hmaps : ∀ d, (normalmap d).toUInt32 ≠ 4 ∧ (shiftmap d).toUInt32 ≠ 4 :=
    forall_byte (fun d => (normalmap d).toUInt32 ≠ 4 ∧ (shiftmap d).toUInt32 ≠ 4)
      (by decide +kernel)
  rw [pressChar, ctrlD_iff]
  cases hctl : has (pressWord shift data) Mod.ctl with
  | true => rw [keyChar_of_ctl hctl, hctlmap, and_iff_left rfl]
  | false =>
    refine iff_of_false ?_ fun h => Bool.false_ne_true h.2
    rcases keyChar_of_not_ctl hctl (unescape shift data).2 with h | h
    · rw [h]
      exact (hmaps _).1
    · rw [h]
      exact (hmaps _).2

/-- The code of a key press. -/
theorem kbdgetc_press (s : Dvorak.State) {data : UInt8} (h0 : data ≠ 0xE0)
    (hmake : data &&& 0x80 = 0) :
    Dvorak.kbdgetc s (some data) = ({ s with shift := pressWord s.shift data },
      asInt (capsCase (has (pressWord s.shift data) Mod.capslock)
        (layout s.isDvorak (pressChar s.shift data)))) := by
  rw [Dvorak.kbdgetc, if_neg h0, if_neg (not_not.mpr hmake)]
  rfl

/-- `kbdintr` switches the layout at the code 4. -/
theorem stroke_eq (s : Dvorak.State) (data : UInt8) :
    stroke s data = (let p := Dvorak.kbdgetc s (some data)
      ({ p.1 with isDvorak := if p.2 % 256 = 4 then !p.1.isDvorak else p.1.isDvorak }, p.2)) := by
  unfold stroke Dvorak.kbdintr
  dsimp only
  generalize Dvorak.kbdgetc s (some data) = p
  by_cases hneg : p.2 = -1
  · simp [hneg]
  · by_cases h4 : p.2 % 256 = 4
    · simp [hneg, h4]
    · simp [hneg, h4]

/-- The press of a key, in the first driver. -/
theorem stroke_press (s : Dvorak.State) {data : UInt8} (h0 : data ≠ 0xE0)
    (hmake : data &&& 0x80 = 0) :
    stroke s data =
      (⟨pressWord s.shift data, if CtrlD s.shift data then !s.isDvorak else s.isDvorak⟩,
        asInt (capsCase (has (pressWord s.shift data) Mod.capslock)
          (layout s.isDvorak (pressChar s.shift data)))) := by
  have hfour : asInt (capsCase (has (pressWord s.shift data) Mod.capslock)
      (layout s.isDvorak (pressChar s.shift data))) % 256 = 4 ↔ CtrlD s.shift data :=
    (layout_code _ _ _).2.trans (pressChar_eq_four_iff s.shift data)
  rw [stroke_eq, kbdgetc_press s h0 hmake]
  simp only [hfour]

/-- Any other byte, in the first driver. -/
theorem stroke_break (s : Dvorak.State) {data : UInt8} (h : data = 0xE0 ∨ data &&& 0x80 ≠ 0) :
    stroke s data = (⟨(Stock.scan s.shift data).1, s.isDvorak⟩, 0) := by
  rw [stroke_eq]
  by_cases h0 : data = 0xE0
  · subst h0
    rfl
  · have hbreak := h.resolve_left h0
    have hcode : Dvorak.kbdgetc s (some data) =
        ({ s with shift := keyRelease s.shift data }, 0) := by
      rw [Dvorak.kbdgetc, if_neg h0, if_pos hbreak]
    rw [hcode, Stock.scan_release _ h0 hbreak]
    rfl

/-! ### The Helpful decoder -/

/-- No mode is active but perhaps the layout. -/
structure Quiet (s : Helpful.State) : Prop where
  pascalCase : s.pascalCase = false
  camelCase : s.camelCase = false
  snakeCase : s.snakeCase = false
  encryptionMode : s.encryptionMode = false
  devilMode : s.devilMode = false
  skEnabled : s.skEnabled = false

theorem Quiet.withShift {s : Helpful.State} (h : Quiet s) (x : UInt32) : Quiet (s.withShift x) :=
  ⟨h.pascalCase, h.camelCase, h.snakeCase, h.encryptionMode, h.devilMode, h.skEnabled⟩

/-- The case inversion is made in front of the layout and behind it. -/
theorem passes_quiet {s : Helpful.State} (h : Quiet s) (data : UInt8) (c : UInt32) :
    (Helpful.passes s data c).2 = asInt (capsCase (has s.shift Mod.capslock)
      (layout s.isDvorak (capsCase (has s.shift Mod.capslock) c))) := by
  simp only [Helpful.passes, h.devilMode, h.encryptionMode, Bool.false_eq_true, if_false,
    Helpful.stickyPass, Helpful.capsPass, dvorakPass_eq, Helpful.newLinePass, Helpful.spacePass,
    Helpful.caseModes, h.pascalCase, h.camelCase, h.snakeCase, h.skEnabled, Bool.and_false,
    Bool.not_false, Bool.true_and, capsCase]

theorem quiet_translate {s : Helpful.State} (h : Quiet s) (data : UInt8) :
    Quiet (Helpful.translate s data).1 ∧
      (Helpful.translate s data).1.shift = latch s.shift data ∧
      (Helpful.translate s data).1.isDvorak = s.isDvorak := by
  obtain ⟨sp, nl, up, heq⟩ := Helpful.translate_frame s data
  rw [heq]
  exact ⟨⟨h.pascalCase, h.camelCase, h.snakeCase, h.encryptionMode, h.devilMode, h.skEnabled⟩,
    rfl, rfl⟩

/-- A key press that is no chord. -/
theorem scan_press {s : Helpful.State} (h : Quiet s) {data : UInt8} (hmake : data &&& 0x80 = 0)
    (hdata : OnlyCtrlD s.shift data) (hD : ¬ CtrlD s.shift data)
    (hH : ¬ Helpful.ExtendedH s.shift data) (ticks : UInt32) :
    Helpful.scan s (ticks, data) =
      Helpful.translate (s.withShift (unescape s.shift data).1) (unescape s.shift data).2 := by
  cases he : has s.shift Mod.e0esc with
  | true =>
    have hguide : Helpful.chord s data 0x23 = false := by
      rw [← Bool.not_eq_true]
      intro hc
      obtain ⟨hctl, hshift, hkey⟩ := Helpful.chord_eq_true.mp hc
      exact hH ⟨he, hctl, hshift, hkey⟩
    rw [Helpful.scan_extended hguide hmake he, unescape, if_pos he]
  | false =>
    have hguide : Helpful.chord s data 0x23 = false := by
      rw [← Bool.not_eq_true]
      intro hc
      obtain ⟨hctl, -, hkey⟩ := Helpful.chord_eq_true.mp hc
      exact (hdata.2 hctl he).1 (by rw [hkey]; decide)
    have hno : ¬ Helpful.ModeChord s data := by
      intro hc
      have hctl : has s.shift Mod.ctl = true := by
        by_contra hup
        exact Helpful.not_modeChord_of_ctl (Bool.eq_false_of_not_eq_true hup) data hc
      -- of the keys of the chords only `D` is allowed, and that is Ctrl+D
      have hkey := hc.key
      have hnot := (hdata.2 hctl he).1
      simp only [List.mem_cons, List.not_mem_nil, or_false, not_or] at hkey hnot
      exact hD ⟨by tauto, hctl, he⟩
    rw [Helpful.scan_press ⟨hmake, he⟩ hguide hno, Helpful.State.tick_of_off h.skEnabled, unescape,
      he, if_neg Bool.false_ne_true, Helpful.State.withShift_self]

/-- A press of Ctrl+D. -/
theorem scan_ctrlD {s : Helpful.State} {data : UInt8} (hdata : OnlyCtrlD s.shift data)
    (hD : CtrlD s.shift data) (ticks : UInt32) :
    (Helpful.scan s (ticks, data)).1 = { s with isDvorak := !s.isDvorak } := by
  obtain ⟨rfl, hctl, he⟩ := hD
  have hshift : has s.shift Mod.shift = false := by
    rw [← Bool.not_eq_true]
    exact fun hshift => (hdata.2 hctl he).2 hshift rfl
  have hmake : (0x20 : UInt8) &&& 0x80 = 0 := by decide
  simp [Helpful.scan, Helpful.kbdgetc, Helpful.chords, Helpful.chord, hctl, hshift, he, hmake]

/-! ### The two side by side -/

/-- The drivers have the shift word of the stock driver and the same layout, and the Helpful
decoder is in no other mode. -/
structure Sim (shift : UInt32) (s : Dvorak.State × Helpful.State) : Prop where
  first : s.1.shift = shift
  second : s.2.shift = shift
  layout : s.2.isDvorak = s.1.isDvorak
  quiet : Quiet s.2

theorem sim_boot : Sim 0 (Dvorak.boot, Helpful.boot) :=
  ⟨rfl, rfl, rfl, ⟨rfl, rfl, rfl, rfl, rfl, rfl⟩⟩

/-- The inversion in front of the layout shows exactly on a letter under CAPSLOCK. -/
theorem capsCase_layout_iff (isDvorak : Bool) (shift : UInt32) (data : UInt8) :
    asInt (capsCase (has (pressWord shift data) Mod.capslock)
          (layout isDvorak (pressChar shift data))) =
        asInt (capsCase (has (pressWord shift data) Mod.capslock)
          (layout isDvorak (capsCase (has (pressWord shift data) Mod.capslock)
            (pressChar shift data)))) ↔
      ¬ CapsLetter shift data := by
  rw [← caps_swap_eq_iff, asInt_inj, asInt_inj]
  cases has (pressWord shift data) Mod.capslock with
  | false => exact iff_of_true rfl rfl
  | true =>
    have hinj : ∀ a b, swapCase a = swapCase b ↔ a = b := fun a b =>
      ⟨fun h => by rw [← swapCase_swapCase a, h, swapCase_swapCase], fun h => by rw [h]⟩
    simp only [capsCase, if_true]
    rw [hinj, eq_comm, eq_comm (a := pressChar shift data), swapCase_eq_self_iff]
    exact layout_swapCase_iff isDvorak _

/-- **One byte.** -/
theorem sim_drivers {shift : UInt32} {s : Dvorak.State × Helpful.State} (h : Sim shift s)
    (ticks : UInt32) {data : UInt8} (hdata : OnlyCtrlD shift data)
    (hH : ¬ Helpful.ExtendedH shift data) :
    Sim (Stock.scan shift data).1 (drivers s (ticks, data)).1 ∧
      (SameCode s (ticks, data) ↔ ¬ CapsLetter shift data) := by
  obtain ⟨s, t⟩ := s
  obtain ⟨hfirst, hsecond, hlayout, hquiet⟩ := h
  dsimp only at hfirst hsecond hlayout hquiet
  subst hfirst
  rcases byte_cases data with rfl | ⟨h0, hbreak⟩ | ⟨h0, hmake⟩
  · have hstroke := stroke_break s (.inl (rfl : (0xE0 : UInt8) = 0xE0))
    have hscan := Helpful.scan_escape t ticks
    simp only [drivers, SameCode, hstroke, hscan]
    refine ⟨⟨rfl, ?_, hlayout, hquiet.withShift _⟩, iff_of_true (fun _ => trivial) ?_⟩
    · rw [Helpful.State.withShift_shift, hsecond, Stock.scan_escape]
    · exact fun hc => (make_of_letterKey hc.1).1 rfl
  · have hstroke := stroke_break s (.inr hbreak)
    have hscan := Helpful.scan_release t ticks h0 hdata.1 hbreak
    simp only [drivers, SameCode, hstroke, hscan]
    refine ⟨⟨rfl, ?_, hlayout, hquiet.withShift _⟩, iff_of_true (fun _ => trivial) ?_⟩
    · rw [Helpful.State.withShift_shift, hsecond, Stock.scan_release _ h0 hbreak]
    · exact fun hc => hbreak (make_of_letterKey hc.1).2
  · have hstroke := stroke_press s h0 hmake
    rw [Stock.scan_press _ h0 hmake]
    by_cases hD : CtrlD s.shift data
    · -- Ctrl+D: both switch the layout
      have hscan := scan_ctrlD (s := t) (by rw [hsecond]; exact hdata) (by rw [hsecond]; exact hD)
        ticks
      have hword : pressWord s.shift data = s.shift := by
        obtain ⟨rfl, -, he⟩ := hD
        rw [pressWord, unescape, he]
        exact latch_letterKey s.shift (d := 0x20) (by decide)
      rw [if_pos hD] at hstroke
      simp only [drivers, SameCode, hstroke, hscan, hword]
      refine ⟨⟨rfl, hsecond, congrArg (!·) hlayout, ?_⟩, iff_of_true (absurd hD) ?_⟩
      · exact ⟨hquiet.pascalCase, hquiet.camelCase, hquiet.snakeCase, hquiet.encryptionMode,
          hquiet.devilMode, hquiet.skEnabled⟩
      · exact fun hc => Bool.false_ne_true (hc.2.2.1.symm.trans hD.2.1)
    · have hscan := scan_press hquiet hmake (by rw [hsecond]; exact hdata)
        (by rw [hsecond]; exact hD) (by rw [hsecond]; exact hH) ticks
      obtain ⟨hquiet', hshift', hlayout'⟩ := quiet_translate
        (hquiet.withShift (unescape t.shift data).1) (unescape t.shift data).2
      have hcode : (Helpful.scan t (ticks, data)).2 =
          asInt (capsCase (has (pressWord s.shift data) Mod.capslock)
            (layout s.isDvorak (capsCase (has (pressWord s.shift data) Mod.capslock)
              (pressChar s.shift data)))) := by
        rw [hscan, Helpful.translate, passes_quiet ((hquiet.withShift _).withShift _),
          ← hlayout, ← hsecond]
        rfl
      rw [if_neg hD] at hstroke
      rw [← hscan] at hquiet' hshift' hlayout'
      refine ⟨⟨?_, ?_, ?_, hquiet'⟩, ?_⟩
      · simp only [drivers, hstroke]
      · rw [drivers, hshift', hsecond]
        rfl
      · simp only [drivers, hstroke, hlayout']
        exact hlayout
      · simp only [SameCode, drivers, hstroke, hcode]
        rw [imp_iff_right hD]
        exact capsCase_layout_iff s.isDvorak s.shift data

/-- The extended `0x23` under Ctrl and Shift gives the guide code. -/
theorem not_sameCode_extendedH {shift : UInt32} {s : Dvorak.State × Helpful.State}
    (h : Sim shift s) (ticks : UInt32) {data : UInt8} (hH : Helpful.ExtendedH shift data) :
    ¬ SameCode s (ticks, data) := by
  obtain ⟨he, hctl, hshift, rfl⟩ := hH
  have hfirst : (stroke s.1 0x23).2 < 256 := by
    rw [stroke_press s.1 (by decide) (by decide)]
    exact (layout_code _ _ _).1
  have hsecond : (Helpful.scan s.2 (ticks, 0x23)).2 = 2504 := by
    rw [← h.second] at hctl hshift
    simp [Helpful.scan, Helpful.kbdgetc, Helpful.chords, Helpful.chord, hctl, hshift]
  intro hsame
  have hcode := hsame fun hD => absurd hD.1 (show (0x23 : UInt8) ≠ 0x20 by decide)
  dsimp only [drivers] at hcode
  omega

/-- **The streams on which the two Dvorak drivers agree.**  From boot, on a stream whose only
chord is Ctrl+D, the two give every byte that is no press of Ctrl+D the same code exactly when
no letter key is pressed under CAPSLOCK (and no extended `0x23` under Ctrl and Shift). -/
theorem agree_iff (stream : List (UInt32 × UInt8))
    (h : Machine.Along (fun shift i => Stock.scan shift i.2)
      (fun shift i => OnlyCtrlD shift i.2) 0 stream) :
    Machine.Along drivers SameCode (Dvorak.boot, Helpful.boot) stream ↔
      Machine.Along (fun shift i => Stock.scan shift i.2)
        (fun shift i => Helpful.Agrees shift i.2) 0 stream := by
  refine Machine.along_iff_along Sim _ _ _ ?_ ?_ stream 0 _ sim_boot h
  · rintro shift s ⟨ticks, data⟩ hsim hdata
    by_cases hH : Helpful.ExtendedH shift data
    · exact iff_of_false (not_sameCode_extendedH hsim ticks hH) fun hA => hA.2 hH
    · rw [(sim_drivers hsim ticks hdata hH).2]
      exact ⟨fun hc => ⟨hc, hH⟩, fun hA => hA.1⟩
  · rintro shift s ⟨ticks, data⟩ hsim hdata hA
    exact (sim_drivers hsim ticks hdata hA.2).1

/-- The rule at Ctrl+D, `;` under CAPSLOCK, and Shift+`Q`. -/
theorem agree_ctrlD :
    Machine.Along drivers SameCode (Dvorak.boot, Helpful.boot)
      [(0, 0x1D), (1, 0x20), (2, 0xA0), (3, 0x9D), (4, 0x3A), (5, 0x27), (6, 0x3A), (7, 0x2A),
        (8, 0x10)] :=
  (agree_iff _ (by decide +kernel)).mpr (by decide +kernel)

/-- Ctrl+D, CAPSLOCK, then the `Q` key: the first driver gives an apostrophe, the Helpful
decoder a quotation mark. -/
theorem not_agree_capslock :
    Machine.Along (fun shift (i : UInt32 × UInt8) => Stock.scan shift i.2)
        (fun shift i => OnlyCtrlD shift i.2) 0
        [((0 : UInt32), 0x1D), (1, 0x20), (2, 0xA0), (3, 0x9D), (4, 0x3A), (5, 0x10)] ∧
      ¬ Machine.Along drivers SameCode (Dvorak.boot, Helpful.boot)
        [(0, 0x1D), (1, 0x20), (2, 0xA0), (3, 0x9D), (4, 0x3A), (5, 0x10)] ∧
      ((Machine.outputs drivers (Dvorak.boot, Helpful.boot)
        [(0, 0x1D), (1, 0x20), (2, 0xA0), (3, 0x9D), (4, 0x3A), (5, 0x10)]).getLast?) =
          some (0x27, 0x22) := by
  decide +kernel

end Layouts
end Kbd
end Xv6
