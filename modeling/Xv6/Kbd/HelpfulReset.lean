import Xv6.Kbd.HelpfulModes

/-!
# The reset chord of the Helpful driver

Ctrl+Shift+Alt+Space clears the modes one by one, and leaves three variables out: `sk_time`,
which nothing ever sets, and `caps_active` and `last_shift_press`, which a later use of the
sticky keys reads again.  `space_pressed` is not cleared either, but it is never set while
Ctrl is down.

* `Reached`, `reached_final` — what holds of every state that the driver reaches.
* `reset_iff` — **the pairs of pasts that the chord makes indistinguishable.**
-/

namespace Xv6
namespace Kbd
namespace Helpful

/-! ### The states that the driver reaches -/

/-- Nothing sets `sk_time`, so the sticky keys time out at tick 500 and a Shift press counts
before it; and no space is typed while Ctrl is down or a mode hides the character. -/
structure Reached (s : State) : Prop where
  skTime : s.skTime = 0
  last : s.lastShiftPress < skTq
  space : has s.shift Mod.ctl = true ∨ s.encryptionMode = true ∨ s.devilMode = true →
    s.spacePressed = false

/-- With Ctrl down no key gives a space. -/
theorem ctlmap_ne_space (d : UInt8) : (ctlmap d).toUInt32 ≠ 0x20 :=
  forall_byte (fun d => (ctlmap d).toUInt32 ≠ 0x20) (by decide +kernel) d

theorem space_translate {s : State}
    (h : has s.shift Mod.ctl = true ∨ s.encryptionMode = true ∨ s.devilMode = true →
      s.spacePressed = false) (d : UInt8) :
    has (translate s d).1.shift Mod.ctl = true ∨ (translate s d).1.encryptionMode = true ∨
        (translate s d).1.devilMode = true → (translate s d).1.spacePressed = false := by
  unfold translate passes
  dsimp only
  split
  · next hdevil => exact fun _ => h (.inr (.inr hdevil))
  next hdevil =>
  split
  · next henc => exact fun _ => h (.inr (.inl henc))
  next henc =>
  rintro (hctl | h' | h')
  · -- the character is one of `ctlmap`, which the case modes leave alone
    have hctl' : has (latch s.shift d) Mod.ctl = true := hctl
    have hchar : keyChar (latch s.shift d) d = (ctlmap d).toUInt32 := keyChar_of_ctl hctl' d
    dsimp only [newLinePass, spacePass]
    rw [hchar, caseModes_of_not_isLetter _ (isLetter_ctlmap d), beq_eq_false_iff_ne]
    exact ctlmap_ne_space d
  · exact absurd h' henc
  · exact absurd h' hdevil

theorem reached_translate {s : State} (hs : Reached s) (d : UInt8) :
    Reached (translate s d).1 := by
  have hspace := space_translate hs.space d
  obtain ⟨sp, nl, up, h⟩ := translate_frame s d
  refine ⟨?_, ?_, hspace⟩
  · rw [h]
    exact hs.skTime
  · rw [h]
    exact hs.last

theorem reached_tick {s : State} (hs : Reached s) (ticks : UInt32) (d : UInt8) :
    Reached (s.tick ticks d) := by
  unfold State.tick
  split
  · exact ⟨hs.skTime, hs.last, hs.space⟩
  · next hlive =>
    split
    · next hshift =>
      refine ⟨hs.skTime, ?_, hs.space⟩
      rw [Bool.and_eq_true] at hshift
      simpa [hshift.1, hs.skTime] using hlive
    · exact hs

theorem reached_scan (s : State) (i : UInt32 × UInt8) (hs : Reached s) :
    Reached (scan s i).1 := by
  obtain ⟨ticks, data⟩ := i
  have hbranch := chords_branch s ticks data
  rw [scan, kbdgetc]
  generalize chords s ticks data = c at hbranch ⊢
  cases hbranch with
  | guide h => exact hs
  | escape h =>
    refine ⟨hs.skTime, hs.last, fun hmode => hs.space (hmode.imp_left fun hctl => ?_)⟩
    rwa [State.withShift_shift, has_or, show has Mod.e0esc Mod.ctl = false by decide,
      Bool.or_false] at hctl
  | upAgain h => exact hs
  | up h => exact ⟨hs.skTime, hs.last, hs.space⟩
  | release h0 h2 h =>
    refine ⟨hs.skTime, hs.last, fun hmode => hs.space (hmode.imp_left fun hctl => ?_)⟩
    rw [State.withShift_shift, has_keyRelease isBit_ctl, Bool.and_eq_true] at hctl
    exact hctl.1
  | extended hH h he =>
    dsimp only
    refine reached_translate (s := s.withShift (s.shift &&& ~~~Mod.e0esc))
      ⟨hs.skTime, hs.last, fun hmode => hs.space ?_⟩ _
    refine hmode.imp_left fun hctl => ?_
    rw [State.withShift_shift, isBit_ctl.has_and_not, Bool.and_eq_true] at hctl
    exact hctl.1
  | pascal hp h => exact ⟨hs.skTime, hs.last, hs.space⟩
  | camel hp h => exact ⟨hs.skTime, hs.last, hs.space⟩
  | snake hp h => exact ⟨hs.skTime, hs.last, hs.space⟩
  | devil hp h =>
    exact ⟨hs.skTime, hs.last, fun _ => hs.space (.inl (chord_eq_true.mp h).1)⟩
  | encryption hp hctl h =>
    have hmode : Reached { s with camelCase := false, pascalCase := false, snakeCase := false,
                                  encryptionMode := !s.encryptionMode } :=
      ⟨hs.skTime, hs.last, fun _ => hs.space (.inl hctl)⟩
    exact reached_translate hmode data
  | reset hp h halt =>
    exact ⟨hs.skTime, hs.last, fun _ => hs.space (.inl (chord_eq_true.mp h).1)⟩
  | sticky hp hctl hshift h => exact ⟨hs.skTime, hs.last, hs.space⟩
  | dvorak hp hctl hshift h => exact ⟨hs.skTime, hs.last, hs.space⟩
  | press hp hH hno => exact reached_translate (reached_tick hs ticks data) _

theorem reached_final (past : List (UInt32 × UInt8)) : Reached (Machine.final scan boot past) :=
  Machine.final_invariant Reached reached_scan past boot ⟨rfl, by decide, by decide⟩

/-! ### What the reset leaves -/

/-- The state with a shift word and the two variables that the reset chord leaves alone. -/
def erased (w : UInt32) (ca : Bool) (l : UInt32) : State :=
  { boot with shift := w, capsActive := ca, lastShiftPress := l }

theorem reset_eq_erased {s : State} (hs : Reached s) (hctl : has s.shift Mod.ctl = true) :
    s.reset = erased s.shift s.capsActive s.lastShiftPress := by
  have hspace := hs.space (.inl hctl)
  have htime := hs.skTime
  cases s
  dsimp only at hspace htime
  rw [hspace, htime]
  rfl

/-- Ctrl, Shift and Alt are down, and no `E0` escape is pending. -/
structure Held (w : UInt32) : Prop where
  ctl : has w Mod.ctl = true
  shift : has w Mod.shift = true
  alt : has w Mod.alt = true
  plain : has w Mod.e0esc = false

/-- The reset chord. -/
theorem scan_reset {s : State} (h : Held s.shift) (ticks : UInt32) :
    scan s (ticks, 0x39) = (s.reset, 0x0A) := by
  have hmake : (0x39 : UInt8) &&& 0x80 = 0 := by decide
  simp [scan, kbdgetc, chords, chord, h.ctl, h.shift, h.alt, h.plain, hmake, State.reset]

/-! ### The probe -/

/-- A Shift press counts as the second of two. -/
def recent (l ticks : UInt32) : Bool := l ≠ 0 ∧ ticks - l < doublePress

/-- The erased state with the sticky keys switched on. -/
def sticky (w : UInt32) (ca : Bool) (l : UInt32) : State :=
  { erased w ca l with skEnabled := true }

/-- With the sticky keys on, what CAPSLOCK makes of a character is raised by the double Shift. -/
theorem passes_sticky {w c c' : UInt32} (h : (if has w Mod.capslock then swapCase c else c) = c')
    (ca : Bool) (l : UInt32) (data : UInt8) :
    passes (sticky w ca l) data c =
      ({ sticky w ca l with spacePressed := c' == 0x20, newLinePressed := c' == 0x0A },
        asInt (if ca then toUpper c' else c')) := by
  rw [← h]
  simp only [passes, sticky, erased, boot, caseModes, spacePass, newLinePass, dvorakPass, capsPass,
    stickyPass, Bool.false_eq_true, if_false, Bool.and_false, Bool.false_and, Bool.not_true,
    Bool.and_true]
  rfl

/-- Switching the sticky keys on. -/
theorem scan_erased_sticky {w : UInt32} (hctl : has w Mod.ctl = true)
    (hshift : has w Mod.shift = false) (he : has w Mod.e0esc = false) (ca : Bool)
    (l ticks : UInt32) : scan (erased w ca l) (ticks, 0x1F) = (sticky w ca l, 2500) := by
  have hmake : (0x1F : UInt8) &&& 0x80 = 0 := by decide
  simp [scan, kbdgetc, chords, chord, erased, boot, hctl, hshift, he, hmake, sticky]

/-- A Shift press with the sticky keys on. -/
theorem tick_sticky (w : UInt32) (ca : Bool) (l : UInt32) {ticks : UInt32} (ht : ticks < skTq) :
    (sticky w ca l).tick ticks 0x2A = sticky w (ca ^^ recent l ticks) ticks := by
  have hlive : ¬ skTq ≤ ticks - 0 := by
    rw [UInt32.sub_zero]
    exact UInt32.not_le.mpr ht
  have hflip : (if l ≠ 0 ∧ ticks - l < doublePress then !ca else ca) = (ca ^^ recent l ticks) := by
    unfold recent
    split
    · next h => rw [decide_eq_true h, Bool.xor_true]
    · next h => rw [decide_eq_false h, Bool.xor_false]
  rw [← hflip]
  simp only [State.tick, sticky, erased, boot, Bool.true_and, decide_eq_true_eq, hlive, if_false]
  rfl

/-- The Shift key gives no character. -/
theorem keyChar_shiftKey (w : UInt32) : keyChar w 0x2A = 0 := by
  cases hctl : has w Mod.ctl with
  | true => rw [keyChar_of_ctl hctl]; decide
  | false =>
    rcases keyChar_of_not_ctl hctl 0x2A with h | h
    · rw [h]; decide
    · rw [h]; decide

theorem scan_sticky_shift {w : UInt32} (hctl : has w Mod.ctl = false)
    (he : has w Mod.e0esc = false) (ca : Bool) (l : UInt32) {ticks : UInt32} (ht : ticks < skTq) :
    scan (sticky w ca l) (ticks, 0x2A) =
      (sticky (latch w 0x2A) (ca ^^ recent l ticks) ticks, 0) := by
  rw [scan_press ⟨by decide, he⟩ (chord_of_ctl hctl _ _) (not_modeChord_of_ctl hctl _),
    tick_sticky w ca l ht, translate, keyChar_shiftKey]
  generalize (ca ^^ recent l ticks) = ca'
  have hsticky : (sticky w ca' ticks).withShift (latch (sticky w ca' ticks).shift 0x2A) =
      sticky (latch w 0x2A) ca' ticks := rfl
  rw [hsticky]
  -- no character: neither a space nor a newline
  have hnul : (if has (latch w 0x2A) Mod.capslock then swapCase 0 else 0) = 0 := by
    rw [show swapCase 0 = 0 by decide, ite_self]
  rw [passes_sticky hnul, show toUpper 0 = 0 by decide, ite_self]
  rfl

/-- The A key with the sticky keys on, while Shift and CAPSLOCK cancel out. -/
theorem scan_sticky_a {w : UInt32} (hctl : has w Mod.ctl = false)
    (he : has w Mod.e0esc = false) (hcase : has w Mod.shift = has w Mod.capslock) (ca : Bool)
    (l : UInt32) {ticks : UInt32} (ht : ticks < skTq) :
    (scan (sticky w ca l) (ticks, 0x1E)).2 = if ca then 0x41 else 0x61 := by
  have hlatch : latch w 0x1E = w := latch_letterKey w (by decide)
  have htick : (sticky w ca l).tick ticks 0x1E = sticky w ca l := by
    have hlive : ¬ skTq ≤ ticks - 0 := by
      rw [UInt32.sub_zero]
      exact UInt32.not_le.mpr ht
    simp only [State.tick, sticky, erased, boot, Bool.true_and, decide_eq_true_eq, hlive, if_false]
    rfl
  have hchar :
      (if has w Mod.capslock then swapCase (keyChar w 0x1E) else keyChar w 0x1E) = 0x61 := by
    cases hcaps : has w Mod.capslock with
    | false => rw [keyChar_normal hctl (hcase.trans hcaps)]; decide
    | true => rw [keyChar_shift hctl (hcase.trans hcaps)]; decide
  rw [scan_press ⟨by decide, he⟩ (chord_of_ctl hctl _ _) (not_modeChord_of_ctl hctl _), htick,
    translate]
  have hsticky : (sticky w ca l).withShift (latch (sticky w ca l).shift 0x1E) = sticky w ca l := by
    rw [show (sticky w ca l).shift = w from rfl, hlatch]
    rfl
  rw [hsticky, show (sticky w ca l).shift = w from rfl, hlatch, passes_sticky hchar]
  cases ca with
  | false => exact asInt_byte 0x61
  | true => exact asInt_byte 0x41

/-! ### The pasts that the chord makes indistinguishable -/

/-- The probe: Ctrl+S, then with Ctrl up a press of Shift and the A key. -/
def probe (w : UInt32) (ticks : UInt32) : List (UInt32 × UInt8) :=
  [(ticks, 0xAA), (ticks, 0x1F), (ticks, 0x9D), (ticks, 0x2A)] ++
    (if has w Mod.capslock then [] else [(ticks, 0xAA)]) ++ [(ticks, 0x1E)]

theorem outputs_probe {w : UInt32} (h : Held w) (ca : Bool) (l : UInt32) {ticks : UInt32}
    (ht : ticks < skTq) :
    Machine.outputs scan (erased w ca l) (probe w ticks) =
      [0, 2500, 0, 0] ++ (if has w Mod.capslock then [] else [0]) ++
        [if (ca ^^ recent l ticks) then 0x41 else 0x61] := by
  -- Shift goes up
  have hshift₁ : has (keyRelease w 0xAA) Mod.shift = false := by
    rw [has_release isBit_shift h.plain, h.shift]; decide
  have hctl₁ : has (keyRelease w 0xAA) Mod.ctl = true := by
    rw [has_release isBit_ctl h.plain, h.ctl]; decide
  have he₁ : has (keyRelease w 0xAA) Mod.e0esc = false := by
    rw [has_release isBit_e0esc h.plain, h.plain]; decide
  have hcaps₁ : has (keyRelease w 0xAA) Mod.capslock = has w Mod.capslock := by
    rw [has_release isBit_capslock h.plain]
    exact Bool.and_true _
  generalize hw₁ : keyRelease w 0xAA = w₁ at hshift₁ hctl₁ he₁ hcaps₁
  -- Ctrl goes up
  have hctl₂ : has (keyRelease w₁ 0x9D) Mod.ctl = false := by
    rw [has_release isBit_ctl he₁, hctl₁]; decide
  have he₂ : has (keyRelease w₁ 0x9D) Mod.e0esc = false := by
    rw [has_release isBit_e0esc he₁, he₁]; decide
  have hcaps₂ : has (keyRelease w₁ 0x9D) Mod.capslock = has w Mod.capslock := by
    rw [has_release isBit_capslock he₁, hcaps₁]
    exact Bool.and_true _
  generalize hw₂ : keyRelease w₁ 0x9D = w₂ at hctl₂ he₂ hcaps₂
  -- Shift goes down
  have hshift₃ : has (latch w₂ 0x2A) Mod.shift = true := by
    rw [has_latch isBit_shift, show has (shiftcode 0x2A) Mod.shift = true by decide, Bool.or_true]
    decide
  have hctl₃ : has (latch w₂ 0x2A) Mod.ctl = false := by
    rw [has_latch isBit_ctl, hctl₂]; decide
  have he₃ : has (latch w₂ 0x2A) Mod.e0esc = false := by
    rw [has_latch isBit_e0esc, he₂]; decide
  have hcaps₃ : has (latch w₂ 0x2A) Mod.capslock = has w Mod.capslock := by
    rw [has_latch isBit_capslock, hcaps₂]
    cases has w Mod.capslock with
    | false => decide
    | true => decide
  -- the first four bytes
  have h1 : scan (erased w ca l) (ticks, 0xAA) = (erased w₁ ca l, 0) := by
    rw [scan_release _ _ (by decide) (by decide) (by decide), ← hw₁]
    rfl
  have h2 := scan_erased_sticky hctl₁ hshift₁ he₁ ca l ticks
  have h3 : scan (sticky w₁ ca l) (ticks, 0x9D) = (sticky w₂ ca l, 0) := by
    rw [scan_release _ _ (by decide) (by decide) (by decide), ← hw₂]
    rfl
  have h4 := scan_sticky_shift hctl₂ he₂ ca l ht
  rw [probe, List.append_assoc, List.cons_append, Machine.outputs_cons, h1, List.cons_append,
    Machine.outputs_cons, h2, List.cons_append, Machine.outputs_cons, h3, List.cons_append,
    Machine.outputs_cons, h4, List.nil_append]
  dsimp only
  cases hcaps : has w Mod.capslock with
  | true =>
    have h5 := scan_sticky_a hctl₃ he₃ (hshift₃.trans (hcaps₃.trans hcaps).symm)
      (ca ^^ recent l ticks) ticks ht
    simp [h5]
  | false =>
    have hshift₄ : has (keyRelease (latch w₂ 0x2A) 0xAA) Mod.shift = false := by
      rw [has_release isBit_shift he₃, hshift₃]; decide
    have hctl₄ : has (keyRelease (latch w₂ 0x2A) 0xAA) Mod.ctl = false := by
      rw [has_release isBit_ctl he₃, hctl₃]; decide
    have he₄ : has (keyRelease (latch w₂ 0x2A) 0xAA) Mod.e0esc = false := by
      rw [has_release isBit_e0esc he₃, he₃]; decide
    have hcaps₄ : has (keyRelease (latch w₂ 0x2A) 0xAA) Mod.capslock = false := by
      rw [has_release isBit_capslock he₃, hcaps₃, hcaps]; decide
    have h5 : scan (sticky (latch w₂ 0x2A) (ca ^^ recent l ticks) ticks) (ticks, 0xAA) =
        (sticky (keyRelease (latch w₂ 0x2A) 0xAA) (ca ^^ recent l ticks) ticks, 0) :=
      scan_release _ _ (by decide) (by decide) (by decide)
    have h6 := scan_sticky_a hctl₄ he₄ (hshift₄.trans hcaps₄.symm) (ca ^^ recent l ticks) ticks ht
    simp [h5, h6]

theorem code_inj {a b : Bool} (h : (if a then 0x41 else 0x61 : ℤ) = if b then 0x41 else 0x61) :
    a = b := by
  cases a with
  | false => cases b with
    | false => rfl
    | true => exact absurd h (by decide)
  | true => cases b with
    | false => exact absurd h (by decide)
    | true => rfl

/-- A press before tick 500 is not recent before it is made. -/
theorem le_of_recent {l ticks : UInt32} (hl : l < skTq) (h : recent l ticks = true) :
    l ≠ 0 ∧ l ≤ ticks := by
  rw [recent, decide_eq_true_eq] at h
  obtain ⟨hne, hnear⟩ := h
  refine ⟨hne, ?_⟩
  rw [UInt32.lt_iff_toNat_lt] at hl hnear
  rw [UInt32.toNat_sub] at hnear
  rw [UInt32.le_iff_toNat_le]
  have htq : skTq.toNat = 500 := rfl
  have hdouble : doublePress.toNat = 100 := rfl
  have hticks := ticks.toNat_lt
  omega

theorem recent_self (l : UInt32) : recent l l = true ↔ l ≠ 0 := by
  rw [recent, decide_eq_true_eq, UInt32.sub_self]
  exact and_iff_left (by decide)

/-- The two variables show in the probes of all ticks before 500. -/
theorem eq_of_probes {ca₁ ca₂ : Bool} {l₁ l₂ : UInt32} (h₁ : l₁ < skTq) (h₂ : l₂ < skTq)
    (h : ∀ t < skTq, (ca₁ ^^ recent l₁ t) = (ca₂ ^^ recent l₂ t)) : ca₁ = ca₂ ∧ l₁ = l₂ := by
  -- at tick 0 no press is recent
  have hnever : ∀ l < skTq, recent l 0 = false := by
    intro l hl
    rw [← Bool.not_eq_true]
    intro hr
    obtain ⟨hne, hle⟩ := le_of_recent hl hr
    exact hne (UInt32.le_zero_iff.mp hle)
  have hca : ca₁ = ca₂ := by
    have h0 := h 0 (by decide)
    rwa [hnever l₁ h₁, hnever l₂ h₂, Bool.xor_false, Bool.xor_false] at h0
  subst hca
  have hrecent : ∀ t < skTq, recent l₁ t = recent l₂ t := fun t ht => by simpa using h t ht
  refine ⟨rfl, ?_⟩
  rcases eq_or_ne l₁ 0 with rfl | hne
  · by_contra hne
    have hr := hrecent l₂ h₂
    rw [(recent_self l₂).mpr fun h0 => hne h0.symm] at hr
    exact (le_of_recent h₁ hr).1 rfl
  · have hr₁ := (hrecent l₁ h₁).symm.trans ((recent_self l₁).mpr hne)
    obtain ⟨hne₂, hle₂⟩ := le_of_recent h₂ hr₁
    have hr₂ := (hrecent l₂ h₂).trans ((recent_self l₂).mpr hne₂)
    exact UInt32.le_antisymm (le_of_recent h₁ hr₂).2 hle₂

/-- **The pasts that the reset chord makes indistinguishable**: those with the same
`caps_active` and the same `last_shift_press`. -/
theorem reset_iff (past₁ past₂ : List (UInt32 × UInt8)) (ticks : UInt32)
    (hheld : Held (Machine.final scan boot past₁).shift)
    (hword : (Machine.final scan boot past₁).shift = (Machine.final scan boot past₂).shift) :
    (∀ stream,
        Machine.outputs scan (scan (Machine.final scan boot past₁) (ticks, 0x39)).1 stream =
          Machine.outputs scan (scan (Machine.final scan boot past₂) (ticks, 0x39)).1 stream) ↔
      (Machine.final scan boot past₁).capsActive = (Machine.final scan boot past₂).capsActive ∧
        (Machine.final scan boot past₁).lastShiftPress =
          (Machine.final scan boot past₂).lastShiftPress := by
  have hr₁ := reached_final past₁
  have hr₂ := reached_final past₂
  generalize Machine.final scan boot past₁ = s₁ at *
  generalize Machine.final scan boot past₂ = s₂ at *
  have hheld₂ : Held s₂.shift := hword ▸ hheld
  rw [scan_reset hheld, scan_reset hheld₂, reset_eq_erased hr₁ hheld.ctl,
    reset_eq_erased hr₂ hheld₂.ctl, ← hword]
  constructor
  · intro h
    refine eq_of_probes hr₁.last hr₂.last fun t ht => ?_
    have hout := h (probe s₁.shift t)
    rw [outputs_probe hheld _ _ ht, outputs_probe hheld _ _ ht, List.append_cancel_left_eq,
      List.singleton_inj] at hout
    exact code_inj hout
  · rintro ⟨hca, hl⟩ stream
    rw [hca, hl]

/-- The rule at two pasts that differ in the word that was typed: Alt, Shift and Ctrl go up,
and `A` is pressed. -/
theorem reset_typed :
    Machine.outputs scan (scan (Machine.final scan boot
        [(0, 0x1E), (1, 0x9E), (2, 0x1D), (3, 0x2A), (4, 0x38)]) (5, 0x39)).1
        [(6, 0xB8), (7, 0xAA), (8, 0x9D), (9, 0x1E)] =
      Machine.outputs scan (scan (Machine.final scan boot
        [(0, 0x1D), (1, 0x2A), (2, 0x38)]) (5, 0x39)).1
        [(6, 0xB8), (7, 0xAA), (8, 0x9D), (9, 0x1E)] :=
  (reset_iff _ _ 5 ⟨by decide, by decide, by decide, by decide⟩ (by decide)).mpr
    (by decide) [(6, 0xB8), (7, 0xAA), (8, 0x9D), (9, 0x1E)]

/-- A double Shift under the sticky keys is remembered over the reset: with the sticky keys
switched on again, the `A` key gives `A` after the one past and `a` after the other. -/
theorem not_reset_doubleShift :
    let past₁ : List (UInt32 × UInt8) := [(1, 0x1D), (2, 0x1F), (3, 0x9F), (4, 0x2A), (5, 0xAA),
      (6, 0x2A), (7, 0xAA), (200, 0x2A), (201, 0x38)]
    let past₂ : List (UInt32 × UInt8) := [(199, 0x1D), (200, 0x2A), (201, 0x38)]
    let stream : List (UInt32 × UInt8) :=
      [(210, 0xAA), (211, 0x1F), (212, 0x9F), (213, 0x9D), (214, 0x1E)]
    (Machine.final scan boot past₁).shift = (Machine.final scan boot past₂).shift ∧
      Held (Machine.final scan boot past₁).shift ∧
      Machine.outputs scan (scan (Machine.final scan boot past₁) (202, 0x39)).1 stream =
        [0, 2500, 0, 0, 0x41] ∧
      Machine.outputs scan (scan (Machine.final scan boot past₂) (202, 0x39)).1 stream =
        [0, 2500, 0, 0, 0x61] := by
  refine ⟨by decide +kernel, ⟨?_, ?_, ?_, ?_⟩, by decide +kernel, by decide +kernel⟩
  all_goals decide +kernel

end Helpful
end Kbd
end Xv6
