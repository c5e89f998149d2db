import Xv6.Kbd.Sticky

/-!
# Sticky caps and their session

A double Shift is meant to raise the letters of the session it was pressed in.  The driver
keeps `capsActive` when a session ends, and so the next one starts with it; and it keeps
`last_shift_press`, so that the first Shift press of the next one may count as the second.

* `Scoped` — what the double Shift is for; `watch` — the Shift presses since Ctrl+S.
* `armed_iff_fresh` — the streams on which only a double Shift of the session counts.
* `caps_scoped` — **on these streams the double Shift stays in its session.**
-/

namespace Xv6
namespace Kbd
namespace Sticky

open Console

/-! ### Sessions and their Shift presses -/

/-- Ctrl+S switches the sticky keys on. -/
def Enables (s : State) (i : UInt32 × UInt8) : Prop :=
  i.2 &&& 0x80 = 0 ∧ CtrlS s i.2 ∧ s.skEnabled = false

/-- A lower-case letter is raised by the sticky rule. -/
def Converts (s : State) (i : UInt32 × UInt8) : Prop :=
  i.2 &&& 0x80 = 0 ∧ isLower (pressChar s.shift i.2) = true ∧
    (scan s i).1.capsActive = true ∧ (scan s i).1.skEnabled = true

instance (s : State) (i : UInt32 × UInt8) : Decidable (Enables s i) :=
  inferInstanceAs (Decidable (_ ∧ _))
instance (s : State) (i : UInt32 × UInt8) : Decidable (Converts s i) :=
  inferInstanceAs (Decidable (_ ∧ _))

/-- The code of a letter that is raised. -/
theorem scan_converts {s : State} {i : UInt32 × UInt8} (h : Converts s i) :
    (scan s i).2.1 = asInt (pressChar s.shift i.2 - 0x20) := by
  obtain ⟨hmake, hlower, hcaps, hon⟩ := h
  have h0 : i.2 ≠ 0xE0 := by rintro h0; rw [h0] at hmake; exact absurd hmake (by decide)
  rw [scan, kbdgetc, if_neg h0, if_neg (not_not.mpr hmake)] at hcaps hon ⊢
  dsimp only at hcaps hon ⊢
  rw [caseRule, hcaps, hon]
  exact congrArg asInt (if_pos hlower)

/-- The driver, and the ticks of the Shift presses since the sticky keys were switched on, the
last one first. -/
def watch (p : State × List UInt32) (i : UInt32 × UInt8) :
    (State × List UInt32) × ℤ × List Out :=
  (((scan p.1 i).1,
    if Enables p.1 i then [] else if ShiftMake p.1 i.2 then i.1 :: p.2 else p.2), (scan p.1 i).2)

/-- Two of the presses are less than 100 ticks apart. -/
def Double (presses : List UInt32) : Prop :=
  ∃ first second, [second, first].Sublist presses ∧ second - first < doublePress

/-- A letter is raised only behind a double Shift of the session, and a session starts without
caps. -/
def Scoped (p : State × List UInt32) (i : UInt32 × UInt8) : Prop :=
  (Converts p.1 i → Double (watch p i).1.2) ∧
    (Enables p.1 i → (watch p i).1.1.capsActive = false)

/-- The sticky rule is ready only behind a double Shift of the session, and a session starts
without caps. -/
def Armed (p : State × List UInt32) (i : UInt32 × UInt8) : Prop :=
  ((watch p i).1.1.capsActive = true → (watch p i).1.1.skEnabled = true →
      Double (watch p i).1.2) ∧
    (Enables p.1 i → (watch p i).1.1.capsActive = false)

/-- No session starts while `capsActive` is set, and the first Shift press of a session does
not count as a second one. -/
def Fresh (p : State × List UInt32) (i : UInt32 × UInt8) : Prop :=
  (Enables p.1 i → p.1.capsActive = false) ∧
    (i.2 &&& 0x80 = 0 → ShiftMake p.1 i.2 → p.1.enabled i.1 i.2 = true → p.2 = [] →
      ¬ Twice p.1 i.1)

instance (p : State × List UInt32) (i : UInt32 × UInt8) : Decidable (Fresh p i) :=
  inferInstanceAs (Decidable ((_ → _) ∧ (_ → _ → _ → _ → _)))

/-- In a session, `capsActive` comes from a double Shift, and `last_shift_press` is its last
Shift press. -/
structure InSession (p : State × List UInt32) : Prop where
  double : p.1.capsActive = true → Double p.2
  last : ∀ t presses, p.2 = t :: presses → p.1.lastShiftPress = t

theorem not_double_nil : ¬ Double [] := by
  rintro ⟨a, b, h, -⟩
  simp at h

theorem not_double_singleton (t : UInt32) : ¬ Double [t] := by
  rintro ⟨a, b, h, -⟩
  have hlen := h.length_le
  simp at hlen

theorem Double.cons {presses : List UInt32} (h : Double presses) (t : UInt32) :
    Double (t :: presses) := by
  obtain ⟨a, b, hsub, hnear⟩ := h
  exact ⟨a, b, hsub.cons t, hnear⟩

/-- Ctrl+S starts a session with what `capsActive` was. -/
theorem watch_enables {p : State × List UInt32} {i : UInt32 × UInt8} (h : Enables p.1 i) :
    (watch p i).1.1.capsActive = p.1.capsActive ∧ (watch p i).1.2 = [] := by
  obtain ⟨w, hw⟩ := scan_make (s := p.1) h.1
  have hshift : ¬ ShiftMake p.1 i.2 := by
    rintro ⟨hkey, -⟩
    rw [h.2.1.1] at hkey
    exact absurd hkey (by decide)
  refine ⟨?_, if_pos h⟩
  rw [watch, hw]
  exact if_neg fun h' => hshift h'.2.1

/-- A key press that leaves the sticky keys on, other than Ctrl+S, found them on. -/
theorem on_of_enabled {s : State} {i : UInt32 × UInt8} (hmake : i.2 &&& 0x80 = 0)
    (h : s.enabled i.1 i.2 = true) (hno : ¬ Enables s i) : s.skEnabled = true := by
  unfold State.enabled at h
  split at h
  · next hc =>
    by_contra hoff
    exact hno ⟨hmake, hc, Bool.not_eq_true _ ▸ hoff⟩
  · exact ((Bool.and_eq_true _ _).mp h).1

/-- **One byte.**  The sticky rule is armed by a double Shift of the session exactly if the
byte is `Fresh`, and then the session goes on as it should. -/
theorem inSession_watch {p : State × List UInt32} {i : UInt32 × UInt8}
    (hp : p.1.skEnabled = true → InSession p) :
    (Armed p i ↔ Fresh p i) ∧
      (Fresh p i → (watch p i).1.1.skEnabled = true → InSession (watch p i).1) := by
  by_cases henables : Enables p.1 i
  · -- a session starts
    obtain ⟨hcaps, hnil⟩ := watch_enables henables
    have hshift : ¬ ShiftMake p.1 i.2 := by
      rintro ⟨hkey, -⟩
      rw [henables.2.1.1] at hkey
      exact absurd hkey (by decide)
    have hfresh : Fresh p i ↔ p.1.capsActive = false :=
      ⟨fun h => h.1 henables, fun h => ⟨fun _ => h, fun _ h' => absurd h' hshift⟩⟩
    refine ⟨?_, fun h _ => ⟨fun hon => ?_, fun t presses hcons => ?_⟩⟩
    · rw [hfresh, Armed, hcaps, hnil]
      refine ⟨fun h => h.2 henables, fun h => ⟨fun hon => ?_, fun _ => h⟩⟩
      rw [h] at hon
      contradiction
    · rw [hcaps, h.1 henables] at hon
      contradiction
    · rw [hnil] at hcons
      contradiction
  by_cases hmake : i.2 &&& 0x80 = 0
  rotate_left
  · -- no key press
    obtain ⟨w, hw⟩ := scan_break (s := p.1) hmake
    have hshift : ¬ ShiftMake p.1 i.2 := by
      rintro ⟨h | h, -⟩
      · rw [h] at hmake; exact hmake (by decide)
      · rw [h] at hmake; exact hmake (by decide)
    have hwatch : (watch p i).1 = ({ p.1 with shift := w }, p.2) := by
      rw [watch, hw, if_neg henables, if_neg hshift]
    have hfresh : Fresh p i := ⟨fun h => absurd h henables, fun h => absurd h hmake⟩
    rw [Armed, hwatch]
    exact ⟨iff_of_true ⟨fun hcaps hon => (hp hon).double hcaps, fun h => absurd h henables⟩ hfresh,
      fun _ hon => ⟨(hp hon).double, (hp hon).last⟩⟩
  obtain ⟨w, hw⟩ := scan_make (s := p.1) hmake
  have hon : (watch p i).1.1.skEnabled = p.1.enabled i.1 i.2 := by rw [watch, hw]
  cases henabled : p.1.enabled i.1 i.2 with
  | false =>
    rw [henabled] at hon
    have hoff : ¬ (watch p i).1.1.skEnabled = true := by rw [hon]; exact Bool.false_ne_true
    refine ⟨iff_of_true ⟨fun _ h => absurd h hoff, fun h => absurd h henables⟩
      ⟨fun h => absurd h henables, fun _ _ h => ?_⟩, fun _ h => absurd h hoff⟩
    rw [henabled] at h
    contradiction
  | true =>
    have hsession : InSession p := hp (on_of_enabled hmake henabled henables)
    by_cases hshift : ShiftMake p.1 i.2
    · -- a Shift press
      have hpresses : (watch p i).1.2 = i.1 :: p.2 := by
        rw [watch, if_neg henables, if_pos hshift]
      have hcaps : (watch p i).1.1.capsActive =
          if Twice p.1 i.1 then true else p.1.capsActive := by
        rw [watch, hw]
        simp only [henabled, hshift, true_and]
      have hlast : (watch p i).1.1.lastShiftPress = i.1 := by
        rw [watch, hw]
        exact if_pos ⟨henabled, hshift⟩
      have harmed : Armed p i ↔ ((watch p i).1.1.capsActive = true → Double (i.1 :: p.2)) := by
        rw [Armed, hpresses, hon, henabled]
        exact ⟨fun h hc => h.1 hc rfl, fun h => ⟨fun hc _ => h hc, fun h' => absurd h' henables⟩⟩
      have hfresh : Fresh p i ↔ (p.2 = [] → ¬ Twice p.1 i.1) :=
        ⟨fun h => h.2 hmake hshift henabled,
          fun h => ⟨fun h' => absurd h' henables, fun _ _ _ => h⟩⟩
      have hiff : Armed p i ↔ Fresh p i := by
        rw [harmed, hfresh, hcaps]
        rcases hpresses' : p.2 with _ | ⟨t, presses⟩
        · -- the first of its session
          have hoff : p.1.capsActive = false := by
            rw [← Bool.not_eq_true]
            intro hc
            have hdouble := hsession.double hc
            rw [hpresses'] at hdouble
            exact not_double_nil hdouble
          rw [hoff]
          by_cases htwice : Twice p.1 i.1
          · rw [if_pos htwice]
            exact iff_of_false (fun h => not_double_singleton i.1 (h rfl))
              fun h => h rfl htwice
          · rw [if_neg htwice]
            exact iff_of_true (fun h => absurd h Bool.false_ne_true) fun _ => htwice
        · refine iff_of_true (fun hc => ?_) fun h => absurd h (List.cons_ne_nil t presses)
          by_cases htwice : Twice p.1 i.1
          · have hnear := htwice.2
            rw [hsession.last t presses hpresses'] at hnear
            exact ⟨t, i.1, List.Sublist.cons_cons i.1
              (List.Sublist.cons_cons t (List.nil_sublist presses)), hnear⟩
          · rw [if_neg htwice] at hc
            rw [← hpresses']
            exact (hsession.double hc).cons i.1
      refine ⟨hiff, fun h _ => ⟨fun hc => ?_, fun t presses hcons => ?_⟩⟩
      · rw [hpresses]
        exact harmed.mp (hiff.mpr h) hc
      · rw [hpresses, List.cons.injEq] at hcons
        rw [hlast, hcons.1]
    · have hwatch : (watch p i).1.2 = p.2 ∧ (watch p i).1.1.capsActive = p.1.capsActive ∧
          (watch p i).1.1.lastShiftPress = p.1.lastShiftPress := by
        refine ⟨?_, ?_, ?_⟩
        · rw [watch, if_neg henables, if_neg hshift]
        · rw [watch, hw]
          exact if_neg fun h => hshift h.2.1
        · rw [watch, hw]
          exact if_neg fun h => hshift h.2
      obtain ⟨hpresses, hcaps, hlast⟩ := hwatch
      refine ⟨iff_of_true ⟨fun hc _ => ?_, fun h => absurd h henables⟩
        ⟨fun h => absurd h henables, fun _ h => absurd h hshift⟩, fun _ _ => ⟨?_, ?_⟩⟩
      · rw [hcaps] at hc
        rw [hpresses]
        exact hsession.double hc
      · rw [hcaps, hpresses]
        exact hsession.double
      · rw [hlast, hpresses]
        exact hsession.last

/-- **The streams on which only a double Shift of the session counts.** -/
theorem armed_iff_fresh : ∀ (stream : List (UInt32 × UInt8)) {p : State × List UInt32},
    (p.1.skEnabled = true → InSession p) →
      (Machine.Along watch Armed p stream ↔ Machine.Along watch Fresh p stream) := by
  intro stream p hp
  refine Machine.along_congr (fun p => p.1.skEnabled = true → InSession p) ?_ ?_ stream p hp
  · intro p i hp h
    exact (inSession_watch hp).2 ((inSession_watch hp).1.mp h)
  · exact fun p i hp => (inSession_watch hp).1

/-- What arms the sticky rule is what raises a letter. -/
theorem Armed.scoped {p : State × List UInt32} {i : UInt32 × UInt8} (h : Armed p i) :
    Scoped p i := ⟨fun hc => h.1 hc.2.2.1 hc.2.2.2, h.2⟩

/-- **The double Shift stays in its session** on every stream from boot along which no session
starts while `capsActive` is set, and no first Shift press of a session counts as a second. -/
theorem caps_scoped (stream : List (UInt32 × UInt8))
    (h : Machine.Along watch Fresh (boot, []) stream) :
    Machine.Along watch Scoped (boot, []) stream := by
  have harmed := (armed_iff_fresh stream fun h => absurd h Bool.false_ne_true).mpr h
  exact Machine.Along.mono (fun p i h => Armed.scoped h) stream _ harmed

/-- The rule at a session with a double Shift and the letter `A`. -/
theorem caps_scoped_double : Machine.Along watch Scoped (boot, [])
    [(0, 0x1D), (1, 0x1F), (2, 0x9D), (10, 0x2A), (20, 0x2A), (21, 0xAA), (30, 0x1E)] :=
  caps_scoped _ (by decide +kernel)

/-- A double Shift in one session, which Ctrl+S ends: the next session starts with caps, and
raises a letter before any Shift press. -/
theorem not_scoped_caps :
    ¬ Machine.Along watch Scoped (boot, [])
      [(0, 0x1D), (1, 0x1F), (10, 0x2A), (20, 0x2A), (21, 0xAA), (30, 0x1F), (31, 0x1F), (32, 0x9D),
        (40, 0x1E)] := by
  rintro ⟨-, -, -, -, -, -, -, -, hletter, -⟩
  have hdouble := hletter.1 (by decide +kernel)
  have hnone : (watch (Machine.final watch (boot, []) [(0, 0x1D), (1, 0x1F), (10, 0x2A), (20, 0x2A),
      (21, 0xAA), (30, 0x1F), (31, 0x1F), (32, 0x9D)]) (40, 0x1E)).1.2 = [] := by decide +kernel
  exact not_double_nil (hnone ▸ hdouble)

end Sticky
end Kbd
end Xv6
