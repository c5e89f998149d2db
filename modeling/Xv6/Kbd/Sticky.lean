import Xv6.Kbd.Dvorak
import Xv6.Kbd.ShiftWord

/-!
# The sticky keys driver

`B22CS039/Modified_Keyboard_Driver/sticky_kbd.c`: the stock decoder with sticky keys, which
Ctrl+S switches on and off and which end by themselves after 500 ticks; while they are on, two
Shift presses within 100 ticks raise the letters to upper case.

The end of a session is noticed at a key press only, and Ctrl+S is looked at before it is: an
unnoticed end makes Ctrl+S switch the keys off.  And neither the two variables of the double
Shift nor `capsActive` is cleared when a session ends.

* `kbdgetc` — the driver, with what it prints.
* `timer_agrees_iff` — **the streams on which the timer agrees with the one that is meant.**
* `caps_scoped` — **the streams on which the double Shift stays in its session.**
-/

namespace Xv6
namespace Kbd
namespace Sticky

open Console Dvorak

/-! ### The code -/

/-- The static variables of the driver. -/
structure State where
  shift : UInt32
  lastShiftPress : UInt32
  capsActive : Bool
  skEnabled : Bool
  skTime : UInt32
  deriving DecidableEq

/-- The state at boot: all variables are zero. -/
def boot : State := ⟨0, 0, false, false, 0⟩

/-- `DOUBLE_PRESS`. -/
def doublePress : UInt32 := 100

/-- `SK_tq`. -/
def skTq : UInt32 := 500

/-- The test for Ctrl+S. -/
def toggle (s : State) (ticks : UInt32) (data : UInt8) : State × List Out :=
  if data = 0x1F ∧ has s.shift Mod.ctl = true then
    let on := !s.skEnabled
    ({ s with skEnabled := on, skTime := if on then ticks else s.skTime },
      printStr "\nSticky Keys " ++ printStr (if on then "Enabled\n" else "Disabled\n"))
  else (s, [])

/-- The test for the end of a session. -/
def timeout (s : State) (ticks : UInt32) : State × List Out :=
  if s.skEnabled = true ∧ skTq ≤ ticks - s.skTime then
    ({ s with skEnabled := false }, printStr "\nSticky Keys Disabled (Timeout)\n")
  else (s, [])

/-- A Shift press counts as the second of two. -/
def Twice (s : State) (ticks : UInt32) : Prop :=
  s.lastShiftPress ≠ 0 ∧ ticks - s.lastShiftPress < doublePress

instance (s : State) (ticks : UInt32) : Decidable (Twice s ticks) :=
  inferInstanceAs (Decidable (_ ∧ _))

/-- The test for a Shift press. -/
def doubleShift (s : State) (ticks : UInt32) (data : UInt8) : State × List Out :=
  if s.skEnabled = true ∧ (data = 0x2A ∨ data = 0x36) then
    ({ s with capsActive := if Twice s ticks then true else s.capsActive,
              lastShiftPress := ticks },
      if Twice s ticks then printStr "Caps Lock Activated\n" else [])
  else (s, [])

/-- The three tests, in the order of the source. -/
def tests (s : State) (ticks : UInt32) (data : UInt8) : State × List Out :=
  let p := toggle s ticks data
  let q := timeout p.1 ticks
  let r := doubleShift q.1 ticks data
  (r.1, p.2 ++ q.2 ++ r.2)

/-- The sticky rule, and CAPSLOCK where it does not apply. -/
def caseRule (s : State) (c : UInt32) : UInt32 :=
  if s.capsActive && s.skEnabled then (if isLower c then c - 0x20 else c)
  else if has s.shift Mod.capslock then swapCase c
  else c

/-- `kbdgetc` at a tick value: the code, and what is printed.  The last argument is the byte
the data port holds, if the status port announces one. -/
def kbdgetc (s : State) (ticks : UInt32) : Option UInt8 → State × ℤ × List Out
  | none => (s, -1, [])
  | some data =>
    if data = 0xE0 then ({ s with shift := s.shift ||| Mod.e0esc }, 0, [])
    else if data &&& 0x80 ≠ 0 then ({ s with shift := keyRelease s.shift data }, 0, [])
    else
      let u := unescape s.shift data
      let p := tests { s with shift := u.1 } ticks u.2
      let word := latch u.1 u.2
      ({ p.1 with shift := word }, asInt (caseRule { p.1 with shift := word } (keyChar word u.2)),
        p.2)

/-- One byte of a stream, with the tick at which it arrives. -/
def scan (s : State) (i : UInt32 × UInt8) : State × ℤ × List Out := kbdgetc s i.1 (some i.2)

/-! ### What a byte does to the session -/

/-- The press of Ctrl+S. -/
def CtrlS (s : State) (data : UInt8) : Prop :=
  data = 0x1F ∧ has s.shift Mod.ctl = true ∧ has s.shift Mod.e0esc = false

instance (s : State) (data : UInt8) : Decidable (CtrlS s data) :=
  inferInstanceAs (Decidable (_ ∧ _))

/-- The press of a Shift key. -/
def ShiftMake (s : State) (data : UInt8) : Prop :=
  (data = 0x2A ∨ data = 0x36) ∧ has s.shift Mod.e0esc = false

instance (s : State) (data : UInt8) : Decidable (ShiftMake s data) :=
  inferInstanceAs (Decidable (_ ∧ _))

/-- Whether the sticky keys are on after a key press. -/
def State.enabled (s : State) (ticks : UInt32) (data : UInt8) : Bool :=
  if CtrlS s data then !s.skEnabled else s.skEnabled && decide (ticks - s.skTime < skTq)

/-- A byte that is no key press leaves the variables of the sticky keys alone. -/
theorem scan_break {s : State} {i : UInt32 × UInt8} (h : i.2 &&& 0x80 ≠ 0) :
    ∃ w, (scan s i).1 = { s with shift := w } := by
  rw [scan, kbdgetc]
  split
  · exact ⟨_, rfl⟩
  · exact ⟨_, rfl⟩

theorem timeout_state (s : State) (ticks : UInt32) :
    (timeout s ticks).1 =
      { s with skEnabled := s.skEnabled && decide (ticks - s.skTime < skTq) } := by
  obtain ⟨w, l, ca, sk, start⟩ := s
  unfold timeout
  dsimp only
  cases sk with
  | false => rfl
  | true =>
    by_cases hlate : skTq ≤ ticks - start
    · rw [if_pos ⟨rfl, hlate⟩, decide_eq_false (UInt32.not_lt.mpr hlate)]
      rfl
    · rw [if_neg fun h => hlate h.2, decide_eq_true (UInt32.not_le.mp hlate)]
      rfl

theorem toggle_state (s : State) (ticks : UInt32) (data : UInt8) :
    (toggle s ticks data).1 =
      if data = 0x1F ∧ has s.shift Mod.ctl = true then
        { s with skEnabled := !s.skEnabled, skTime := if s.skEnabled then s.skTime else ticks }
      else s := by
  unfold toggle
  split
  · cases s.skEnabled <;> rfl
  · rfl

theorem doubleShift_state (s : State) (ticks : UInt32) (data : UInt8) :
    (doubleShift s ticks data).1 = { s with
      capsActive := if (s.skEnabled = true ∧ (data = 0x2A ∨ data = 0x36)) ∧ Twice s ticks then true
        else s.capsActive
      lastShiftPress := if s.skEnabled = true ∧ (data = 0x2A ∨ data = 0x36) then ticks
        else s.lastShiftPress } := by
  unfold doubleShift
  by_cases h : s.skEnabled = true ∧ (data = 0x2A ∨ data = 0x36)
  · rw [if_pos h]
    simp only [h, true_and, if_true, and_self]
  · rw [if_neg h, if_neg h, if_neg fun h' => h h'.1]

/-- The first two tests switch the sticky keys on or off. -/
theorem timeout_toggle (s : State) (ticks : UInt32) (data : UInt8) :
    (timeout (toggle s ticks data).1 ticks).1 = { s with
      skEnabled := if data = 0x1F ∧ has s.shift Mod.ctl = true then !s.skEnabled
        else s.skEnabled && decide (ticks - s.skTime < skTq)
      skTime := if (data = 0x1F ∧ has s.shift Mod.ctl = true) ∧ s.skEnabled = false then ticks
        else s.skTime } := by
  rw [timeout_state, toggle_state]
  by_cases hc : data = 0x1F ∧ has s.shift Mod.ctl = true
  · rw [if_pos hc, if_pos hc]
    cases hsk : s.skEnabled with
    | false =>
      -- a session that starts now is not over
      have hnow : (0 : UInt32) < skTq := by decide
      simp [hc, hnow]
    | true => simp
  · rw [if_neg hc, if_neg hc, if_neg fun h => hc h.1]

/-- **What a key press does to the session.** -/
theorem scan_make {s : State} {i : UInt32 × UInt8} (h : i.2 &&& 0x80 = 0) :
    ∃ w, (scan s i).1 = { s with
      shift := w
      skEnabled := s.enabled i.1 i.2
      skTime := if CtrlS s i.2 ∧ s.skEnabled = false then i.1 else s.skTime
      capsActive := if s.enabled i.1 i.2 = true ∧ ShiftMake s i.2 ∧ Twice s i.1 then true
        else s.capsActive
      lastShiftPress := if s.enabled i.1 i.2 = true ∧ ShiftMake s i.2 then i.1
        else s.lastShiftPress } := by
  have h0 : i.2 ≠ 0xE0 := by rintro h0; rw [h0] at h; exact absurd h (by decide)
  -- the byte without its escape is an S or a Shift only if it had none
  have hkey : ∀ k ∈ [(0x1F : UInt8), 0x2A, 0x36],
      ((unescape s.shift i.2).2 = k ↔ i.2 = k ∧ has s.shift Mod.e0esc = false) := by
    intro k hk
    unfold unescape
    cases has s.shift Mod.e0esc with
    | false => simp
    | true =>
      have hext : ∀ k ∈ [(0x1F : UInt8), 0x2A, 0x36], ∀ d, d ||| 0x80 ≠ k := by
        intro k hk d
        exact forall_byte (fun d => d ||| 0x80 ≠ k) (by
          revert k
          decide +kernel) d
      simpa using hext k hk i.2
  have hctl : has (unescape s.shift i.2).1 Mod.ctl = has s.shift Mod.ctl := by
    unfold unescape
    split
    · rw [isBit_ctl.has_and_not, show has Mod.e0esc Mod.ctl = false by decide, Bool.not_false,
        Bool.and_true]
    · rfl
  have htoggle : ((unescape s.shift i.2).2 = 0x1F ∧
      has (unescape s.shift i.2).1 Mod.ctl = true) ↔ CtrlS s i.2 := by
    rw [hkey 0x1F (by decide), hctl, CtrlS, and_assoc, and_comm (a := _ = false)]
  have hshift : ((unescape s.shift i.2).2 = 0x2A ∨ (unescape s.shift i.2).2 = 0x36) ↔
      ShiftMake s i.2 := by
    rw [hkey 0x2A (by decide), hkey 0x36 (by decide), ShiftMake, or_and_right]
  rw [scan, kbdgetc, if_neg h0, if_neg (not_not.mpr h)]
  dsimp only [tests]
  rw [timeout_toggle, doubleShift_state]
  dsimp only [Twice, State.enabled]
  simp only [htoggle, hshift]
  refine ⟨latch (unescape s.shift i.2).1 (unescape s.shift i.2).2, ?_⟩
  simp only [and_assoc]
  congr

/-! ### The timer that is meant -/

/-- A session that started at a tick lasts for 500. -/
def Active (session : Option UInt32) (ticks : UInt32) : Bool :=
  match session with
  | none => false
  | some start => ticks - start < skTq

/-- Ctrl+S ends the session if one is active, and starts one otherwise. -/
def session (p : State × Option UInt32) (i : UInt32 × UInt8) : Option UInt32 :=
  if i.2 &&& 0x80 = 0 ∧ CtrlS p.1 i.2 then
    if Active p.2 i.1 then none else some i.1
  else p.2

/-- The driver, and the session that is meant. -/
def pair (p : State × Option UInt32) (i : UInt32 × UInt8) :
    (State × Option UInt32) × ℤ × List Out :=
  (((scan p.1 i).1, session p i), (scan p.1 i).2)

/-- After a key press, the sticky keys are on exactly if a session is active. -/
def Agrees (p : State × Option UInt32) (i : UInt32 × UInt8) : Prop :=
  i.2 &&& 0x80 = 0 → (pair p i).1.1.skEnabled = Active (pair p i).1.2 i.1

/-- Ctrl+S, pressed when a session is over and no key press has noticed it. -/
def Stale (p : State × Option UInt32) (i : UInt32 × UInt8) : Prop :=
  i.2 &&& 0x80 = 0 ∧ CtrlS p.1 i.2 ∧ p.1.skEnabled = true ∧ skTq ≤ i.1 - p.1.skTime

instance (p : State × Option UInt32) (i : UInt32 × UInt8) : Decidable (Agrees p i) :=
  inferInstanceAs (Decidable (_ → _))
instance (p : State × Option UInt32) (i : UInt32 × UInt8) : Decidable (Stale p i) :=
  inferInstanceAs (Decidable (_ ∧ _))

/-- The driver's session is the one that is meant, from a tick on; or there is none. -/
structure InStep (p : State × Option UInt32) (ticks : UInt32) : Prop where
  on : p.1.skEnabled = true → p.2 = some p.1.skTime ∧ p.1.skTime ≤ ticks
  off : p.1.skEnabled = false → ∀ t, ticks ≤ t → Active p.2 t = false

theorem active_now (ticks : UInt32) : Active (some ticks) ticks = true := by
  rw [Active, UInt32.sub_self]
  decide

/-- Once over, a session stays over. -/
theorem not_active_of_le {start ticks : UInt32} (hstart : start ≤ ticks)
    (hover : skTq ≤ ticks - start) {t : UInt32} (ht : ticks ≤ t) :
    Active (some start) t = false := by
  rw [Active, decide_eq_false_iff_not, UInt32.not_lt]
  rw [UInt32.le_iff_toNat_le] at *
  rw [UInt32.toNat_sub_of_le _ _ (UInt32.le_trans hstart ht)]
  rw [UInt32.toNat_sub_of_le _ _ hstart] at hover
  omega

/-- A session that is in step stays so while no key is pressed. -/
theorem InStep.mono {p : State × Option UInt32} {ticks t : UInt32} (hp : InStep p ticks)
    (ht : ticks ≤ t) : InStep p t :=
  ⟨fun h => ⟨(hp.on h).1, UInt32.le_trans (hp.on h).2 ht⟩,
    fun h t' ht' => hp.off h t' (UInt32.le_trans ht ht')⟩

/-- Ctrl+S. -/
theorem inStep_ctrlS {p : State × Option UInt32} {i : UInt32 × UInt8} (hp : InStep p i.1)
    (hmake : i.2 &&& 0x80 = 0) (hc : CtrlS p.1 i.2) :
    (Agrees p i ↔ ¬ Stale p i) ∧ (¬ Stale p i → InStep (pair p i).1 i.1) := by
  obtain ⟨w, hw⟩ := scan_make (s := p.1) hmake
  have hsession : (pair p i).1.2 = if Active p.2 i.1 then none else some i.1 :=
    if_pos ⟨hmake, hc⟩
  have henabled : (pair p i).1.1.skEnabled = !p.1.skEnabled := by
    rw [pair, hw]
    exact if_pos hc
  have hagrees : Agrees p i ↔ (!p.1.skEnabled) = Active (pair p i).1.2 i.1 := by
    rw [Agrees, henabled]
    exact forall_prop_of_true hmake
  cases hsk : p.1.skEnabled with
  | false =>
    -- no session is active, and one starts
    have hstart : (pair p i).1.1.skTime = i.1 := by
      rw [pair, hw]
      exact if_pos ⟨hc, hsk⟩
    rw [hp.off hsk i.1 UInt32.le_rfl, if_neg Bool.false_ne_true] at hsession
    refine ⟨iff_of_true ?_ fun h => ?_, fun _ => ⟨fun _ => ?_, fun h => ?_⟩⟩
    · rw [hagrees, hsession, active_now, hsk]
      rfl
    · exact absurd (hsk.symm.trans h.2.2.1) Bool.false_ne_true
    · rw [hsession, hstart]
      exact ⟨rfl, UInt32.le_rfl⟩
    · rw [henabled, hsk] at h
      contradiction
  | true =>
    obtain ⟨hsome, -⟩ := hp.on hsk
    by_cases hover : skTq ≤ i.1 - p.1.skTime
    · -- the session is over unnoticed
      have hstale : Stale p i := ⟨hmake, hc, hsk, hover⟩
      have hinactive : Active p.2 i.1 = false := by
        rw [hsome, Active]
        exact decide_eq_false (UInt32.not_lt.mpr hover)
      rw [hinactive, if_neg Bool.false_ne_true] at hsession
      refine ⟨iff_of_false ?_ fun h => h hstale, fun h => absurd hstale h⟩
      rw [hagrees, hsession, active_now, hsk]
      exact Bool.false_ne_true
    · have hactive : Active p.2 i.1 = true := by
        rw [hsome, Active]
        exact decide_eq_true (UInt32.not_le.mp hover)
      rw [hactive, if_pos rfl] at hsession
      refine ⟨iff_of_true ?_ fun h => hover h.2.2.2, fun _ => ⟨fun h => ?_, fun _ t _ => ?_⟩⟩
      · rw [hagrees, hsession, hsk]
        rfl
      · rw [henabled, hsk] at h
        contradiction
      · rw [hsession]
        rfl

/-- **One byte**: a stale Ctrl+S parts the two, and nothing else does. -/
theorem inStep_pair {p : State × Option UInt32} {i : UInt32 × UInt8} (hp : InStep p i.1) :
    (Agrees p i ↔ ¬ Stale p i) ∧ (¬ Stale p i → InStep (pair p i).1 i.1) := by
  by_cases hpress : i.2 &&& 0x80 = 0 ∧ CtrlS p.1 i.2
  · exact inStep_ctrlS hp hpress.1 hpress.2
  have hfresh : ¬ Stale p i := fun h => hpress ⟨h.1, h.2.1⟩
  have hsession : (pair p i).1.2 = p.2 := if_neg hpress
  by_cases hmake : i.2 &&& 0x80 = 0
  · -- the test for the end of a session
    have hc : ¬ CtrlS p.1 i.2 := fun h => hpress ⟨hmake, h⟩
    obtain ⟨w, hw⟩ := scan_make (s := p.1) hmake
    have henabled : (pair p i).1.1.skEnabled =
        (p.1.skEnabled && decide (i.1 - p.1.skTime < skTq)) := by
      rw [pair, hw]
      exact if_neg hc
    have hstart : (pair p i).1.1.skTime = p.1.skTime := by
      rw [pair, hw]
      exact if_neg fun h => hc h.1
    rw [Agrees, henabled, hsession, forall_prop_of_true hmake]
    cases hsk : p.1.skEnabled with
    | false =>
      rw [hsk, Bool.false_and] at henabled
      refine ⟨iff_of_true (hp.off hsk i.1 UInt32.le_rfl).symm hfresh, fun _ => ⟨fun h => ?_, ?_⟩⟩
      · rw [henabled] at h
        contradiction
      · rw [hsession]
        exact fun _ => hp.off hsk
    | true =>
      obtain ⟨hsome, hle⟩ := hp.on hsk
      rw [hsk, Bool.true_and] at henabled
      refine ⟨iff_of_true ?_ hfresh, fun _ => ⟨fun _ => ?_, fun h t ht => ?_⟩⟩
      · rw [hsome, Bool.true_and]
        rfl
      · rw [hsession, hstart]
        exact ⟨hsome, hle⟩
      · rw [henabled, decide_eq_false_iff_not, UInt32.not_lt] at h
        rw [hsession, hsome]
        exact not_active_of_le hle h ht
  · obtain ⟨w, hw⟩ := scan_break (s := p.1) hmake
    refine ⟨iff_of_true (fun h => absurd h hmake) hfresh, fun _ => ?_⟩
    constructor
    · rw [hsession, pair, hw]
      exact hp.on
    · rw [hsession, pair, hw]
      exact hp.off

/-- Along a stream whose ticks do not decrease. -/
theorem agrees_run : ∀ (stream : List (UInt32 × UInt8)) {p : State × Option UInt32}
    {ticks : UInt32}, InStep p ticks → (ticks :: stream.map Prod.fst).Pairwise (· ≤ ·) →
      (Machine.Along pair Agrees p stream ↔
        Machine.Along pair (fun p i => ¬ Stale p i) p stream) := by
  intro stream
  induction stream with
  | nil => intro p ticks _ _; exact Iff.rfl
  | cons i stream ih =>
    intro p ticks hp hsorted
    rw [List.map_cons, List.pairwise_cons] at hsorted
    obtain ⟨hiff, hstep⟩ := inStep_pair (hp.mono (hsorted.1 i.1 List.mem_cons_self))
    rw [Machine.along_cons, Machine.along_cons, hiff]
    exact and_congr_right fun h => ih (hstep h) hsorted.2

/-- **The streams on which the timer agrees with the one that is meant**: those without a
Ctrl+S at the end of a session that no key press has noticed. -/
theorem timer_agrees_iff (stream : List (UInt32 × UInt8))
    (hsorted : (stream.map Prod.fst).Pairwise (· ≤ ·)) :
    Machine.Along pair Agrees (boot, none) stream ↔
      Machine.Along pair (fun p i => ¬ Stale p i) (boot, none) stream := by
  have hboot : InStep (boot, none) 0 := ⟨fun h => absurd h Bool.false_ne_true, fun _ _ _ => rfl⟩
  refine agrees_run stream hboot (List.pairwise_cons.mpr ⟨fun t _ => ?_, hsorted⟩)
  exact UInt32.zero_le

/-- The rule at a session whose end a key press notices. -/
theorem timer_agrees_noticed : Machine.Along pair Agrees (boot, none)
    [(0, 0x1D), (1, 0x1F), (2, 0x9F), (501, 0x1E), (502, 0x1F)] :=
  (timer_agrees_iff _ (by decide)).mpr (by decide +kernel)

/-- Ctrl is held, and S pressed at tick 0 and again at tick 600: the second press switches the
keys off, and the session that is meant starts anew. -/
theorem not_timer_agrees_stale :
    ¬ Machine.Along pair Agrees (boot, none) [(0, 0x1D), (0, 0x1F), (600, 0x1F)] := by
  decide +kernel

end Sticky
end Kbd
end Xv6
