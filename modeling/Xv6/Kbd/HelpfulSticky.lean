import Xv6.Kbd.HelpfulReset

/-!
# The timer of the sticky keys of the Helpful driver

Ctrl+S returns before it records the tick: `sk_time` keeps the zero it has at boot, and the
sticky keys time out at tick 500, whenever they were switched on.  The test stands at the end
of the chain, where neither an `E0`-prefixed key nor the guide chord arrives.

* `Timely` — the timer as it is meant; `Checked` — the presses that reach the test.
* `timer_iff` — **the presses after which the timer is right.**
-/

namespace Xv6
namespace Kbd
namespace Helpful

/-! ### The presses that reach the test -/

/-- Ctrl+S. -/
def StickyChord (s : State) (data : UInt8) : Prop :=
  has s.shift Mod.ctl = true ∧ has s.shift Mod.shift = false ∧ has s.shift Mod.e0esc = false ∧
    data = 0x1F

/-- The reset chord. -/
def ResetChord (s : State) (data : UInt8) : Prop :=
  chord s data 0x39 = true ∧ has s.shift Mod.alt = true ∧ has s.shift Mod.e0esc = false

/-- A key press that is no chord and has no `E0` prefix. -/
def Checked (s : State) (data : UInt8) : Prop :=
  data &&& 0x80 = 0 ∧ has s.shift Mod.e0esc = false ∧ chord s data 0x23 = false ∧
    ¬ ModeChord s data

instance (s : State) (data : UInt8) : Decidable (StickyChord s data) :=
  inferInstanceAs (Decidable (_ ∧ _))
instance (s : State) (data : UInt8) : Decidable (ResetChord s data) :=
  inferInstanceAs (Decidable (_ ∧ _))
instance (s : State) (data : UInt8) : Decidable (Checked s data) :=
  inferInstanceAs (Decidable (_ ∧ _))

theorem skEnabled_tick (s : State) (ticks : UInt32) (data : UInt8) :
    (s.tick ticks data).skEnabled = (s.skEnabled && decide (ticks - s.skTime < skTq)) := by
  have hlive : decide (ticks - s.skTime < skTq) = !decide (skTq ≤ ticks - s.skTime) := by
    rw [← decide_not]
    exact decide_eq_decide.mpr UInt32.not_le.symm
  rw [hlive, State.tick]
  cases hon : s.skEnabled with
  | false => rw [Bool.false_and, if_neg Bool.false_ne_true]; exact hon
  | true =>
    cases hlate : decide (skTq ≤ ticks - s.skTime) with
    | true => rfl
    | false =>
      rw [Bool.true_and, if_neg Bool.false_ne_true]
      split
      · rfl
      · exact hon

/-- **What a byte does to the sticky keys**, other than Ctrl+S and the reset chord. -/
theorem skEnabled_scan {s : State} {data : UInt8} (hsticky : ¬ StickyChord s data)
    (hreset : ¬ ResetChord s data) (ticks : UInt32) :
    (scan s (ticks, data)).1.skEnabled =
      if Checked s data then s.skEnabled && decide (ticks - s.skTime < skTq)
      else s.skEnabled := by
  rw [scan_frame State.skEnabled (fun _ _ _ _ _ => rfl)]
  have hbranch := chords_branch s ticks data
  generalize chords s ticks data = c at hbranch ⊢
  -- the chords do not reach the test
  have hchord : ModeChord s data → s.skEnabled =
      if Checked s data then s.skEnabled && decide (ticks - s.skTime < skTq)
      else s.skEnabled := fun h => (if_neg fun hc => hc.2.2.2 h).symm
  have hbreak : data &&& 0x80 ≠ 0 → s.skEnabled =
      if Checked s data then s.skEnabled && decide (ticks - s.skTime < skTq)
      else s.skEnabled := fun h => (if_neg fun hc => h hc.1).symm
  cases hbranch with
  | guide h => exact (if_neg fun hc => by rw [hc.2.2.1] at h; contradiction).symm
  | escape h => exact hbreak (by rw [h]; decide)
  | upAgain h => exact hbreak (by rw [h]; decide)
  | up h => exact hbreak (by rw [h]; decide)
  | release h0 h2 h => exact hbreak h
  | extended hH h he => exact (if_neg fun hc => by rw [hc.2.1] at he; contradiction).symm
  | pascal hp h => exact hchord ⟨hp.plain, .inl h⟩
  | camel hp h => exact hchord ⟨hp.plain, .inr (.inl h)⟩
  | snake hp h =>
    obtain ⟨hctl, -, rfl⟩ := chord_eq_true.mp h
    exact hchord (.of_ctl hp hctl (by decide))
  | devil hp h =>
    obtain ⟨hctl, -, rfl⟩ := chord_eq_true.mp h
    exact hchord (.of_ctl hp hctl (by decide))
  | encryption hp hctl h => exact hchord (.of_ctl hp hctl (by simp [h]))
  | reset hp h halt => exact absurd ⟨h, halt, hp.plain⟩ hreset
  | sticky hp hctl hshift h => exact absurd ⟨hctl, hshift, hp.plain, h⟩ hsticky
  | dvorak hp hctl hshift h => exact hchord (.of_ctl hp hctl (by simp [h]))
  | press hp hH hno =>
    rw [if_pos ⟨hp.make, hp.plain, hH, hno⟩]
    exact skEnabled_tick s ticks data

/-! ### The timer -/

/-- After a key press outside the mode chords, the sticky keys are on exactly if they were
switched on less than 500 ticks ago. -/
def Timely (start : UInt32) (s : State) (i : UInt32 × UInt8) : Prop :=
  i.2 &&& 0x80 = 0 → ¬ ModeChord s i.2 →
    ((scan s i).1.skEnabled = true ↔ i.1 - start < skTq)

/-- The driver, and whether a press reached the test at tick 500 or later. -/
def watchTimer (p : State × Bool) (i : UInt32 × UInt8) : (State × Bool) × ℤ :=
  (((scan p.1 i).1, p.2 || decide (Checked p.1 i.2 ∧ skTq ≤ i.1)), (scan p.1 i).2)

/-- The presses after which the timer is right.  A press that reaches the test must fall on
the same side of tick 500 as it does of the 500 ticks that were meant; for another it counts
whether an earlier one reached the test at tick 500 or later. -/
def Due (start : UInt32) (p : State × Bool) (i : UInt32 × UInt8) : Prop :=
  i.2 &&& 0x80 = 0 → ¬ ModeChord p.1 i.2 →
    if Checked p.1 i.2 then (i.1 < skTq ↔ i.1 - start < skTq)
    else (p.2 = false ↔ i.1 - start < skTq)

instance (start : UInt32) (s : State) (i : UInt32 × UInt8) : Decidable (Timely start s i) :=
  inferInstanceAs (Decidable (_ → _ → _))
instance (start : UInt32) (p : State × Bool) (i : UInt32 × UInt8) : Decidable (Due start p i) :=
  inferInstanceAs (Decidable (_ → _ → _))

/-- The timer runs from boot on: it is over once a press reached the test at tick 500. -/
structure Running (p : State × Bool) (ticks : UInt32) : Prop where
  skTime : p.1.skTime = 0
  on : p.1.skEnabled = !p.2
  late : p.2 = true → skTq ≤ ticks

/-- One byte, at a tick not before those of the bytes in front of it. -/
theorem running_step (start : UInt32) {p : State × Bool} {i : UInt32 × UInt8}
    (hp : Running p i.1) (hreached : Reached (scan p.1 i).1) (hsticky : ¬ StickyChord p.1 i.2)
    (hreset : ¬ ResetChord p.1 i.2) :
    Running (watchTimer p i).1 i.1 ∧ (Timely start p.1 i ↔ Due start p i) := by
  have hscan : (scan p.1 i).1.skEnabled =
      if Checked p.1 i.2 then p.1.skEnabled && decide (i.1 - p.1.skTime < skTq)
      else p.1.skEnabled := skEnabled_scan hsticky hreset i.1
  rw [hp.skTime, UInt32.sub_zero, hp.on] at hscan
  by_cases hc : Checked p.1 i.2
  · -- the press reaches the test
    rw [if_pos hc] at hscan
    have hon : (scan p.1 i).1.skEnabled = decide (i.1 < skTq) := by
      rw [hscan]
      cases hlate : p.2 with
      | false => rfl
      | true => exact (decide_eq_false (UInt32.not_lt.mpr (hp.late hlate))).symm
    have hnow : (p.2 || decide (Checked p.1 i.2 ∧ skTq ≤ i.1)) = decide (skTq ≤ i.1) := by
      rw [Bool.eq_iff_iff, Bool.or_eq_true, decide_eq_true_eq, decide_eq_true_eq, and_iff_right hc]
      exact or_iff_right_of_imp hp.late
    refine ⟨⟨hreached.skTime, ?_, ?_⟩, ?_⟩
    · show (scan p.1 i).1.skEnabled = !(p.2 || decide (Checked p.1 i.2 ∧ skTq ≤ i.1))
      rw [hon, hnow, ← decide_not]
      exact decide_eq_decide.mpr UInt32.not_le.symm
    · show (p.2 || decide (Checked p.1 i.2 ∧ skTq ≤ i.1)) = true → _
      rw [hnow]
      exact of_decide_eq_true
    · rw [Timely, Due, if_pos hc, hon, decide_eq_true_eq]
  · rw [if_neg hc] at hscan
    have hnow : (p.2 || decide (Checked p.1 i.2 ∧ skTq ≤ i.1)) = p.2 := by
      rw [decide_eq_false fun h => hc h.1, Bool.or_false]
    refine ⟨⟨hreached.skTime, ?_, ?_⟩, ?_⟩
    · show (scan p.1 i).1.skEnabled = !(p.2 || decide (Checked p.1 i.2 ∧ skTq ≤ i.1))
      rw [hscan, hnow]
    · show (p.2 || decide (Checked p.1 i.2 ∧ skTq ≤ i.1)) = true → _
      rw [hnow]
      exact hp.late
    · rw [Timely, Due, if_neg hc, hscan, Bool.not_eq_true']

/-- The timer along a stream whose ticks do not decrease. -/
theorem timer_run {start : UInt32} : ∀ (stream : List (UInt32 × UInt8)) {p : State × Bool}
    {ticks : UInt32}, Running p ticks → Reached p.1 →
      (ticks :: stream.map Prod.fst).Pairwise (· ≤ ·) →
      Machine.Along scan (fun s i => ¬ StickyChord s i.2 ∧ ¬ ResetChord s i.2) p.1 stream →
      (Machine.Along scan (Timely start) p.1 stream ↔
        Machine.Along watchTimer (Due start) p stream) := by
  intro stream
  induction stream with
  | nil => intro p ticks _ _ _ _; exact Iff.rfl
  | cons i stream ih =>
    intro p ticks hp hreached hsorted hquiet
    rw [Machine.along_cons] at hquiet
    rw [List.map_cons, List.pairwise_cons] at hsorted
    have hle : ticks ≤ i.1 := hsorted.1 i.1 List.mem_cons_self
    have hp' : Running p i.1 := ⟨hp.skTime, hp.on, fun h => UInt32.le_trans (hp.late h) hle⟩
    have hreached' := reached_scan p.1 i hreached
    obtain ⟨hstep, hiff⟩ := running_step start hp' hreached' hquiet.1.1 hquiet.1.2
    rw [Machine.along_cons, Machine.along_cons]
    exact and_congr hiff (ih hstep hreached' hsorted.2 hquiet.2)

/-- **The presses after which the timer is right**: Ctrl+S switches the sticky keys on at the
tick `start`, and neither Ctrl+S nor the reset chord follows. -/
theorem timer_iff (past stream : List (UInt32 × UInt8)) (start : UInt32)
    (hsticky : StickyChord (Machine.final scan boot past) 0x1F)
    (hoff : (Machine.final scan boot past).skEnabled = false)
    (hsorted : (start :: stream.map Prod.fst).Pairwise (· ≤ ·))
    (hquiet : Machine.Along scan (fun s i => ¬ StickyChord s i.2 ∧ ¬ ResetChord s i.2)
      (scan (Machine.final scan boot past) (start, 0x1F)).1 stream) :
    Machine.Along scan (Timely start) (scan (Machine.final scan boot past) (start, 0x1F)).1 stream ↔
      Machine.Along watchTimer (Due start)
        ((scan (Machine.final scan boot past) (start, 0x1F)).1, false) stream := by
  have hreached := reached_final past
  generalize Machine.final scan boot past = s at *
  obtain ⟨hctl, hshift, he, -⟩ := hsticky
  have hmake : (0x1F : UInt8) &&& 0x80 = 0 := by decide
  have hon : scan s (start, 0x1F) = ({ s with skEnabled := true }, 2500) := by
    simp [scan, kbdgetc, chords, chord, hctl, hshift, he, hmake, hoff]
  have hreached' := reached_scan s (start, 0x1F) hreached
  refine timer_run stream (p := (_, false))
    ⟨hreached'.skTime, ?_, fun h => absurd h Bool.false_ne_true⟩ hreached' hsorted hquiet
  rw [hon]
  rfl

/-- The rule at a session from tick 0 on: on at tick 499, over at tick 500. -/
theorem timer_from_boot : Machine.Along scan (Timely 0)
    (scan (Machine.final scan boot [(0, 0x1D)]) (0, 0x1F)).1
    [(1, 0x9F), (2, 0x9D), (499, 0x1E), (500, 0x1E)] :=
  (timer_iff [(0, 0x1D)] [(1, 0x9F), (2, 0x9D), (499, 0x1E), (500, 0x1E)] 0 (by decide)
    (by decide) (by decide) (by decide +kernel)).mpr (by decide +kernel)

/-- Switched on at tick 600, the sticky keys are off after the next key press. -/
theorem not_timer_late :
    ¬ Machine.Along scan (Timely 600)
      (scan (Machine.final scan boot [(599, 0x1D)]) (600, 0x1F)).1 [(601, 0x9D), (602, 0x1E)] := by
  decide +kernel

end Helpful
end Kbd
end Xv6
