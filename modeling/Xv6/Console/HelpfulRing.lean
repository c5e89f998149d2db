import Xv6.Console.Helpful

/-!
# The ring of the Helpful console

Four cases of the Helpful console append to the ring.  Typing and completion commit a
ring they fill; pasting and recalling the line before do not, and a ring filled by one of
these is stuck: no further character is accepted, not even a newline, and the reader
finds nothing committed.

## Main results

* `ok_autoComplete`, `ok_edit` — completion and typing keep the index invariant.
* `ok_paste_iff`, `ok_getPrevLine_iff` — pasting and recalling keep it exactly when they
  leave room.
* `ok_of_eventFits` — **the invariant in every state that runs reach whose pastes and
  recalls leave room.**
-/

namespace Xv6
namespace Console
namespace Helpful

open Counter

variable {m : Memory} {g : Input} {v : Vars}

/-! ### Typing -/

/-- The default case does to the ring what that of the stock console does. -/
theorem typed_insert {c : ℕ} {q : Input × Vars × List Out} (hq : typed m g v c = some q) :
    (q.1, q.2.2) = insert g c := by
  unfold typed at hq
  unfold insert
  split at hq
  · next hc =>
    rw [if_pos hc]
    dsimp only at hq ⊢
    split at hq
    · next hcommit =>
      obtain ⟨v', _, rfl⟩ := Option.map_eq_some_iff.mp hq
      rw [if_pos hcommit]
    · next hcommit =>
      cases hq
      rw [if_neg hcommit]
  · next hc =>
    cases hq
    rw [if_neg hc]

/-! ### Completion -/

theorem ok_eraseLoop : ∀ (n : ℕ) {g : Input}, g.Ok → (eraseLoop n g).1.Ok := by
  intro n
  induction n with
  | zero => intro g h; exact h
  | succ n ih =>
    intro g h
    unfold eraseLoop
    split
    · next hc => exact ih (h.erase hc.2.1)
    · exact h

/-- The loop that types the match asks for room, and commits a full ring. -/
theorem ok_fillLoop : ∀ (cs : List UInt8) {g : Input}, g.Ok → (fillLoop g cs).1.Ok := by
  intro cs
  induction cs with
  | nil => intro g h; exact h
  | cons c cs ih =>
    intro g h
    unfold fillLoop
    split
    · next hlt =>
      have hput := h.put hlt c
      refine ih ?_
      split
      · exact hput.commit
      · next hno => exact ⟨hput, fun hfull => absurd (e_eq_iff_full.mpr hfull) hno⟩
    · exact h

theorem ok_autoComplete (h : g.Ok) {p : Input × List Out} (hp : autoComplete m g v = some p) :
    p.1.Ok := by
  obtain ⟨w, _, rfl⟩ := Option.map_eq_some_iff.mp hp
  dsimp only
  split
  · split
    · exact ok_fillLoop _ (ok_eraseLoop _ h)
    · exact h
  · exact h

/-! ### Pasting -/

/-- **A paste fits**: the ring is full already, or has room for the clipboard and one
byte more. -/
def PasteFits (g : Input) (v : Vars) : Prop :=
  dist g.r g.e = 128 ∨ dist g.r g.e + (content v.clipboard).length < 128

instance (g : Input) (v : Vars) : Decidable (PasteFits g v) := inferInstanceAs (Decidable (_ ∨ _))

theorem grown_pasteLoop : ∀ (cs : List UInt8) (g : Input), Input.Grown g (pasteLoop g cs).1 := by
  intro cs
  induction cs with
  | nil => intro g; exact .refl g
  | cons c cs ih =>
    intro g
    unfold pasteLoop
    split
    · exact (ih (g.put c)).of_put
    · exact .refl g

/-- The loop stops at the end of the clipboard, or with the ring full. -/
theorem dist_pasteLoop : ∀ (cs : List UInt8) {g : Input}, dist g.r g.e ≤ 128 →
    dist (pasteLoop g cs).1.r (pasteLoop g cs).1.e = min (dist g.r g.e + cs.length) 128 := by
  intro cs
  induction cs with
  | nil => intro g h; simpa [pasteLoop] using h
  | cons c cs ih =>
    intro g h
    unfold pasteLoop
    split
    · next hlt =>
      have hput := Input.dist_put (c := c) hlt
      dsimp only
      rw [ih (by omega), hput, List.length_cons]
      omega
    · next hfull =>
      dsimp only
      rw [List.length_cons]
      omega

/-- **A paste keeps the index invariant exactly when it fits.** -/
theorem ok_paste_iff (h : g.Ok) : (paste g v).1.Ok ↔ PasteFits g v := by
  have hmax := h.e_le
  have hdist := dist_pasteLoop (content v.clipboard) hmax
  rcases Nat.lt_or_ge (dist g.r g.e) 128 with hlt | hge
  · rw [paste, h.grow_iff hlt (grown_pasteLoop _ g) (by omega), hdist, PasteFits]
    omega
  · refine iff_of_true ?_ (.inl (by omega))
    have hsame : pasteLoop g (content v.clipboard) = (g, []) := by
      cases content v.clipboard with
      | nil => rfl
      | cons c cs => exact if_neg (by omega)
    rw [paste, hsame]
    exact h

/-! ### Recalling the line before -/

/-- One of the first `n` bytes that the walk down from `previous_line[i]` meets ends it,
as the ring grows by the bytes in front of it. -/
def Stops (m : Memory) (v : Vars) : ℕ → ℤ → Input → Prop
  | 0, _, _ => False
  | n + 1, i, g =>
      (lineAt m g v i = 0x0A ∨ lineAt m g v i = 0) ∨ Stops m v n (i - 1) (g.put (lineAt m g v i))

instance decidableStops (m : Memory) (v : Vars) : ∀ n i g, Decidable (Stops m v n i g)
  | 0, _, _ => inferInstanceAs (Decidable False)
  | n + 1, i, g =>
      haveI := decidableStops m v n (i - 1) (g.put (lineAt m g v i))
      inferInstanceAs (Decidable (_ ∨ _))

/-- **A recall fits**: the ring is full already, or the walk stops while there is room. -/
def RecallFits (m : Memory) (g : Input) (v : Vars) : Prop :=
  dist g.r g.e = 128 ∨ Stops m v (128 - dist g.r g.e) ((prevLen m g v : ℤ) - 1) g

instance (m : Memory) (g : Input) (v : Vars) : Decidable (RecallFits m g v) :=
  inferInstanceAs (Decidable (_ ∨ _))

theorem grown_recallLoop : ∀ (n : ℕ) (i : ℤ) (g : Input),
    Input.Grown g (recallLoop m v n i g).1 := by
  intro n
  induction n with
  | zero => intro i g; exact .refl g
  | succ n ih =>
    intro i g
    unfold recallLoop
    dsimp only
    split
    · exact (ih _ _).of_put
    · exact .refl g

/-- The loop adds to the ring, and stops in front of its end exactly if the walk does. -/
theorem dist_recallLoop : ∀ (n : ℕ) (i : ℤ) {g : Input}, dist g.r g.e + n = 128 →
    dist g.r g.e ≤ dist (recallLoop m v n i g).1.r (recallLoop m v n i g).1.e ∧
      (dist (recallLoop m v n i g).1.r (recallLoop m v n i g).1.e < 128 ↔ Stops m v n i g) := by
  intro n
  induction n with
  | zero =>
    intro i g h
    refine ⟨le_rfl, iff_of_false ?_ id⟩
    show ¬ dist g.r g.e < 128
    omega
  | succ n ih =>
    intro i g h
    have hlt : dist g.r g.e < 128 := by omega
    unfold recallLoop Stops
    dsimp only
    split
    · next hb =>
      have hput := Input.dist_put (c := lineAt m g v i) hlt
      obtain ⟨hle, hiff⟩ := ih (i - 1) (g := g.put (lineAt m g v i)) (by omega)
      refine ⟨(by omega : dist g.r g.e ≤ dist (g.put _).r (g.put _).e).trans hle,
        hiff.trans (or_iff_right ?_).symm⟩
      rintro (hnl | hnul)
      · exact hb.1 hnl
      · exact hb.2.1 hnul
    · next hb =>
      refine ⟨le_rfl, iff_of_true hlt (.inl ?_)⟩
      by_contra hno
      rw [not_or] at hno
      exact hb ⟨hno.1, hno.2, hlt⟩

/-- **A recall keeps the index invariant exactly when it fits.** -/
theorem ok_getPrevLine_iff (h : g.Ok) : (getPrevLine m g v).1.Ok ↔ RecallFits m g v := by
  have hmax := h.e_le
  show (recallLoop m v (128 - dist g.r g.e) ((prevLen m g v : ℤ) - 1) g).1.Ok ↔ _
  rcases Nat.lt_or_ge (dist g.r g.e) 128 with hlt | hge
  · obtain ⟨hle, hiff⟩ := dist_recallLoop (m := m) (v := v) (128 - dist g.r g.e)
      ((prevLen m g v : ℤ) - 1) (g := g) (by omega)
    rw [h.grow_iff hlt (grown_recallLoop _ _ g) hle, hiff, RecallFits, or_iff_right (by omega)]
  · have hzero : 128 - dist g.r g.e = 0 := by omega
    rw [hzero]
    exact iff_of_true h (.inl (by omega))

/-! ### Interrupts and runs -/

/-- A code that is not a Ctrl-V, or one whose paste fits. -/
def CodeFits (s : State) (c : ℕ) : Prop := c = 0x16 → PasteFits s.input s.vars

instance (s : State) (c : ℕ) : Decidable (CodeFits s c) := inferInstanceAs (Decidable (_ → _))

/-- If the chain behind the loop recalls the line before, the recall fits. -/
def DeferredFits (m : Memory) (s : State) : Prop :=
  s.flags.shouldAutoComplete = false → s.flags.shouldClearScreen = false →
    s.flags.upKey = true → RecallFits m s.input s.vars

instance (m : Memory) (s : State) : Decidable (DeferredFits m s) :=
  inferInstanceAs (Decidable (_ → _ → _ → _))

theorem ok_edit (h : g.Ok) {c : ℕ} (hfit : c = 0x16 → PasteFits g v)
    {q : Input × Vars × List Out} (hq : edit m g v c = some q) : q.1.Ok := by
  unfold edit at hq
  split at hq
  · cases hq; exact ok_killLine h
  · split at hq
    · cases hq; exact h
    · split at hq
      · next hpaste => cases hq; exact (ok_paste_iff h).mpr (hfit hpaste)
      · split at hq
        · cases hq; exact ok_backspace h
        · have hinsert := typed_insert hq
          have hring : q.1 = (insert g c).1 := congrArg Prod.fst hinsert
          rw [hring]
          exact ok_insert h c

theorem ok_code {s : State} {c : ℕ} {p : State × List Out} (h : s.input.Ok)
    (hfit : CodeFits s c) (hp : code m s c = some p) : p.1.input.Ok := by
  by_cases hc : Deferred c ∨ c = 0x10
  · rw [(code_note hc hp).1]
    exact h
  · rw [not_or] at hc
    rw [code_edit hc.1 hc.2] at hp
    obtain ⟨q, hq, rfl⟩ := Option.map_eq_some_iff.mp hp
    exact ok_edit h hfit hq

theorem ok_deferred {s : State} (h : s.input.Ok) (hfit : DeferredFits m s)
    {q : Input × Vars × List Out} (hq : deferred m s = some q) : q.1.Ok := by
  unfold deferred at hq
  dsimp only at hq
  rcases ite_eq_iff.mp hq with ⟨-, hq⟩ | ⟨htab, hq⟩
  · obtain ⟨p, hp, rfl⟩ := Option.map_eq_some_iff.mp hq
    exact ok_autoComplete h hp
  rcases ite_eq_iff.mp hq with ⟨-, hq⟩ | ⟨hclear, hq⟩
  · cases hq
    exact h
  rcases ite_eq_iff.mp hq with ⟨hup, hq⟩ | ⟨-, hq⟩
  · cases hq
    exact (ok_getPrevLine_iff h).mpr (hfit (by simpa using htab) (by simpa using hclear) hup)
  -- the other actions leave the ring alone
  have hsame : ∀ {p : Prop} [Decidable p] {v : Vars} {out : List Out}
      {rest : Option (Input × Vars × List Out)}, (rest = some q → q.1.Ok) →
        (if p then some (s.input, v, out) else rest) = some q → q.1.Ok := by
    intro p _ v out rest hrest hq
    rcases ite_eq_iff.mp hq with ⟨-, hq⟩ | ⟨-, hq⟩
    · cases hq
      exact h
    · exact hrest hq
  revert hq
  repeat refine hsame ?_
  intro hq
  cases hq
  exact h

/-- **The pastes and the recall of an interrupt fit.**  No condition on the other events. -/
def EventFits (m : Memory) (s : Sys Vars) : Event → Prop
  | .intr cs =>
      Machine.AlongRun (code m) CodeFits ⟨s.input, s.dev, {}⟩ cs ∧
        ∀ p ∈ Machine.run (code m) ⟨s.input, s.dev, {}⟩ cs, DeferredFits m p.1
  | _ => True

instance (m : Memory) (s : Sys Vars) : ∀ ev, Decidable (EventFits m s ev)
  | .intr _ => inferInstanceAs (Decidable (_ ∧ _))
  | .call _ _ => inferInstanceAs (Decidable True)
  | .pass _ _ => inferInstanceAs (Decidable True)

/-- An interrupt that fits keeps the index invariant. -/
theorem ok_consoleintr {s : Sys Vars} {cs : List ℕ} {q : Input × Vars × List Out}
    (h : s.input.Ok) (hfit : EventFits m s (.intr cs))
    (hq : consoleintr m s.input s.dev cs = some q) : q.1.Ok := by
  obtain ⟨p, hp, hq⟩ := Option.bind_eq_some_iff.mp hq
  obtain ⟨q', hq', rfl⟩ := Option.map_eq_some_iff.mp hq
  refine (ok_deferred ?_ (hfit.2 p hp) hq' : q'.1.Ok)
  exact Machine.run_invariant (fun s : State => s.input.Ok)
    (fun s c p hs hc hp => ok_code hs hc hp) cs ⟨s.input, s.dev, {}⟩ p h hfit.1 hp

/-- **Every state that a run whose pastes and recalls fit reaches.**  The indices are in
order and a full ring is committed, so that the reader can drain it. -/
theorem ok_of_eventFits (m : Memory) (events : List Event) (r : Sys Vars × List Answer)
    (hfit : Machine.AlongRun (Sys.step (consoleintr m)) (EventFits m) (Sys.boot Vars.boot) events)
    (hr : Machine.run (Sys.step (consoleintr m)) (Sys.boot Vars.boot) events = some r) :
    r.1.input.Ok ∧ (dist r.1.input.r r.1.input.e = 128 → r.1.input.r ≠ r.1.input.w) := by
  have hok : r.1.input.Ok := by
    refine Machine.run_invariant (fun s : Sys Vars => s.input.Ok) ?_ events _ r
      Input.ok_boot hfit hr
    intro s ev p hs hev hp
    refine ok_step hs (fun cs q hcs hq => ?_) hp
    subst hcs
    exact ok_consoleintr hs hev hq
  exact ⟨hok, hok.r_ne_w⟩

/-- The rule where a word is copied and pasted, read, and recalled. -/
theorem ok_of_copy_recall :
    ∃ r, Machine.run (Sys.step (consoleintr Memory.zero)) (Sys.boot Vars.boot)
        [.intr [0x6C, 0x73, 0x03, 0x16, 0x0D], .call 0 2, .pass 0 false, .intr [226],
          .intr [0x09, 0x0D]] = some r ∧ r.1.input.Ok :=
  ⟨_, (Option.some_get (by decide +kernel)).symm,
    (ok_of_eventFits Memory.zero _ _ (by decide +kernel)
      (Option.some_get (by decide +kernel)).symm).1⟩

/-- Sixty-four letters, Ctrl-C and Ctrl-V fill the ring and commit nothing; the newline
typed then is refused, and the reader has nothing to read. -/
theorem not_ok_of_paste :
    ∃ r, Machine.run (Sys.step (consoleintr Memory.zero)) (Sys.boot Vars.boot)
        [.intr (List.replicate 64 0x78 ++ [0x03, 0x16]), .intr [0x0D]] = some r ∧
      dist r.1.input.r r.1.input.e = 128 ∧ r.1.input.r = r.1.input.w ∧ ¬ r.1.input.Ok := by
  have hrun : (Machine.run (Sys.step (consoleintr Memory.zero)) (Sys.boot Vars.boot)
      [.intr (List.replicate 64 0x78 ++ [0x03, 0x16]), .intr [0x0D]]).map
        (fun r : Sys Vars × List Answer => (r.1.input.r, r.1.input.w, r.1.input.e)) =
          some (0, 0, 128) := by
    decide +kernel
  obtain ⟨r, hr, hidx⟩ := Option.map_eq_some_iff.mp hrun
  simp only [Prod.mk.injEq] at hidx
  have hfull : dist r.1.input.r r.1.input.e = 128 := by rw [hidx.1, hidx.2.2]; rfl
  have hempty : r.1.input.r = r.1.input.w := by rw [hidx.1, hidx.2.1]
  exact ⟨r, hr, hfull, hempty, fun hok => hok.r_ne_w hfull hempty⟩

end Helpful
end Console
end Xv6
