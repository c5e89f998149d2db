import Xv6.Console.HelpfulTyping

/-!
# The edit line of the Helpful console

A newline and a `^D` that are typed commit the line they end, so that none should be in the
edit line, and kill-line, which stops at a newline, should empty it.  But the clipboard holds
what was in the ring, committed lines and their ends too, and a paste puts that in the edit
line as it is; and the line before may hold a `^D`.

## Main definitions

* `OpenLine` — no end of a line is in the edit line.
* `CodeOpen`, `DeferredOpen` — what is pasted, typed or recalled does not put one there.

## Main results

* `openLine_code`, `openLine_deferred` — a round and the chain keep the line open.
* `openLine_of_meets` — **the edit line in every state of a run without such pastes and
  recalls.**
-/

namespace Xv6
namespace Console
namespace Helpful

open Counter

variable {m : Memory} {g : Input} {v : Vars}

/-- A newline or a `^D`. -/
def Ends (b : UInt8) : Prop := b = 0x0A ∨ b = 0x04

instance (b : UInt8) : Decidable (Ends b) := inferInstanceAs (Decidable (_ ∨ _))

/-- **No newline and no `^D` is in the edit line.** -/
def OpenLine (g : Input) : Prop := ∀ b ∈ g.line, ¬ Ends b

/-- What is pasted has no end of a line in it; and what is typed is none, or commits the line. -/
def CodeOpen (s : State) (c : ℕ) : Prop :=
  (c = 0x16 → ∀ b ∈ (content s.vars.clipboard).take (128 - dist s.input.r s.input.e), ¬ Ends b) ∧
    (¬ Deferred c → dist s.input.r s.input.e < 128 → Ends (byteOf c) →
      Commits (dist s.input.r s.input.e) c)

instance (s : State) (c : ℕ) : Decidable (CodeOpen s c) := inferInstanceAs (Decidable (_ ∧ _))

/-- The first `n` bytes that the walk down from `previous_line[i]` meets have no `^D` among them,
as the ring grows by these bytes, or a newline or a NUL before it. -/
def NoEof (m : Memory) (v : Vars) : ℕ → ℤ → Input → Prop
  | 0, _, _ => True
  | n + 1, i, g =>
      lineAt m g v i = 0x0A ∨ lineAt m g v i = 0 ∨
        lineAt m g v i ≠ 0x04 ∧ NoEof m v n (i - 1) (g.put (lineAt m g v i))

instance decidableNoEof (m : Memory) (v : Vars) : ∀ n i g, Decidable (NoEof m v n i g)
  | 0, _, _ => inferInstanceAs (Decidable True)
  | n + 1, i, g =>
      haveI := decidableNoEof m v n (i - 1) (g.put (lineAt m g v i))
      inferInstanceAs (Decidable (_ ∨ _ ∨ _))

/-- What is recalled, if anything is, has no `^D` in it. -/
def DeferredOpen (m : Memory) (s : State) : Prop :=
  Recalls s → NoEof m s.vars (128 - dist s.input.r s.input.e)
    ((prevLen m s.input s.vars : ℤ) - 1) s.input

instance (m : Memory) (s : State) : Decidable (DeferredOpen m s) :=
  inferInstanceAs (Decidable (_ → _))

/-! ### Rounds -/

theorem openLine_of_subset {g' : Input} (h : OpenLine g) (hsub : g'.line ⊆ g.line) :
    OpenLine g' := fun b hb => h b (hsub hb)

theorem openLine_insert {c : ℕ} (h : g.Bounds) (hopen : OpenLine g)
    (hc : dist g.r g.e < 128 → Ends (byteOf c) → Commits (dist g.r g.e) c) :
    OpenLine (insert g c).1 := by
  by_cases haccept : c ≠ 0 ∧ dist g.r g.e < 128
  · by_cases hcommit : Commits (dist g.r g.e) c
    · -- the line is committed, and a new one begins
      intro b hb
      rw [(insert_of_commit h haccept.1 haccept.2 hcommit).2] at hb
      exact absurd hb List.not_mem_nil
    · intro b hb
      rw [(insert_of_extend h haccept.1 haccept.2 hcommit).2, List.mem_append,
        List.mem_singleton] at hb
      rcases hb with hb | rfl
      · exact hopen b hb
      · exact fun hends => hcommit (hc haccept.2 hends)
  · rw [insert_of_refuse (by omega)]
    exact hopen

theorem openLine_code {s : State} {c : ℕ} {p : State × List Out} (h : s.input.Bounds)
    (hopen : OpenLine s.input) (hc : CodeOpen s c) (hp : code m s c = some p) :
    OpenLine p.1.input := by
  rcases code_cases hp with ⟨hsame, -⟩ | ⟨hedit, q, hq, rfl⟩
  · rw [hsame]
    exact hopen
  · show OpenLine q.1
    rcases edit_cases hq with ⟨-, rfl⟩ | ⟨-, rfl⟩ | ⟨hpaste, rfl⟩ | ⟨-, rfl⟩ | ⟨-, hq⟩
    · refine openLine_of_subset hopen ?_
      dsimp only
      rw [line_killLine]
      exact (List.rdropWhile_prefix _ _).subset
    · exact hopen
    · -- what is pasted comes behind the line
      intro b hb
      dsimp only at hb
      rw [paste, (pasteLoop_spec _ h).2.1, List.mem_append] at hb
      exact hb.elim (hopen b) (hc.1 hpaste b)
    · refine openLine_of_subset hopen ?_
      dsimp only
      rw [line_backspace]
      exact List.dropLast_subset _
    · have hinsert : q.1 = (insert s.input c).1 := congrArg Prod.fst (typed_insert hq)
      rw [hinsert]
      exact openLine_insert h hopen (hc.2 fun hd => hedit (.inl hd))

/-! ### The chain -/

/-- The words of the table have no end of a line in them. -/
theorem not_ends_of_firstEntry {word best : List UInt8} (h : firstEntry word = some best) :
    ∀ b ∈ best, ¬ Ends b := by
  have hall : autocompleteWords.all fun best => best.all fun b => !decide (Ends b) := by
    decide +kernel
  unfold firstEntry at h
  split at h
  · contradiction
  · intro b hb
    have hbest := List.all_eq_true.mp hall best (List.mem_of_find?_eq_some h)
    simpa using List.all_eq_true.mp hbest b hb

theorem openLine_autoComplete (h : g.Bounds) (hopen : OpenLine g) {q : Input × List Out}
    (hq : autoComplete m g v = some q) : OpenLine q.1 := by
  obtain ⟨q', hq', hdone⟩ := autoComplete_spec (m := m) (v := v) h
  obtain rfl := Option.some.inj (hq'.symm.trans hq)
  cases hbest : firstEntry (scanWord m g v) with
  | none =>
    rw [hbest] at hdone
    dsimp only at hdone
    rw [hdone]
    exact hopen
  | some best =>
    rw [hbest] at hdone
    dsimp only at hdone
    split at hdone
    · rw [hdone]
      exact hopen
    · obtain ⟨-, -, hlists⟩ := hdone
      intro b hb
      split at hlists
      · rw [hlists.2, List.mem_append] at hb
        rcases hb with hb | hb
        · exact hopen b ((List.rdropWhile_prefix _ _).subset hb)
        · exact not_ends_of_firstEntry hbest b (List.mem_of_mem_take hb)
      · rw [hlists.2] at hb
        exact absurd hb List.not_mem_nil

theorem openLine_recallLoop : ∀ (n : ℕ) (i : ℤ) {g : Input}, g.Bounds → OpenLine g →
    NoEof m v n i g → OpenLine (recallLoop m v n i g).1 := by
  intro n
  induction n with
  | zero => intro i g _ hopen _; exact hopen
  | succ n ih =>
    intro i g h hopen heof
    unfold NoEof at heof
    unfold recallLoop
    dsimp only
    split
    · next hb =>
      obtain ⟨hne, hrest⟩ := (heof.resolve_left hb.1).resolve_left hb.2.1
      refine ih (i - 1) (h.put hb.2.2 _) (fun b hmem => ?_) hrest
      rw [Input.line_put h hb.2.2, List.mem_append, List.mem_singleton] at hmem
      rcases hmem with hmem | rfl
      · exact hopen b hmem
      · exact fun hends => hends.elim hb.1 hne
    · exact hopen

theorem openLine_deferred {s : State} {q : Input × Vars × List Out} (h : s.input.Bounds)
    (hopen : OpenLine s.input) (hd : DeferredOpen m s) (hq : deferred m s = some q) :
    OpenLine q.1 := by
  rcases deferred_cases hq with ⟨-, p, hp, rfl⟩ | ⟨hrecall, rfl⟩ | ⟨-, rfl⟩ | ⟨-, -, -, hsame, -⟩
  · exact openLine_autoComplete h hopen hp
  · exact openLine_recallLoop _ _ h hopen (hd hrecall)
  · exact hopen
  · rw [hsame]
    exact hopen

/-! ### Runs -/

/-- A reader leaves the edit line alone. -/
theorem openLine_consoleread (hopen : OpenLine g) (rd : Reader) (killed : Bool) :
    OpenLine (consoleread g rd killed).1 := by
  obtain ⟨r, hr⟩ := readLoop_frame rd.target killed rd.n rd.dst g
  rw [consoleread, hr]
  exact hopen

/-- Kill-line empties a line without a newline in it. -/
theorem code_killLine {s : State} {c : ℕ} (hopen : OpenLine s.input) (hc : c = 0x15 ∨ c = 227) :
    ∃ q, code m s c = some q ∧ q.1.input.e = q.1.input.w := by
  have hnot : ¬ Deferred c := by
    unfold Deferred
    omega
  have hedit : edit m s.input s.vars c =
      some ((killLine s.input).1, s.vars, (killLine s.input).2) := if_pos hc
  refine ⟨_, (code_edit hnot (by omega)).trans (congrArg _ hedit), ?_⟩
  refine Input.line_eq_nil.mp ?_
  show (killLine s.input).1.line = []
  rw [line_killLine, List.rdropWhile_eq_nil_iff]
  exact fun b hb => decide_eq_true fun hnl => hopen b hb (.inl hnl)

/-- **The edit line in every state of a run**: if what is pasted, typed or recalled along the run
puts no end of a line in it, none is there, and kill-line empties it. -/
theorem openLine_of_meets (m : Memory) (events : List Event) (cs : List ℕ)
    (r : Sys Vars × List Answer) (p : State × List (List Out))
    (hev : Machine.AlongRun (Sys.step (consoleintr m)) (Meets m CodeOpen (DeferredOpen m))
      (Sys.boot Vars.boot) events)
    (hr : Machine.run (Sys.step (consoleintr m)) (Sys.boot Vars.boot) events = some r)
    (hcs : Machine.AlongRun (code m) CodeOpen ⟨r.1.input, r.1.dev, {}⟩ cs)
    (hp : Machine.run (code m) ⟨r.1.input, r.1.dev, {}⟩ cs = some p) :
    OpenLine p.1.input ∧
      ∀ c, c = 0x15 ∨ c = 227 → ∃ q, code m p.1 c = some q ∧ q.1.input.e = q.1.input.w := by
  have hopen : p.1.input.Bounds ∧ OpenLine p.1.input := by
    refine invariant_of_meets (I := fun g _ => g.Bounds ∧ OpenLine g) ?_ ?_ ?_
      ⟨Input.ok_boot.toBounds, ?_⟩ hev hr hcs hp
    · exact fun s c p hs hc hp => ⟨bounds_code hs.1 hp, openLine_code hs.1 hs.2 hc hp⟩
    · exact fun s q hs hd hq => ⟨bounds_deferred hs.1 hq, openLine_deferred hs.1 hs.2 hd hq⟩
    · exact fun g v rd killed hg =>
        ⟨bounds_readLoop _ _ _ _ hg.1, openLine_consoleread hg.2 rd killed⟩
    · exact fun b hb => absurd hb List.not_mem_nil
  exact ⟨hopen.2, fun c hc => code_killLine hopen.2 hc⟩

/-- The rule where a line is typed, read and recalled, and a part of it pasted. -/
theorem openLine_of_recall_paste : ∃ r p,
    Machine.run (Sys.step (consoleintr Memory.zero)) (Sys.boot Vars.boot)
      [.intr [0x6C, 0x73, 0x03, 0x0D], .call 0 9, .pass 0 false, .intr [226]] = some r ∧
    Machine.run (code Memory.zero) ⟨r.1.input, r.1.dev, {}⟩ [0x16, 0x16] = some p ∧
    OpenLine p.1.input ∧ ∀ c, c = 0x15 ∨ c = 227 →
      ∃ q, code Memory.zero p.1 c = some q ∧ q.1.input.e = q.1.input.w :=
  ⟨_, _, (Option.some_get (by decide +kernel)).symm, (Option.some_get (by decide +kernel)).symm,
    openLine_of_meets Memory.zero _ [0x16, 0x16] _ _ (by decide +kernel)
      (Option.some_get (by decide +kernel)).symm (by decide +kernel)
      (Option.some_get (by decide +kernel)).symm⟩

/-- A line that is copied with its newline and pasted leaves that newline in the edit line, and
Ctrl-U stops at it. -/
theorem not_openLine_of_paste : ∃ r,
    Machine.run (Sys.step (consoleintr Memory.zero)) (Sys.boot Vars.boot)
      [.intr [0x6C, 0x0D], .call 0 9, .pass 0 false, .intr [0x03, 0x16], .intr [0x15]] = some r ∧
    r.1.input.line = str "l\n" ∧ ¬ OpenLine r.1.input ∧ r.1.input.e ≠ r.1.input.w := by
  have hrun : (Machine.run (Sys.step (consoleintr Memory.zero)) (Sys.boot Vars.boot)
      [.intr [0x6C, 0x0D], .call 0 9, .pass 0 false, .intr [0x03, 0x16], .intr [0x15]]).map
        (fun r : Sys Vars × List Answer => r.1.input.line) = some (str "l\n") := by
    decide +kernel
  obtain ⟨r, hr, hline⟩ := Option.map_eq_some_iff.mp hrun
  refine ⟨r, hr, hline, fun hopen => ?_, fun heq => ?_⟩
  · refine hopen 0x0A ?_ (.inl rfl)
    rw [hline]
    decide
  · rw [Input.line_eq_nil.mpr heq] at hline
    exact absurd hline (by decide)

end Helpful
end Console
end Xv6
