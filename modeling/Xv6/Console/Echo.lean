import Xv6.Console.Bgcolor

/-!
# The echo

What a user sees of the text typed at `B22ES019/bgcolor_change/console.c`: the
characters that `consoleintr` hands to `consputc`, each erased again by a
`BACKSPACE`.  It is compared with the text that the readers get, which is the text
committed so far, and the edit line behind it.

* `replay` — what a sequence of outputs leaves to be seen.
* `commits`, `ledgerStep` — the text a code commits, and the runs of the console that
  keep the echo and the committed text.
* `replay_code` — one code changes both in the same way.
* `replay_echo` — **what is seen is the committed text and the edit line.**
-/

namespace Xv6
namespace Console
namespace Bgcolor

open Counter

/-! ### What is seen -/

/-- A character appends itself, and `BACKSPACE` removes the last one. -/
def echo (seen : List ℤ) : Out → List ℤ
  | .putc c => if c = backspaceCode then seen.dropLast else seen ++ [c]
  | _ => seen

/-- What a sequence of outputs leaves to be seen. -/
def replay (os : List Out) : List ℤ := os.foldl echo []

/-- The characters of a text. -/
def chars (text : List UInt8) : List ℤ := text.map fun b => (b.toNat : ℤ)

@[simp] theorem chars_append (t u : List UInt8) : chars (t ++ u) = chars t ++ chars u :=
  List.map_append

theorem chars_dropLast (t : List UInt8) : chars t.dropLast = (chars t).dropLast :=
  List.map_dropLast

/-- Erasing behind a line that is not empty erases from it. -/
theorem dropLast_chars_append (t : List UInt8) {u : List UInt8} (h : u ≠ []) :
    (chars (t ++ u)).dropLast = chars (t ++ u.dropLast) := by
  rw [← chars_dropLast, List.dropLast_append_of_ne_nil h]

theorem line_ne_nil {g : Input} (h : g.e ≠ g.w) : g.line ≠ [] := fun h' =>
  h (Input.line_eq_nil.mp h')

/-- A `BACKSPACE` for an erased character. -/
theorem echo_erase (t : List UInt8) {g : Input} (h : g.e ≠ g.w) :
    echo (chars (t ++ g.line)) (.putc backspaceCode) = chars (t ++ g.erase.line) := by
  rw [echo, if_pos rfl, dropLast_chars_append t (line_ne_nil h), Input.line_erase h]

/-! ### What is committed -/

/-- The text that the switch commits at the code `c`: what `w` moves over. -/
def commits (s : Input × ℕ) (c : ℕ) : List UInt8 :=
  segment (code s c).1.1.get s.1.w (dist s.1.w (code s c).1.1.w)

/-- The text that one call of `consoleintr` commits. -/
def committed (s : Input × ℕ) (cs : List ℕ) : List UInt8 :=
  (Machine.outputs (fun s c => ((code s c).1, commits s c)) s cs).flatten

/-- The text that an event commits. -/
def committedBy (s : Sys ℕ) : Event → List UInt8
  | .intr cs => committed (s.input, s.dev) cs
  | _ => []

/-- A step of the console, with the echo and the text it commits. -/
def ledgerStep (s : Sys ℕ) (ev : Event) : Option (Sys ℕ × List Out × List UInt8) :=
  (s.step consoleintr ev).map fun p => (p.1, p.2.out, committedBy s ev)

theorem ledgerStep_of_step {s : Sys ℕ} {ev : Event} {p : Sys ℕ × Answer}
    (h : s.step consoleintr ev = some p) :
    ledgerStep s ev = some (p.1, p.2.out, committedBy s ev) := by
  rw [ledgerStep, h]
  rfl

theorem commits_eq_nil {s : Input × ℕ} {c : ℕ} (h : (code s c).1.1.w = s.1.w) :
    commits s c = [] := by
  rw [commits, h, dist_self]
  rfl

theorem w_killLoop : ∀ (n : ℕ) (g : Input), (killLoop n g).1.w = g.w := by
  intro n
  induction n with
  | zero => intro g; rfl
  | succ n ih =>
    intro g
    unfold killLoop
    split
    · exact ih g.erase
    · rfl

theorem w_backspace (g : Input) : (backspace g).1.w = g.w := by
  unfold backspace
  split <;> rfl

/-! ### One code -/

theorem replay_killLoop (t : List UInt8) : ∀ (n : ℕ) (g : Input),
    (killLoop n g).2.foldl echo (chars (t ++ g.line)) = chars (t ++ (killLoop n g).1.line) := by
  intro n
  induction n with
  | zero => intro g; rfl
  | succ n ih =>
    intro g
    unfold killLoop
    split
    · next h =>
      rw [List.foldl_cons, echo_erase t h.1]
      exact ih g.erase
    · rfl

theorem replay_backspace (t : List UInt8) (g : Input) :
    (backspace g).2.foldl echo (chars (t ++ g.line)) = chars (t ++ (backspace g).1.line) := by
  unfold backspace
  split
  · next h => exact echo_erase t h
  · rfl

/-- The echo of a byte that enters the ring. -/
theorem echo_putc (t : List UInt8) {c : ℕ} (hc : c < 256) :
    echo (chars t) (.putc (crToNl c)) = chars (t ++ [byteOf c]) := by
  have hlt : crToNl c < 256 := by
    unfold crToNl
    split <;> omega
  have hne : (crToNl c : ℤ) ≠ backspaceCode := by
    unfold backspaceCode
    omega
  have hval : ((byteOf c).toNat : ℤ) = crToNl c := by
    rw [byteOf, UInt8.toNat_ofNat', Nat.mod_eq_of_lt hlt]
  rw [echo, if_neg hne, chars_append, chars, chars, List.map_singleton, hval]

/-- The cases of the switch: either `w` and the committed bytes stay, and what is seen
changes as the edit line does, or it is the default case. -/
theorem code_cases (g : Input) (bg c : ℕ) :
    ((code (g, bg) c).1.1.w = g.w ∧ (code (g, bg) c).1.1.queue = g.queue ∧
      ∀ t, (code (g, bg) c).2.1.foldl echo (chars (t ++ g.line)) =
        chars (t ++ (code (g, bg) c).1.1.line)) ∨
    code (g, bg) c = (((insert g c).1, bg), (insert g c).2, false) := by
  unfold code
  split
  · exact .inl ⟨rfl, rfl, fun _ => rfl⟩
  · split
    · exact .inl ⟨w_killLoop _ g, queue_killLine g, fun t => replay_killLoop t _ g⟩
    · split
      · exact .inl ⟨rfl, rfl, fun _ => rfl⟩
      · split
        · exact .inl ⟨w_backspace g, queue_backspace g, fun t => replay_backspace t g⟩
        · exact .inr rfl

/-- The default case, accepting a byte: it goes behind the edit line, and the line with
it is committed or not. -/
theorem commits_accept {g : Input} (h : g.Bounds) {bg c : ℕ}
    (hcode : code (g, bg) c = (((insert g c).1, bg), (insert g c).2, false))
    (hc : c ≠ 0) (hlt : dist g.r g.e < 128) :
    commits (g, bg) c ++ (insert g c).1.line = g.line ++ [byteOf c] ∧
      (insert g c).1.queue = g.queue ++ commits (g, bg) c := by
  have hline := Input.line_put h hlt (byteOf c)
  rw [commits, hcode, insert_of_accept hc hlt]
  by_cases hcommit : Commits (dist g.r g.e) c
  · rw [if_pos hcommit]
    show (g.put (byteOf c)).line ++ (g.put (byteOf c)).commit.line = _ ∧
      _ = _ ++ (g.put (byteOf c)).line
    rw [Input.line_commit, List.append_nil, Input.queue_commit (h.put hlt _),
      Input.queue_put h hlt]
    exact ⟨hline, rfl⟩
  · rw [if_neg hcommit]
    show segment _ g.w (dist g.w g.w) ++ (g.put (byteOf c)).line = _ ∧
      _ = _ ++ segment _ g.w (dist g.w g.w)
    rw [dist_self, segment_zero, List.nil_append, List.append_nil]
    exact ⟨hline, Input.queue_put h hlt _⟩

/-- **One code** changes what is seen as it changes the committed text and the edit
line. -/
theorem replay_code (t : List UInt8) {s : Input × ℕ} (hs : s.1.Ok) {c : ℕ} (hc : c < 256) :
    (code s c).2.1.foldl echo (chars (t ++ s.1.line)) =
      chars (t ++ commits s c ++ (code s c).1.1.line) := by
  obtain ⟨g, bg⟩ := s
  rcases code_cases g bg c with ⟨hw, -, hseen⟩ | hins
  · rw [commits_eq_nil hw, List.append_nil]
    exact hseen t
  · by_cases hacc : c ≠ 0 ∧ dist g.r g.e < 128
    · obtain ⟨htext, -⟩ := commits_accept hs.toBounds hins hacc.1 hacc.2
      have houts : (insert g c).2 = [.putc (crToNl c)] := by
        rw [insert_of_accept hacc.1 hacc.2]
      rw [hins, List.append_assoc]
      show (insert g c).2.foldl echo _ = chars (t ++ (commits (g, bg) c ++ (insert g c).1.line))
      rw [houts, htext, ← List.append_assoc]
      exact echo_putc _ hc
    · have hrefuse : insert g c = (g, []) := insert_of_refuse (by omega)
      have hw : (code (g, bg) c).1.1.w = g.w := by rw [hins, hrefuse]
      rw [commits_eq_nil hw, List.append_nil, hins, hrefuse]
      rfl

/-- The committed text goes to the readers. -/
theorem queue_code {s : Input × ℕ} (hs : s.1.Ok) (c : ℕ) :
    (code s c).1.1.queue = s.1.queue ++ commits s c := by
  obtain ⟨g, bg⟩ := s
  rcases code_cases g bg c with ⟨hw, hqueue, -⟩ | hins
  · rw [commits_eq_nil hw, List.append_nil]
    exact hqueue
  · by_cases hacc : c ≠ 0 ∧ dist g.r g.e < 128
    · rw [← (commits_accept hs.toBounds hins hacc.1 hacc.2).2, hins]
    · have hrefuse : insert g c = (g, []) := insert_of_refuse (by omega)
      have hw : (code (g, bg) c).1.1.w = g.w := by rw [hins, hrefuse]
      rw [commits_eq_nil hw, List.append_nil, hins, hrefuse]

theorem ok_code {s : Input × ℕ} (h : s.1.Ok) (c : ℕ) : (code s c).1.1.Ok := by
  unfold code
  split
  · exact h
  · split
    · exact ok_killLine h
    · split
      · exact h
      · split
        · exact ok_backspace h
        · exact ok_insert h c

/-! ### Whole runs -/

/-- A call of `consoleintr`. -/
theorem replay_codes : ∀ (cs : List ℕ) (t : List UInt8) (s : Input × ℕ), s.1.Ok →
    (∀ c ∈ cs, c < 256) →
    ((Machine.outputs code s cs).flatMap Prod.fst).foldl echo (chars (t ++ s.1.line)) =
        chars (t ++ committed s cs ++ (Machine.final code s cs).1.line) ∧
      (Machine.final code s cs).1.queue = s.1.queue ++ committed s cs ∧
      (Machine.final code s cs).1.Ok := by
  intro cs
  induction cs with
  | nil =>
    intro t s hs _
    have hnone : committed s [] = [] := rfl
    rw [hnone, List.append_nil, List.append_nil]
    exact ⟨rfl, rfl, hs⟩
  | cons c cs ih =>
    intro t s hs hcs
    rw [List.forall_mem_cons] at hcs
    obtain ⟨hseen, hqueue, hok⟩ := ih (t ++ commits s c) (code s c).1 (ok_code hs c) hcs.2
    have hall : committed s (c :: cs) = commits s c ++ committed (code s c).1 cs := rfl
    rw [Machine.outputs_cons, Machine.final_cons, List.flatMap_cons, List.foldl_append,
      replay_code t hs hcs.1, hseen, hall, hqueue, queue_code hs]
    simp only [List.append_assoc, true_and]
    exact hok

/-- A pass takes bytes off the front of the queue. -/
theorem queue_readLoop (target : ℕ) (killed : Bool) : ∀ (n : ℕ) (dst : List UInt8) (g : Input),
    (readLoop target killed n dst g).1.queue <:+ g.queue ∧
      (readLoop target killed n dst g).1.line = g.line := by
  intro n
  induction n with
  | zero => intro dst g; exact ⟨List.suffix_rfl, rfl⟩
  | succ n ih =>
    intro dst g
    unfold readLoop
    split
    · split <;> exact ⟨List.suffix_rfl, rfl⟩
    · next hne =>
      have htake : g.take.queue <:+ g.queue := by
        rw [Input.queue_eq_cons hne]
        exact List.suffix_cons _ _
      dsimp only
      split
      · rw [Input.untake_take]
        split
        · exact ⟨List.suffix_rfl, rfl⟩
        · exact ⟨htake, rfl⟩
      · split
        · exact ⟨htake, rfl⟩
        · exact ⟨(ih _ g.take).1.trans htake, (ih _ g.take).2⟩

/-- The events of the console when nothing but the echo is written: key codes in the
range of a byte other than `^P`, and calls of `consoleread`. -/
def Keys : Event → Prop
  | .intr cs => ∀ c ∈ cs, c < 256 ∧ c ≠ 0x10
  | _ => True

instance : ∀ ev, Decidable (Keys ev)
  | .intr _ => inferInstanceAs (Decidable (∀ _ ∈ _, _))
  | .call _ _ => inferInstanceAs (Decidable True)
  | .pass _ _ => inferInstanceAs (Decidable True)

/-- What holds after each event of the outputs and the text committed so far: what is
seen is the committed text and the edit line, and the queue is the end of that text. -/
structure Shown (s : Sys ℕ) (os : List (List Out × List UInt8)) : Prop where
  ok : s.input.Ok
  seen : replay (os.flatMap Prod.fst) = chars (os.flatMap Prod.snd ++ s.input.line)
  queue : s.input.queue <:+ os.flatMap Prod.snd

theorem shown_boot : Shown (Sys.boot black) [] := ⟨Input.ok_boot, rfl, List.suffix_rfl⟩

/-- No code but `^P` asks for a process listing. -/
theorem not_procdump : ∀ (cs : List ℕ) (s : Input × ℕ), (∀ c ∈ cs, c < 256 ∧ c ≠ 0x10) →
    (Machine.outputs code s cs).any Prod.snd = false := by
  intro cs
  induction cs with
  | nil => intro s _; rfl
  | cons c cs ih =>
    intro s hcs
    rw [List.forall_mem_cons] at hcs
    rw [Machine.outputs_cons, List.any_cons, ih _ hcs.2, Bool.or_false, code, if_neg hcs.1.2]
    repeat' split
    all_goals rfl

/-- An event that writes nothing, commits nothing and takes bytes off the queue. -/
theorem Shown.read {s : Sys ℕ} {os : List (List Out × List UInt8)} (h : Shown s os)
    {g : Input} {readers : ℕ → Option Reader} (hg : g.Ok) (hqueue : g.queue <:+ s.input.queue)
    (hline : g.line = s.input.line) :
    Shown { s with input := g, readers := readers } (os ++ [([], [])]) := by
  refine ⟨hg, ?_, ?_⟩
  · simpa [hline] using h.seen
  · simpa using hqueue.trans h.queue

theorem shown_step {s : Sys ℕ} {os : List (List Out × List UInt8)} {ev : Event}
    (h : Shown s os) (hev : Keys ev) :
    ∃ p, ledgerStep s ev = some p ∧ Shown p.1 (os ++ [p.2]) := by
  cases ev with
  | intr cs =>
    obtain ⟨hseen, hqueue, hok⟩ := replay_codes cs (os.flatMap Prod.snd) (s.input, s.dev) h.ok
      fun c hc => (hev c hc).1
    refine ⟨_, rfl, hok, ?_, ?_⟩
    · rw [replay, List.flatMap_append, List.foldl_append]
      show (List.flatMap Prod.fst [(_ ++ if _ then _ else _, _)]).foldl echo
        (replay (os.flatMap Prod.fst)) = _
      rw [not_procdump cs _ hev, h.seen]
      rw [List.flatMap_append, List.flatMap_singleton, List.flatMap_singleton, if_neg (by simp),
        List.append_nil]
      exact hseen
    · show (Machine.final code (s.input, s.dev) cs).1.queue <:+ _
      rw [hqueue, List.flatMap_append, List.flatMap_singleton]
      obtain ⟨read, hread⟩ := h.queue
      exact ⟨read, by rw [← hread, List.append_assoc]; rfl⟩
  | call p n =>
    cases hrd : s.readers p with
    | some rd =>
      refine ⟨_, ledgerStep_of_step (Sys.step_call_busy hrd), ?_⟩
      exact h.read (g := s.input) h.ok List.suffix_rfl rfl
    | none =>
      refine ⟨_, ledgerStep_of_step (Sys.step_call_free hrd), ?_⟩
      exact h.read (g := s.input) h.ok List.suffix_rfl rfl
  | pass p killed =>
    cases hrd : s.readers p with
    | none =>
      refine ⟨_, ledgerStep_of_step (Sys.step_pass_none hrd), ?_⟩
      exact h.read (g := s.input) h.ok List.suffix_rfl rfl
    | some rd =>
      have hok := ok_consoleread h.ok rd killed
      obtain ⟨hqueue, hline⟩ := queue_readLoop rd.target killed rd.n rd.dst s.input
      rcases hread : consoleread s.input rd killed with ⟨g, ⟨val, dst⟩ | rd'⟩
      · rw [show readLoop rd.target killed rd.n rd.dst s.input = _ from hread] at hqueue hline
        rw [hread] at hok
        refine ⟨_, ledgerStep_of_step (Sys.step_pass_ret hrd hread), ?_⟩
        exact h.read hok hqueue hline
      · rw [show readLoop rd.target killed rd.n rd.dst s.input = _ from hread] at hqueue hline
        rw [hread] at hok
        refine ⟨_, ledgerStep_of_step (Sys.step_pass_sleep hrd hread), ?_⟩
        exact h.read hok hqueue hline

/-- **The echo is faithful.**  After any codes in the range of a byte other than `^P`, and
any calls of `consoleread`, the characters to be seen are all the text committed so far
and the edit line behind it; what the readers have not got yet is the end of that text. -/
theorem replay_echo (events : List Event) (h : ∀ ev ∈ events, Keys ev) :
    ∃ r, Machine.run ledgerStep (Sys.boot black) events = some r ∧
      replay (r.2.flatMap Prod.fst) = chars (r.2.flatMap Prod.snd ++ r.1.input.line) ∧
      r.1.input.queue <:+ r.2.flatMap Prod.snd := by
  obtain ⟨r, hr, hshown⟩ := Machine.run_history_total (V := Keys) Shown
    (fun s os ev hs hev => shown_step hs hev) events _ [] shown_boot h
  rw [List.nil_append] at hshown
  exact ⟨r, hr, hshown.seen, hshown.queue⟩

/-- The rule on a line with corrections, a kill-line and a read. -/
theorem replay_echo_corrected :
    ∃ r, Machine.run ledgerStep (Sys.boot black)
        [.intr [0x61, 0x62, 0x08, 0x63, 0x0D, 0x64], .call 1 8, .pass 1 false,
          .intr [0x15, 0x65]] = some r ∧
      replay (r.2.flatMap Prod.fst) = chars (r.2.flatMap Prod.snd ++ r.1.input.line) ∧
      r.1.input.queue <:+ r.2.flatMap Prod.snd :=
  replay_echo _ (by decide)

end Bgcolor
end Console
end Xv6
