import Xv6.Console.LineEditor

/-!
# The console with two background colours

`B22ES019/bgcolor_change/console.c`: the stock line discipline, in which Ctrl+B
switches the colour that characters are drawn on.  It is the version for which the
whole of the console is compared with the line editor.

## Main results

* `run_refines_editor` — **every run of the console is a run of the line editor.**
-/

namespace Xv6
namespace Console
namespace Bgcolor

/-- The initial value of `bg_color`: black. -/
def black : ℕ := 0x0700

/-- The other value of `bg_color`: blue. -/
def blue : ℕ := 0x1000

/-- The switch of `consoleintr`, on the ring and `bg_color`: the output, and whether a
process listing is asked for. -/
def code (s : Input × ℕ) (c : ℕ) : (Input × ℕ) × List Out × Bool :=
  if c = 0x10 then (s, [], true)                                  -- C('P')
  else if c = 0x15 then                                           -- C('U')
    (((killLine s.1).1, s.2), (killLine s.1).2, false)
  else if c = 0x02 then                                           -- C('B')
    ((s.1, if s.2 = black then blue else black), [], false)
  else if c = 0x08 ∨ c = 0x7F then
    (((backspace s.1).1, s.2), (backspace s.1).2, false)
  else (((insert s.1 c).1, s.2), (insert s.1 c).2, false)

/-- `consoleintr`, on the codes `getc` returns before its first negative value. -/
def consoleintr (g : Input) (bg : ℕ) (cs : List ℕ) : Option (Input × ℕ × List Out) :=
  let s := Machine.final code (g, bg) cs
  let os := Machine.outputs code (g, bg) cs
  some (s.1, s.2, os.flatMap Prod.fst ++ if os.any Prod.snd then [.procdump] else [])

/-- The code that does nothing to the text: Ctrl+B. -/
def idle (c : ℕ) : Bool := c == 0x02

/-- One key code does to the ring what it does to the line editor. -/
theorem holds_code {s : Input × ℕ} {t : Editor} {c : ℕ} (h : Holds s.1 t) (hc : c < 256) :
    Holds (code s c).1.1 (t.code idle c) := by
  unfold code Editor.code idle
  by_cases h0 : c = 0
  · subst h0
    have hrefuse : insert s.1 0 = (s.1, []) := insert_of_refuse (.inl rfl)
    simpa [hrefuse] using h
  · by_cases hp : c = 0x10
    · simpa [hp] using h
    · by_cases hu : c = 0x15
      · simpa [hu] using h.killLine
      · by_cases hb : c = 0x02
        · simpa [hb] using h
        · by_cases hback : c = 0x08 ∨ c = 0x7F
          · simpa [h0, hp, hu, hb, hback] using h.backspace
          · have hbyte : UInt8.ofNat (if c = 0x0D then 0x0A else c) = byteOf c := rfl
            simpa [h0, hp, hu, hb, hback, hbyte] using h.insert h0 hc

theorem holds_consoleintr (g : Input) (bg : ℕ) (t : Editor) (cs : List ℕ) (h : Holds g t)
    (hcs : ∀ c ∈ cs, c < 256) :
    ∃ q, consoleintr g bg cs = some q ∧ Holds q.1 (cs.foldl (Editor.code idle) t) := by
  refine ⟨_, rfl, ?_⟩
  exact Machine.final_foldl (R := fun s t => Holds s.1 t) (V := fun c => c < 256)
    (fun s t c hs hc => holds_code hs hc) cs (g, bg) t h hcs

/-- **Every run of the console is a run of the line editor.**  From boot, and for any
order of interrupts, calls and passes, the system never gets stuck, the calls return
what those of the editor return, and the ring holds the editor's queue and edit line. -/
theorem run_refines_editor (events : List Event) (h : ∀ ev ∈ events, Valid ev) :
    ∃ r t, Machine.run (Sys.step consoleintr) (Sys.boot black) events = some r ∧
      Machine.Trace (Editor.Step idle) Editor.boot events t (r.2.map Answer.ret) ∧
      Implements r.1 t ∧ t.committed = t.consumed ++ r.1.input.queue := by
  obtain ⟨r, t, hr, htrace, himpl⟩ := Machine.run_simulation Answer.ret
    (fun s t ev hst hev => step_implements holds_consoleintr s t ev hst hev)
    events _ _ (implements_boot black) h
  exact ⟨r, t, hr, htrace, himpl, by rw [himpl.holds.queue, t.conserve]⟩

/-- The rule on a line with corrections that two processes read, and a `^D`. -/
theorem run_refines_editor_two_readers :
    ∃ r t, Machine.run (Sys.step consoleintr) (Sys.boot black)
        [.call 1 2, .pass 1 false, .intr [0x61, 0x62, 0x08, 0x02, 0x63, 0x0D], .call 2 8,
          .pass 2 false, .intr [0x64, 0x04], .pass 1 false, .call 2 8, .pass 2 false] = some r ∧
      Machine.Trace (Editor.Step idle) Editor.boot
        [.call 1 2, .pass 1 false, .intr [0x61, 0x62, 0x08, 0x02, 0x63, 0x0D], .call 2 8,
          .pass 2 false, .intr [0x64, 0x04], .pass 1 false, .call 2 8, .pass 2 false] t
        (r.2.map Answer.ret) ∧
      Implements r.1 t ∧ t.committed = t.consumed ++ r.1.input.queue :=
  run_refines_editor _ (by decide)

end Bgcolor
end Console
end Xv6
