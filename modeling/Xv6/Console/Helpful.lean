import Xv6.Console.Enigma
import Xv6.Console.Read

/-!
# The Helpful console

`B22CS052/Helpful/console.c`: the stock line discipline with a clipboard, completion,
the line before, a cipher and a devil mode.  Four of its cases append to the ring.
What the new keys ask for is noted in a flag while `consoleintr` drains its codes, and
done after it, by an `else if` chain that does one thing only.

Several of its loops run past the arrays they read.  A read outside an array is answered
by a `Memory`, about which nothing is assumed; a write outside an array leaves the step
undefined.

* `Vars`, `Flags`, `Memory` — the console's variables, the local flags of
  `consoleintr`, and what lies around the arrays.
* `copy`, `paste`, `typed`, `autoComplete`, `getPrevLine` — the operations.
* `code`, `deferred`, `consoleintr` — the switch, the chain, and both together.
-/

namespace Xv6
namespace Console
namespace Helpful

open Counter

/-! ### Data -/

/-- `autocomplete_words`. -/
def autocompleteWords : List (List UInt8) :=
  ["hello", "world", "example", "system", "function", "process", "command", "terminal",
    "keyboard", "display", "program", "error", "message", "input", "output", "file",
    "directory", "network", "memory", "control", "action", "window", "mouse", "data",
    "program", "execute", "script", "task", "initialize", "load", "save", "update",
    "restart", "shutdown", "pause", "continue", "start", "stop", "navigate", "search",
    "create", "delete", "move", "copy", "paste", "cut", "help", "config", "option",
    "user"].map str

/-- The variables of the console beside the ring. -/
structure Vars where
  clipboard : Vector UInt8 128
  previousLine : Vector UInt8 128
  trackEnigma : ℕ
  frustrationLevel : ℕ
  rotorOffsets : Enigma.Offsets
  deriving DecidableEq

/-- The variables at boot. -/
def Vars.boot : Vars := ⟨Vector.replicate 128 0, Vector.replicate 128 0, 0, 0, Enigma.boot⟩

/-- What the console reads outside its arrays: around `input.buf` and around
`previous_line`, how many bytes follow `previous_line` before the next NUL, and what
`enigma` makes of a letter that it looks up in front of a rotor. -/
structure Memory where
  buf : Input → Vars → ℤ → UInt8
  line : Input → Vars → ℤ → UInt8
  overrun : Input → Vars → ℕ
  cipher : Input → Vars → UInt8 → UInt8

/-- A memory of zeros. -/
def Memory.zero : Memory := ⟨fun _ _ _ => 0, fun _ _ _ => 0, fun _ _ => 0, fun _ _ _ => 0⟩

/-- The local variables of `consoleintr`. -/
structure Flags where
  doprocdump : Bool := false
  shouldAutoComplete : Bool := false
  shouldClearScreen : Bool := false
  isEncrypt : Bool := false
  upKey : Bool := false
  devilMode : Bool := false
  c_ : ℕ := 0
  isStickyEnabled : Bool := false
  isStickyDisabled : Bool := false
  isDvarok : Bool := false
  isQwerty : Bool := false
  isGuide : Bool := false
  deriving DecidableEq

/-- `input.buf[i]`, without the remainder. -/
def bufAt (m : Memory) (g : Input) (v : Vars) (i : ℤ) : UInt8 :=
  if 0 ≤ i ∧ i < 128 then g.get (UInt32.ofNat i.toNat) else m.buf g v i

/-- `previous_line[i]`. -/
def lineAt (m : Memory) (g : Input) (v : Vars) (i : ℤ) : UInt8 :=
  if h : 0 ≤ i ∧ i < 128 then v.previousLine.get ⟨i.toNat, by omega⟩ else m.line g v i

/-- The bytes of an array of characters in front of its first NUL. -/
def content (a : Vector UInt8 128) : List UInt8 := a.toList.takeWhile (· ≠ 0)

/-- `strlen(previous_line)`. -/
def prevLen (m : Memory) (g : Input) (v : Vars) : ℕ :=
  let n := (content v.previousLine).length
  if n < 128 then n else 128 + m.overrun g v

/-- `strncpy(dst, src, 128)`, for a `src` of 128 bytes. -/
def strncpy (src : Vector UInt8 128) : Vector UInt8 128 :=
  Vector.ofFn fun i => if i.val < (content src).length then src.get i else 0

/-- `strncpy(previous_line, "", 128)`. -/
def Vars.clearLine (v : Vars) : Vars := { v with previousLine := Vector.replicate 128 0 }

/-- `cprintf` of a text without conversions. -/
def printf (s : String) : List Out := (str s).map fun b => .putc b.toNat

/-- `consputc` of the bytes of an array, which are of type `char`. -/
def putChars (cs : List UInt8) : List Out := cs.map fun b => .putc (schar b)

/-! ### The cases of the switch -/

/-- Ctrl+C: `strncpy(clipboard,input.buf,128)`. -/
def copy (g : Input) (v : Vars) : Vars := { v with clipboard := strncpy g.buf }

/-- The loop of Ctrl+V. -/
def pasteLoop (g : Input) : List UInt8 → Input × List Out
  | [] => (g, [])
  | c :: cs =>
      if dist g.r g.e < 128 then
        let p := pasteLoop (g.put c) cs
        (p.1, .putc (schar c) :: p.2)
      else (g, [])

/-- Ctrl+V.  A clipboard without a NUL fills the ring before the loop leaves the array. -/
def paste (g : Input) (v : Vars) : Input × List Out := pasteLoop g (content v.clipboard)

/-- The loop that saves the line backwards, from its index `q` on, for at most `n`
rounds.  Neither index is taken modulo its array. -/
def recordLoop (m : Memory) (g : Input) : ℕ → ℕ → Vars → Option Vars
  | 0, _, v => some v
  | n + 1, q, v =>
      let b := bufAt m g v ((g.e - 1).toInt32.toInt - q - 1)
      if b ≠ 0x0A then
        if h : q < 128 then
          recordLoop m g n (q + 1) { v with previousLine := v.previousLine.set q b }
        else none
      else some v

/-- The line that is about to be committed is saved in `previous_line`.  The rounds are
bounded by the comparison of `last+1-q` and `input.r` as unsigned numbers. -/
def record (m : Memory) (g : Input) (v : Vars) : Option Vars :=
  recordLoop m g (g.e.toNat - g.r.toNat) 0 v

/-- The default case. -/
def typed (m : Memory) (g : Input) (v : Vars) (c : ℕ) : Option (Input × Vars × List Out) :=
  if c ≠ 0 ∧ dist g.r g.e < 128 then
    let g' := g.put (UInt8.ofNat (crToNl c))
    if crToNl c = 0x0A ∨ crToNl c = 0x04 ∨ g'.e = g'.r + 128 then
      (record m g' v).map fun v' => (g'.commit, v', [.putc (crToNl c)])
    else some (g', v, [.putc (crToNl c)])
  else some (g, v, [])

/-- The state of the loop of `consoleintr`. -/
structure State where
  input : Input
  vars : Vars
  flags : Flags := {}
  deriving DecidableEq

/-- The cases of the switch that set a flag. -/
def Flags.note (f : Flags) (c : ℕ) : Option Flags :=
  if c = 2500 then some { f with isStickyEnabled := true }
  else if c = 2501 then some { f with isStickyDisabled := true }
  else if c = 2502 then some { f with isDvarok := true }
  else if c = 2503 then some { f with isQwerty := true }
  else if c = 2504 then some { f with isGuide := true }
  else if c = 226 then some { f with upKey := true }
  else if c = 0x09 then some { f with shouldAutoComplete := true }
  else if c = 1000 then some { f with isEncrypt := true }
  else if c = 0x10 then some { f with doprocdump := true }             -- C('P')
  else if c = 0x0C then some { f with shouldClearScreen := true }      -- C('L')
  else none

/-- The cases of the switch that act at once. -/
def edit (m : Memory) (g : Input) (v : Vars) (c : ℕ) : Option (Input × Vars × List Out) :=
  if c = 0x15 ∨ c = 227 then some ((killLine g).1, v, (killLine g).2)  -- C('U')
  else if c = 0x03 then some (g, copy g v, [])                         -- C('C')
  else if c = 0x16 then some ((paste g v).1, v, (paste g v).2)         -- C('V')
  else if c = 0x08 ∨ c = 0x7F then some ((backspace g).1, v, (backspace g).2)
  else typed m g v c

/-- One round of the loop of `consoleintr`. -/
def code (m : Memory) (s : State) (c : ℕ) : Option (State × List Out) :=
  if 1000 ≤ c ∧ c < 2000 then
    if h : s.vars.trackEnigma < 128 then
      some ({ s with
        vars := { s.vars with
          previousLine := s.vars.previousLine.set s.vars.trackEnigma (UInt8.ofNat (c - 1000))
          trackEnigma := s.vars.trackEnigma + 1 }
        flags := { s.flags with isEncrypt := true, c_ := c - 1000 } }, [])
    else none
  else if 2000 ≤ c ∧ c < 2500 then
    some ({ s with
      vars := { s.vars with frustrationLevel := s.vars.frustrationLevel + 1 }
      flags := { s.flags with devilMode := true, c_ := c - 2000 } }, [])
  else
    match s.flags.note c with
    | some f => some ({ s with flags := f }, [])
    | none =>
        (edit m s.input s.vars c).map fun q => ({ s with input := q.1, vars := q.2.1 }, q.2.2)

/-! ### The deferred actions -/

/-- `clear_screen`. -/
def clearScreen : List Out := printf "\x1b[H" ++ printf "\x1b[J"

/-- The copy of the word before the cursor, its last byte first, from the index `q` on,
for at most `n` rounds.  The index into the ring is not taken modulo its capacity, and
`word_to_match` has 128 bytes. -/
def wordLoop (m : Memory) (g : Input) (v : Vars) : ℕ → ℕ → Option (List UInt8)
  | 0, _ => some []
  | n + 1, q =>
      let b := bufAt m g v ((g.e.toNat : ℤ) - q - 1)
      if b ≠ 0x20 then
        if q < 128 then (wordLoop m g v n (q + 1)).map (b :: ·) else none
      else some []

/-- How far two words agree. -/
def agree : List UInt8 → List UInt8 → ℕ
  | a :: as, b :: bs => if a = b then agree as bs + 1 else 0
  | _, _ => 0

/-- The loop of `auto_complete` that erases the word, run for at most `n` rounds. -/
def eraseLoop : ℕ → Input → Input × List Out
  | 0, g => (g, [])
  | n + 1, g =>
      if g.r < g.e ∧ g.e ≠ g.w ∧ g.get (g.e - 1) ≠ 0x0A ∧ g.get (g.e - 1) ≠ 0x20 then
        let p := eraseLoop n g.erase
        (p.1, .putc backspaceCode :: p.2)
      else (g, [])

/-- The loop of `auto_complete` that types the match. -/
def fillLoop (g : Input) : List UInt8 → Input × List Out
  | [] => (g, [])
  | c :: cs =>
      if dist g.r g.e < 128 then
        let g' := g.put c
        let p := fillLoop (if g'.e = g'.r + 128 then g'.commit else g') cs
        (p.1, .putc (schar c) :: p.2)
      else (g, [])

/-- `auto_complete`. -/
def autoComplete (m : Memory) (g : Input) (v : Vars) : Option (Input × List Out) :=
  (wordLoop m g v (g.e.toNat - g.r.toNat) 0).map fun w =>
    let word := w.reverse
    match autocompleteWords.find? fun word' => word.length ≤ agree word' word with
    | some best =>
        if 0 < agree best word then
          let p := eraseLoop (dist g.w g.e) g
          let q := fillLoop p.1 best
          (q.1, p.2 ++ q.2)
        else (g, [])
    | none => (g, [])

/-- The loop of `get_prev_line`, which walks down from `previous_line[i]` for at most `n`
rounds.  Nothing stops it at the start of the array. -/
def recallLoop (m : Memory) (v : Vars) : ℕ → ℤ → Input → Input × List Out
  | 0, _, g => (g, [])
  | n + 1, i, g =>
      let b := lineAt m g v i
      if b ≠ 0x0A ∧ b ≠ 0 ∧ dist g.r g.e < 128 then
        let p := recallLoop m v n (i - 1) (g.put b)
        (p.1, .putc (schar b) :: p.2)
      else (g, [])

/-- `get_prev_line`.  The room in the ring bounds the rounds of the loop. -/
def getPrevLine (m : Memory) (g : Input) (v : Vars) : Input × Vars × List Out :=
  let p := recallLoop m v (128 - dist g.r g.e) ((prevLen m g v : ℤ) - 1) g
  (p.1, v.clearLine, p.2)

/-- `guide`. -/
def guide : List Out :=
  printf "Press CTRL + E to Enter and Exit into Enigma Mode\n" ++
  printf "Press CTRL + C to Copy last 128 characters\n" ++
  printf "Press CTRL + V to paste the copied characters\n" ++
  printf "Press CTRL + S to activate sticky keys\n" ++
  printf "Press CTRL + D to change keyboard layout\n" ++
  printf "Press Up Arrow to get previous line\n" ++
  printf "Press CTRL + SHIFT + P to Enter Pascal Case Mode \x7bHello World For Example\x7d\n" ++
  printf "Press CTRL + SHIFT + C to Enter Camel Case Mode \x7bhello World For Example\x7d\n" ++
  printf "Press CTRL + SHIFT + S to Enter Snale Case Mode \x7bhello_world_for_example\x7d\n" ++
  printf "Press CTRL + SHIFT + D to Enter Devil Mode (Warning !!!)\n" ++
  printf "Press CTRL + SHIFT + H to open this guide again\n"

/-- `handle_new_line_enigma`. -/
def handleNewLineEnigma (m : Memory) (g : Input) (v : Vars) : Vars × List Out :=
  ({ v with trackEnigma := 0 }.clearLine,
    printf " is enigma cipher for " ++
      putChars ((List.range (prevLen m g v)).map fun i => lineAt m g v i) ++ printf ".")

/-- The test for a letter. -/
def isLetter (c : ℕ) : Bool := (0x61 ≤ c && c ≤ 0x7A) || (0x41 ≤ c && c ≤ 0x5A)

/-- `enigma`, which moves the rotors also where it leaves its tables. -/
def cipher (m : Memory) (g : Input) (v : Vars) (c : UInt8) : Enigma.Offsets × UInt8 :=
  (Enigma.enigma v.rotorOffsets c).getD (v.rotorOffsets.step, m.cipher g v c)

/-- The action of `is_encrypt`. -/
def encrypt (m : Memory) (g : Input) (v : Vars) (c : ℕ) : Vars × List Out :=
  if c = 0x0A then
    let p := handleNewLineEnigma m g v
    (p.1, p.2 ++ [.putc c])
  else if isLetter c then
    let p := cipher m g v (UInt8.ofNat c)
    ({ v with rotorOffsets := p.1 }, [.putc c, .putc backspaceCode, .putc (schar p.2)])
  else (v, [.putc c, .putc backspaceCode, .putc c])

/-- `handle_devil_mode`. -/
def handleDevilMode (c : ℕ) : List Out :=
  if c = 2000 then
    printf "------- Welcome to Devil Mode-------\nThere is no way to exit now!!!\n"
  else if 225 ≤ c ∧ c ≤ 227 then printf "Rebooting\n" ++ [.outb 0x64 0xFE]
  else if 228 ≤ c ∧ c ≤ 230 then printf "You are entering into deadlock\n"
  else if 231 ≤ c ∧ c ≤ 234 then printf "echo\n"
  else if 235 ≤ c ∧ c ≤ 238 then printf "echo\n"
  else if 239 ≤ c ∧ c ≤ 241 then [.putc c]
  else if 242 ≤ c ∧ c ≤ 244 then List.replicate 5 (.putc ((c : ℤ) - 128 + 0x40))
  else if 245 ≤ c ∧ c ≤ 247 then List.replicate 5 (.putc backspaceCode)
  else if 248 ≤ c ∧ c ≤ 250 then printf "echo\n"
  else if c ≠ 128 then printf "You are lucky at this keystroke!\n"
  else []

/-- The action of `devil_mode`. -/
def devil (v : Vars) (c : ℕ) : List Out :=
  (if v.frustrationLevel % 5 = 0 then
    printf "\nI see your frustation is now level " ++
      printf (toString (v.frustrationLevel / 5)) ++
      printf ". Let's see your patience!!!\n"
  else []) ++
  if c = 0 then printf "\n----Devil Mode entered----No way to exit!!!\n"
  else if 250 < c ∨ c < 225 then [.putc c]
  else handleDevilMode c

/-- The chain behind the loop of `consoleintr`. -/
def deferred (m : Memory) (s : State) : Option (Input × Vars × List Out) :=
  let g := s.input
  let v := s.vars
  if s.flags.shouldAutoComplete then (autoComplete m g v).map fun p => (p.1, v, p.2)
  else if s.flags.shouldClearScreen then some (g, v, clearScreen)
  else if s.flags.upKey then some (getPrevLine m g v)
  else if s.flags.isGuide then some (g, v, guide)
  else if s.flags.isEncrypt then some (g, encrypt m g v s.flags.c_)
  else if s.flags.devilMode then some (g, v, devil v s.flags.c_)
  else if s.flags.isDvarok then some (g, v, printf "Switched to Dvarok layout\n")
  else if s.flags.isQwerty then some (g, v, printf "Switched to qwerty layout\n")
  else if s.flags.isStickyEnabled then some (g, v, printf "Sticky Keys enabled\n")
  else if s.flags.isStickyDisabled then some (g, v, printf "Sricky Keys disabled\n")
  else if s.flags.doprocdump then some (g, v, [.procdump])
  else some (g, v, [])

/-- `consoleintr`, on the codes `getc` returns before its first negative value. -/
def consoleintr (m : Memory) (g : Input) (v : Vars) (cs : List ℕ) :
    Option (Input × Vars × List Out) :=
  (Machine.run (code m) { input := g, vars := v } cs).bind fun p =>
    (deferred m p.1).map fun q => (q.1, q.2.1, p.2.flatten ++ q.2.2)

/-! ### What one round does -/

/-- The codes that are noted in a flag and acted on after the loop. -/
def Deferred (c : ℕ) : Prop := c = 0x09 ∨ c = 0x0C ∨ c = 226 ∨ 1000 ≤ c ∧ c ≤ 2504

instance (c : ℕ) : Decidable (Deferred c) := inferInstanceAs (Decidable (_ ∨ _))

/-- Some action is noted, other than the process listing. -/
def Flags.Pending (f : Flags) : Prop :=
  f.shouldAutoComplete ∨ f.shouldClearScreen ∨ f.upKey ∨ f.isGuide ∨ f.isEncrypt ∨
    f.devilMode ∨ f.isDvarok ∨ f.isQwerty ∨ f.isStickyEnabled ∨ f.isStickyDisabled

/-- One case of the switch that sets a flag. -/
theorem Flags.pending_ite {p : Prop} [Decidable p] {f f' : Flags} {rest : Option Flags}
    (hset : p → f.Pending) (hrest : rest = some f' → f'.Pending)
    (h : (if p then some f else rest) = some f') : f'.Pending := by
  rcases ite_eq_iff.mp h with ⟨hp, hf⟩ | ⟨-, hf⟩
  · cases hf
    exact hset hp
  · exact hrest hf

theorem Flags.pending_note {f f' : Flags} {c : ℕ} (h : f.note c = some f')
    (hc : c ≠ 0x10 ∨ f.Pending) : f'.Pending := by
  revert h
  unfold Flags.note
  refine pending_ite (fun _ => by simp [Flags.Pending]) ?_      -- sticky keys on
  refine pending_ite (fun _ => by simp [Flags.Pending]) ?_      -- sticky keys off
  refine pending_ite (fun _ => by simp [Flags.Pending]) ?_      -- Dvorak
  refine pending_ite (fun _ => by simp [Flags.Pending]) ?_      -- QWERTY
  refine pending_ite (fun _ => by simp [Flags.Pending]) ?_      -- the guide
  refine pending_ite (fun _ => by simp [Flags.Pending]) ?_      -- up-arrow
  refine pending_ite (fun _ => by simp [Flags.Pending]) ?_      -- TAB
  refine pending_ite (fun _ => by simp [Flags.Pending]) ?_      -- encryption
  refine pending_ite (fun hp => hc.resolve_left fun h => h hp) ?_
  refine pending_ite (fun _ => by simp [Flags.Pending]) ?_      -- Ctrl-L
  exact fun h => absurd h (by simp)

/-- A code is deferred, or a process listing, or edits. -/
theorem Flags.note_isSome_iff {f : Flags} {c : ℕ} (hrange : ¬ (1000 ≤ c ∧ c < 2500)) :
    (f.note c).isSome ↔ Deferred c ∨ c = 0x10 := by
  simp only [Flags.note, apply_ite Option.isSome, Option.isSome_some, Option.isSome_none,
    Bool.if_true_left, Bool.or_eq_true, decide_eq_true_eq, Bool.false_eq_true, or_false, Deferred]
  omega

/-- A round with a code that is not deferred edits, and leaves the flags alone. -/
theorem code_edit {m : Memory} {s : State} {c : ℕ} (hc : ¬ Deferred c) (hp : c ≠ 0x10) :
    code m s c = (edit m s.input s.vars c).map fun q =>
      ({ s with input := q.1, vars := q.2.1 }, q.2.2) := by
  have hrange : ¬ (1000 ≤ c ∧ c ≤ 2504) := fun h => hc (.inr (.inr (.inr h)))
  have hnone : s.flags.note c = none := by
    rw [← Option.not_isSome_iff_eq_none, Flags.note_isSome_iff (by omega)]
    rintro (h | h)
    · exact hc h
    · exact hp h
  rw [code, if_neg (by omega), if_neg (by omega), hnone]

/-- A round with a deferred code notes an action, and leaves the ring alone. -/
theorem code_note {m : Memory} {s : State} {c : ℕ} {p : State × List Out}
    (hc : Deferred c ∨ c = 0x10) (hp : code m s c = some p) :
    p.1.input = s.input ∧ (Deferred c ∨ s.flags.Pending → p.1.flags.Pending) := by
  unfold code at hp
  split at hp
  · split at hp
    · cases hp
      exact ⟨rfl, fun _ => by simp [Flags.Pending]⟩
    · contradiction
  · split at hp
    · cases hp
      exact ⟨rfl, fun _ => by simp [Flags.Pending]⟩
    · split at hp
      · next f hf =>
        cases hp
        refine ⟨rfl, fun h => Flags.pending_note hf (h.imp_left ?_)⟩
        rintro hd rfl
        exact absurd hd (by decide)
      · next hf =>
        have hsome := (Flags.note_isSome_iff (f := s.flags) (by omega)).mpr hc
        rw [hf] at hsome
        contradiction

end Helpful
end Console
end Xv6
