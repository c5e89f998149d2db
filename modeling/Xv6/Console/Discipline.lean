import Xv6.Console.Input

/-!
# The line discipline

What `consoleintr` does with a single key code.  The versions of the console
share the cases of its switch, so each case is a definition here: kill-line,
backspace and the default case, which appends a character and commits the line
at a newline, at `^D` and when the ring is full.

The output of the console is the sequence of the calls it makes: `consputc` with
its argument, which is `BACKSPACE` or a character, and `procdump`.

* `killLine`, `backspace`, `insert` — the cases.
* `Stock.consoleintr` — the unmodified `consoleintr`.
* `ok_killLine`, `ok_backspace`, `ok_insert` — each keeps the index invariant.
* `line_killLine`, `line_backspace`, `insert_of_commit`, `insert_of_extend` — what each
  does to the committed bytes and the edit line.
-/

namespace Xv6
namespace Console

open Counter

/-- What the console does to the outside. -/
inductive Out
  /-- `consputc(c)`. -/
  | putc (c : ℤ)
  /-- `procdump()`, the process listing. -/
  | procdump
  /-- `outb(port, data)`. -/
  | outb (port data : ℕ)
  deriving DecidableEq

/-- `BACKSPACE`. -/
def backspaceCode : ℤ := 0x100

/-! ### The cases of the switch -/

/-- The loop of kill-line, run for at most `n` rounds. -/
def killLoop : ℕ → Input → Input × List Out
  | 0, g => (g, [])
  | n + 1, g =>
      if g.e ≠ g.w ∧ g.get (g.e - 1) ≠ 0x0A then
        let p := killLoop n g.erase
        (p.1, .putc backspaceCode :: p.2)
      else (g, [])

/-- Kill line.  The edit line bounds the rounds of the loop. -/
def killLine (g : Input) : Input × List Out := killLoop (dist g.w g.e) g

/-- Backspace. -/
def backspace (g : Input) : Input × List Out :=
  if g.e ≠ g.w then (g.erase, [.putc backspaceCode]) else (g, [])

/-- `c = (c == '\r') ? '\n' : c`. -/
def crToNl (c : ℕ) : ℕ := if c = 0x0D then 0x0A else c

/-- The default case: append the character, and commit the line if it is complete. -/
def insert (g : Input) (c : ℕ) : Input × List Out :=
  if c ≠ 0 ∧ dist g.r g.e < 128 then
    let g' := g.put (UInt8.ofNat (crToNl c))
    (if crToNl c = 0x0A ∨ crToNl c = 0x04 ∨ g'.e = g'.r + 128 then g'.commit else g',
      [.putc (crToNl c)])
  else (g, [])

/-! ### The unmodified console -/

namespace Stock

/-- The switch of the unmodified `consoleintr`: the ring, the output, and whether
a process listing is asked for. -/
def code (g : Input) (c : ℕ) : Input × List Out × Bool :=
  if c = 0x10 then (g, [], true)                                  -- C('P')
  else if c = 0x15 then ((killLine g).1, (killLine g).2, false)   -- C('U')
  else if c = 0x08 ∨ c = 0x7F then ((backspace g).1, (backspace g).2, false)
  else ((insert g c).1, (insert g c).2, false)

/-- The loop over the codes `getc` returns. -/
def drain (g : Input) : List ℕ → Input × List Out × Bool
  | [] => (g, [], false)
  | c :: cs =>
      let p := code g c
      let q := drain p.1 cs
      (q.1, p.2.1 ++ q.2.1, p.2.2 || q.2.2)

/-- The unmodified `consoleintr`, as in `B22CS039/console.c`, on the codes `getc`
returns before its first negative value. -/
def consoleintr (g : Input) (cs : List ℕ) : Input × List Out :=
  let p := drain g cs
  (p.1, p.2.1 ++ if p.2.2 then [.procdump] else [])

end Stock

/-! ### The index invariant -/

section Ok

variable {g : Input}

theorem ok_killLoop : ∀ (n : ℕ) {g : Input}, g.Ok → (killLoop n g).1.Ok := by
  intro n
  induction n with
  | zero => intro g h; exact h
  | succ n ih =>
    intro g h
    unfold killLoop
    split
    · next hne => exact ih (h.erase hne.1)
    · exact h

theorem ok_killLine (h : g.Ok) : (killLine g).1.Ok := ok_killLoop _ h

theorem ok_backspace (h : g.Ok) : (backspace g).1.Ok := by
  unfold backspace
  split
  · next hne => exact h.erase hne
  · exact h

/-- A ring is full when its end is a capacity ahead of the reader. -/
theorem e_eq_iff_full : g.e = g.r + 128 ↔ dist g.r g.e = 128 := by
  constructor
  · intro h
    rw [h]
    exact dist_add_ofNat g.r (by decide)
  · intro h
    rw [← add_dist g.r g.e, h]
    rfl

theorem ok_insert (h : g.Ok) (c : ℕ) : (insert g c).1.Ok := by
  unfold insert
  split
  · next hc =>
    have hput := h.put hc.2 (UInt8.ofNat (crToNl c))
    dsimp only
    split
    · exact hput.commit
    · next hno =>
      simp only [not_or] at hno
      refine ⟨hput, fun hfull => absurd (e_eq_iff_full.mpr hfull) hno.2.2⟩
  · exact h

theorem Stock.ok_code (h : g.Ok) (c : ℕ) : (Stock.code g c).1.Ok := by
  unfold Stock.code
  split
  · exact h
  · split
    · exact ok_killLine h
    · split
      · exact ok_backspace h
      · exact ok_insert h c

end Ok

/-! ### The committed bytes and the edit line -/

section Lists

variable {g : Input}

theorem queue_killLoop : ∀ (n : ℕ) (g : Input), (killLoop n g).1.queue = g.queue := by
  intro n
  induction n with
  | zero => intro g; rfl
  | succ n ih =>
    intro g
    unfold killLoop
    split
    · exact (ih g.erase).trans (Input.queue_erase g)
    · rfl

theorem queue_killLine (g : Input) : (killLine g).1.queue = g.queue := queue_killLoop _ g

/-- Kill-line drops the edit line back to the last newline in it. -/
theorem line_killLoop : ∀ (n : ℕ) (g : Input), dist g.w g.e = n →
    (killLoop n g).1.line = g.line.rdropWhile (· ≠ 0x0A) := by
  intro n
  induction n with
  | zero =>
    intro g hn
    rw [Input.line_eq_nil.mpr (dist_eq_zero.mp hn).symm]
    exact Input.line_eq_nil.mpr (dist_eq_zero.mp hn).symm
  | succ n ih =>
    intro g hn
    have hne : g.e ≠ g.w := by
      intro heq
      rw [heq, dist_self] at hn
      omega
    rw [killLoop, Input.line_eq_concat hne]
    rcases eq_or_ne (g.get (g.e - 1)) 0x0A with hnl | hnl
    · rw [if_neg fun h => h.2 hnl, List.rdropWhile_concat_neg _ _ _ (by simp [hnl])]
      exact Input.line_eq_concat hne
    · have hd : dist g.erase.w g.erase.e = n := by
        rw [Input.erase_w, Input.erase_e, dist_pred_right (by omega), hn, Nat.add_sub_cancel]
      rw [if_pos ⟨hne, hnl⟩, List.rdropWhile_concat_pos _ _ _ (by simp [hnl])]
      exact (ih g.erase hd).trans (by rw [Input.line_erase hne])

theorem line_killLine (g : Input) :
    (killLine g).1.line = g.line.rdropWhile (· ≠ 0x0A) := line_killLoop _ g rfl

theorem queue_backspace (g : Input) : (backspace g).1.queue = g.queue := by
  unfold backspace
  split <;> rfl

theorem line_backspace (g : Input) : (backspace g).1.line = g.line.dropLast := by
  unfold backspace
  split
  · next hne => exact Input.line_erase hne
  · next he =>
    have hnil : g.line = [] := Input.line_eq_nil.mpr (not_not.mp he)
    exact hnil.trans (by rw [hnil, List.dropLast_nil])

/-- A code that is zero, or comes when the ring is full, is refused. -/
theorem insert_of_refuse {c : ℕ} (h : c = 0 ∨ 128 ≤ dist g.r g.e) : insert g c = (g, []) := by
  refine if_neg fun hc => ?_
  rcases h with h | h
  · exact hc.1 h
  · exact absurd hc.2 (by omega)

/-- The byte a code leaves in the ring. -/
def byteOf (c : ℕ) : UInt8 := UInt8.ofNat (crToNl c)

/-- Whether the code `c`, arriving when `len` bytes are unread, commits the line. -/
def Commits (len c : ℕ) : Prop := crToNl c = 0x0A ∨ crToNl c = 0x04 ∨ len + 1 = 128

instance (len c : ℕ) : Decidable (Commits len c) := inferInstanceAs (Decidable (_ ∨ _))

/-- An accepted code in terms of the two operations on the ring. -/
theorem insert_of_accept {c : ℕ} (hc : c ≠ 0) (hlt : dist g.r g.e < 128) :
    insert g c = (if Commits (dist g.r g.e) c then (g.put (byteOf c)).commit
      else g.put (byteOf c), [.putc (crToNl c)]) := by
  have hfull : (g.put (byteOf c)).e = (g.put (byteOf c)).r + 128 ↔ dist g.r g.e + 1 = 128 := by
    rw [e_eq_iff_full, Input.dist_put hlt]
  rw [insert, if_pos ⟨hc, hlt⟩]
  exact Prod.ext (if_congr (or_congr Iff.rfl (or_congr Iff.rfl hfull)) rfl rfl) rfl

theorem insert_of_commit (h : g.Bounds) {c : ℕ} (hc : c ≠ 0) (hlt : dist g.r g.e < 128)
    (hcommit : Commits (dist g.r g.e) c) :
    (insert g c).1.queue = g.queue ++ g.line ++ [byteOf c] ∧ (insert g c).1.line = [] := by
  rw [insert_of_accept hc hlt, if_pos hcommit]
  refine ⟨?_, Input.line_commit _⟩
  rw [Input.queue_commit (h.put hlt _), Input.queue_put h hlt, Input.line_put h hlt,
    List.append_assoc]

theorem insert_of_extend (h : g.Bounds) {c : ℕ} (hc : c ≠ 0) (hlt : dist g.r g.e < 128)
    (hcommit : ¬ Commits (dist g.r g.e) c) :
    (insert g c).1.queue = g.queue ∧ (insert g c).1.line = g.line ++ [byteOf c] := by
  rw [insert_of_accept hc hlt, if_neg hcommit]
  exact ⟨Input.queue_put h hlt _, Input.line_put h hlt _⟩

/-- No case of the switch touches the committed bytes. -/
theorem queue_prefix_insert (h : g.Bounds) (c : ℕ) : g.queue <+: (insert g c).1.queue := by
  by_cases hc : c ≠ 0 ∧ dist g.r g.e < 128
  · by_cases hcommit : Commits (dist g.r g.e) c
    · rw [(insert_of_commit h hc.1 hc.2 hcommit).1, List.append_assoc]
      exact List.prefix_append _ _
    · rw [(insert_of_extend h hc.1 hc.2 hcommit).1]
  · rw [insert_of_refuse (by omega)]

end Lists

end Console
end Xv6
