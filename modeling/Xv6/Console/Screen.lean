import Xv6.Console.Bgcolor

/-!
# The screen

`cgaputc` of `B22ES019/bgcolor_change/console.c`, which draws a character at the
cursor, on the background colour, and scrolls the text up at the bottom of the
screen.  The memory of the CGA holds two bytes for a cell, the character and its
attribute; `memset` and `memmove` are those of `string.c`.

* `memset_apply`, `memmove_apply` — what the two functions leave in memory.
* `Cga`, `cgaputc` — the CGA and what a character does to it.
* `render` — the reference: a text broken at newlines and after 80 columns.
* `Shows`, `shows_cgaputc` — a screen that shows the end of a text, and one more
  character.
* `cgaputc_render` — **the screen shows the last 24 rows of the text.**
-/

namespace Xv6
namespace Console
namespace Bgcolor

/-! ### `string.c` -/

/-- `stosb`, for `n` bytes. -/
def stosb (m : ℕ → UInt8) (dst : ℕ) (c : UInt8) : ℕ → ℕ → UInt8
  | 0 => m
  | n + 1 => stosb (Function.update m dst c) (dst + 1) c n

/-- `stosl`, for `n` words that have `c` in each of their bytes. -/
def stosl (m : ℕ → UInt8) (dst : ℕ) (c : UInt8) : ℕ → ℕ → UInt8
  | 0 => m
  | n + 1 => stosl (stosb m dst c 4) (dst + 4) c n

def memset (m : ℕ → UInt8) (dst : ℕ) (c : UInt8) (n : ℕ) : ℕ → UInt8 :=
  if dst % 4 = 0 ∧ n % 4 = 0 then stosl m dst c (n / 4) else stosb m dst c n

/-- The loop of `memmove` that goes down, with `n` bytes to go. -/
def moveDown (m : ℕ → UInt8) (dst src : ℕ) : ℕ → ℕ → UInt8
  | 0 => m
  | n + 1 => moveDown (Function.update m (dst + n) (m (src + n))) dst src n

/-- The loop of `memmove` that goes up. -/
def moveUp (m : ℕ → UInt8) (dst src : ℕ) : ℕ → ℕ → UInt8
  | 0 => m
  | n + 1 => moveUp (Function.update m dst (m src)) (dst + 1) (src + 1) n

def memmove (m : ℕ → UInt8) (dst src n : ℕ) : ℕ → UInt8 :=
  if src < dst ∧ dst < src + n then moveDown m dst src n else moveUp m dst src n

theorem stosb_apply (c : UInt8) : ∀ (n : ℕ) (m : ℕ → UInt8) (dst i : ℕ),
    stosb m dst c n i = if dst ≤ i ∧ i < dst + n then c else m i := by
  intro n
  induction n with
  | zero =>
    intro m dst i
    rw [if_neg (by omega)]
    rfl
  | succ n ih =>
    intro m dst i
    rw [stosb, ih, Function.update_apply]
    rcases eq_or_ne i dst with rfl | hi
    · rw [if_neg (by omega), if_pos rfl, if_pos (by omega)]
    · rw [if_neg hi]
      exact if_congr (by omega) rfl rfl

theorem stosl_eq (c : UInt8) : ∀ (n : ℕ) (m : ℕ → UInt8) (dst : ℕ),
    stosl m dst c n = stosb m dst c (4 * n) := by
  intro n
  induction n with
  | zero => intro m dst; rfl
  | succ n ih =>
    intro m dst
    funext i
    rw [stosl, ih, stosb_apply, stosb_apply, stosb_apply]
    by_cases hi : dst ≤ i ∧ i < dst + 4
    · rw [if_neg (by omega), if_pos hi, if_pos (by omega)]
    · rw [if_neg hi]
      exact if_congr (by omega) rfl rfl

theorem memset_apply (m : ℕ → UInt8) (dst : ℕ) (c : UInt8) (n i : ℕ) :
    memset m dst c n i = if dst ≤ i ∧ i < dst + n then c else m i := by
  unfold memset
  split
  · next h => rw [stosl_eq, stosb_apply, show 4 * (n / 4) = n by omega]
  · exact stosb_apply c n m dst i

theorem moveDown_apply : ∀ (n : ℕ) (m : ℕ → UInt8) {dst src : ℕ} (i : ℕ), src ≤ dst →
    moveDown m dst src n i = if dst ≤ i ∧ i < dst + n then m (src + (i - dst)) else m i := by
  intro n
  induction n with
  | zero =>
    intro m dst src i _
    rw [if_neg (by omega)]
    rfl
  | succ n ih =>
    intro m dst src i hle
    rw [moveDown, ih _ i hle, Function.update_apply, Function.update_apply]
    -- the bytes still to be read lie below the one just written
    rcases eq_or_ne i (dst + n) with rfl | hi
    · rw [if_neg (by omega), if_pos rfl, if_pos (by omega), Nat.add_sub_cancel_left]
    · rw [if_neg hi]
      by_cases hin : dst ≤ i ∧ i < dst + n
      · rw [if_pos hin, if_neg (by omega), if_pos (by omega)]
      · rw [if_neg hin, if_neg (by omega)]

theorem moveUp_apply : ∀ (n : ℕ) (m : ℕ → UInt8) {dst src : ℕ} (i : ℕ),
    dst ≤ src ∨ src + n ≤ dst →
    moveUp m dst src n i = if dst ≤ i ∧ i < dst + n then m (src + (i - dst)) else m i := by
  intro n
  induction n with
  | zero =>
    intro m dst src i _
    rw [if_neg (by omega)]
    rfl
  | succ n ih =>
    intro m dst src i h
    rw [moveUp, ih _ i (by omega), Function.update_apply, Function.update_apply]
    rcases eq_or_ne i dst with rfl | hi
    · rw [if_neg (by omega), if_pos rfl, if_pos (by omega), Nat.sub_self, Nat.add_zero]
    · rw [if_neg hi]
      by_cases hin : dst ≤ i ∧ i < dst + (n + 1)
      · rw [if_pos (by omega), if_pos hin, if_neg (by omega)]
        congr 1
        omega
      · rw [if_neg (by omega), if_neg hin]

/-- `memmove` copies as if it read everything first. -/
theorem memmove_apply (m : ℕ → UInt8) (dst src n i : ℕ) :
    memmove m dst src n i = if dst ≤ i ∧ i < dst + n then m (src + (i - dst)) else m i := by
  unfold memmove
  split
  · next h => exact moveDown_apply n m i h.1.le
  · next h => exact moveUp_apply n m i (by omega)

/-! ### `cgaputc` -/

/-- The CGA: its memory, from `crt` on, and the cursor position that its registers hold,
which is the column plus 80 times the row. -/
structure Cga where
  crt : ℕ → UInt8
  pos : ℕ

namespace Cga

/-- The character byte of a cell. -/
def chr (s : Cga) (i : ℕ) : UInt8 := s.crt (2 * i)

/-- `crt[i] = v`. -/
def put (s : Cga) (i v : ℕ) : Cga :=
  ⟨Function.update (Function.update s.crt (2 * i) (UInt8.ofNat v)) (2 * i + 1)
    (UInt8.ofNat (v / 256)), s.pos⟩

@[simp] theorem pos_put (s : Cga) (i v : ℕ) : (s.put i v).pos = s.pos := rfl

theorem chr_put (s : Cga) (i v j : ℕ) :
    (s.put i v).chr j = if j = i then UInt8.ofNat v else s.chr j := by
  show Function.update (Function.update s.crt (2 * i) (UInt8.ofNat v)) (2 * i + 1)
    (UInt8.ofNat (v / 256)) (2 * j) = _
  rw [Function.update_of_ne (by omega), Function.update_apply]
  exact if_congr (by omega) rfl rfl

/-- What the character `c` does at the cursor.  The cursor never goes below 0. -/
def write (bg : ℕ) (c : ℤ) (s : Cga) : Cga :=
  if c = 0x0A then { s with pos := s.pos + (80 - s.pos % 80) }
  else if c = backspaceCode then { s with pos := s.pos - 1 }
  else { s.put s.pos ((c % 256).toNat ||| bg) with pos := s.pos + 1 }

/-- Scroll up. -/
def scroll (s : Cga) : Cga :=
  { crt := memset (memmove s.crt 0 (2 * 80) (2 * (23 * 80))) (2 * (s.pos - 80)) 0
      (2 * (24 * 80 - (s.pos - 80)))
    pos := s.pos - 80 }

theorem chr_scroll (s : Cga) (i : ℕ) :
    s.scroll.chr i = if s.pos - 80 ≤ i ∧ i < 24 * 80 then 0
      else if i < 23 * 80 then s.chr (i + 80) else s.chr i := by
  show memset (memmove s.crt 0 (2 * 80) (2 * (23 * 80))) (2 * (s.pos - 80)) 0
    (2 * (24 * 80 - (s.pos - 80))) (2 * i) = _
  rw [memset_apply, memmove_apply]
  refine if_congr (by omega) rfl (if_congr (by omega) ?_ rfl)
  rw [chr, Nat.sub_zero]
  congr 1
  omega

end Cga

/-- `cgaputc`, on the background colour `bg`; it may panic. -/
def cgaputc (bg : ℕ) (c : ℤ) (s : Cga) : Option Cga :=
  let s := s.write bg c
  if s.pos > 25 * 80 then none
  else
    let s := if s.pos / 80 ≥ 24 then s.scroll else s
    some (s.put s.pos 0x0720)                                     -- ' ' | 0x0700

/-- A cell drawn on one of the two colours shows its character. -/
theorem ofNat_or_color {bg : ℕ} (hbg : bg = black ∨ bg = blue) (c : ℤ) :
    UInt8.ofNat ((c % 256).toNat ||| bg) = UInt8.ofNat (c % 256).toNat := by
  have hlow : bg % 2 ^ 8 = 0 := by
    rcases hbg with rfl | rfl <;> rfl
  rw [← UInt8.toNat_inj, UInt8.toNat_ofNat', UInt8.toNat_ofNat', Nat.or_mod_two_pow, hlow,
    Nat.or_zero]

theorem Cga.chr_write {bg : ℕ} (hbg : bg = black ∨ bg = blue) (c : ℤ) (s : Cga) (j : ℕ) :
    (s.write bg c).chr j = if c ≠ 0x0A ∧ c ≠ backspaceCode ∧ j = s.pos
      then UInt8.ofNat (c % 256).toNat else s.chr j := by
  unfold Cga.write
  split
  · next hc => exact (if_neg fun h => h.1 hc).symm
  · next hc =>
    split
    · next hb => exact (if_neg fun h => h.2.1 hb).symm
    · next hb =>
      rw [← ofNat_or_color hbg]
      exact (chr_put s s.pos _ j).trans (if_congr ⟨fun h => ⟨hc, hb, h⟩, fun h => h.2.2⟩ rfl rfl)

/-! ### The reference -/

/-- A line in rows of 80 columns.  The last row has room for more. -/
def wrap (line : List UInt8) : List (List UInt8) :=
  (List.range (line.length / 80 + 1)).map fun i => (line.drop (80 * i)).take 80

/-- The reference rendering: a text broken at newlines and after 80 columns. -/
def render (text : List UInt8) : List (List UInt8) := (text.splitOn 0x0A).flatMap wrap

/-- A character at the end of the last row, which a newline and the 80th column end. -/
def advance (p : List (List UInt8) × List UInt8) (b : UInt8) : List (List UInt8) × List UInt8 :=
  if b = 0x0A then (p.1 ++ [p.2], [])
  else if p.2.length + 1 = 80 then (p.1 ++ [p.2 ++ [b]], [])
  else (p.1, p.2 ++ [b])

/-- Every row but the last of a line, and the last. -/
theorem wrap_eq (line : List UInt8) :
    wrap line = ((List.range (line.length / 80)).map fun i => (line.drop (80 * i)).take 80) ++
      [line.drop (80 * (line.length / 80))] := by
  rw [wrap, List.range_succ, List.map_append, List.map_singleton, List.take_of_length_le]
  rw [List.length_drop]
  omega

/-- One more byte in a line. -/
theorem wrap_concat (line : List UInt8) (b : UInt8) :
    wrap (line ++ [b]) =
      ((List.range (line.length / 80)).map fun i => (line.drop (80 * i)).take 80) ++
        if line.length % 80 + 1 = 80
          then [line.drop (80 * (line.length / 80)) ++ [b], []]
          else [line.drop (80 * (line.length / 80)) ++ [b]] := by
  have hlen : (line ++ [b]).length = line.length + 1 := by simp
  have hrows :
      ((List.range (line.length / 80)).map fun i => ((line ++ [b]).drop (80 * i)).take 80) =
      (List.range (line.length / 80)).map fun i => (line.drop (80 * i)).take 80 := by
    refine List.map_congr_left fun i hi => ?_
    rw [List.mem_range] at hi
    rw [List.drop_append_of_le_length (by omega), List.take_append_of_le_length]
    rw [List.length_drop]
    omega
  have hlast : (line ++ [b]).drop (80 * (line.length / 80)) =
      line.drop (80 * (line.length / 80)) ++ [b] := List.drop_append_of_le_length (by omega)
  rw [wrap_eq, hlen]
  split
  · next hfull =>
    have hdiv : (line.length + 1) / 80 = line.length / 80 + 1 := by omega
    have hnil : (line ++ [b]).drop (80 * (line.length / 80 + 1)) = [] :=
      List.drop_eq_nil_of_le (by omega)
    rw [hdiv, List.range_succ, List.map_append, hrows, List.map_singleton, hlast, hnil,
      List.append_assoc, List.take_of_length_le]
    · rfl
    · rw [List.length_append, List.length_drop, List.length_singleton]
      omega
  · next hfull =>
    have hdiv : (line.length + 1) / 80 = line.length / 80 := by omega
    rw [hdiv, hrows, hlast]

/-- A text that does not end in a newline. -/
theorem splitOn_concat {b : UInt8} (hb : b ≠ 0x0A) (text : List UInt8) :
    ∃ front line, text.splitOn 0x0A = front ++ [line] ∧
      (text ++ [b]).splitOn 0x0A = front ++ [line ++ [b]] := by
  induction text with
  | nil => exact ⟨[], [], rfl, List.splitOn_eq_singleton (by simpa using hb.symm)⟩
  | cons c text ih =>
    obtain ⟨front, line, htext, hlong⟩ := ih
    rw [List.cons_append, List.splitOn_cons_eq_if_modifyHead, List.splitOn_cons_eq_if_modifyHead,
      htext, hlong]
    by_cases hc : (c == 0x0A) = true
    · rw [if_pos hc, if_pos hc]
      exact ⟨[] :: front, line, rfl, rfl⟩
    · rw [if_neg hc, if_neg hc]
      cases front with
      | nil => exact ⟨[], c :: line, rfl, rfl⟩
      | cons row front => exact ⟨(c :: row) :: front, line, rfl, rfl⟩

/-- The rows of a text, the last apart. -/
def page (text : List UInt8) : List (List UInt8) × List UInt8 := text.foldl advance ([], [])

theorem page_concat (text : List UInt8) (b : UInt8) :
    page (text ++ [b]) = advance (page text) b := by
  rw [page, List.foldl_append]
  rfl

theorem render_eq (text : List UInt8) :
    render text = (page text).1 ++ [(page text).2] ∧ (page text).2.length < 80 := by
  induction text using List.reverseRecOn with
  | nil => exact ⟨rfl, by decide⟩
  | append_singleton text b ih =>
    obtain ⟨hrender, hlt⟩ := ih
    rw [page_concat, advance]
    rcases eq_or_ne b 0x0A with rfl | hb
    · rw [if_pos rfl]
      refine ⟨?_, by simp⟩
      rw [← hrender, render, List.splitOn_append_cons_self, List.flatMap_append]
      rfl
    · obtain ⟨front, line, htext, hlong⟩ := splitOn_concat hb text
      rw [if_neg hb]
      -- the last row is the end of the last line
      rw [render, htext, List.flatMap_append, List.flatMap_singleton, wrap_eq, ← List.append_assoc]
        at hrender
      obtain ⟨hfront, hlast⟩ := List.append_inj' hrender rfl
      rw [List.singleton_inj] at hlast
      have hlen : (page text).2.length = line.length % 80 := by
        rw [← hlast, List.length_drop]
        omega
      rw [render, hlong, List.flatMap_append, List.flatMap_singleton, wrap_concat, hlast,
        ← List.append_assoc, hfront, hlen]
      split
      · exact ⟨by simp, by simp⟩
      · refine ⟨rfl, ?_⟩
        rw [List.length_append, List.length_singleton]
        omega

/-! ### The screen shows the end of the text -/

/-- The character in the cell `i` of a screen full of rows, blank outside of them. -/
def cellAt (rows : List (List UInt8)) (i : ℕ) : UInt8 :=
  ((rows[i / 80]?).getD [])[i % 80]?.getD 0x20

/-- A zero is seen as a blank. -/
def shown (b : UInt8) : UInt8 := if b = 0 then 0x20 else b

/-- The last 24 rows of a text, the very last apart. -/
def window (p : List (List UInt8) × List UInt8) : List (List UInt8) × List UInt8 :=
  (p.1.drop (p.1.length - 23), p.2)

/-- The screen holds the rows `p`, and the cursor is behind the last of them, which may be
an empty one just below the screen. -/
structure Drawn (s : Cga) (p : List (List UInt8) × List UInt8) : Prop where
  front_le : p.1.length ≤ 24
  below : p.1.length = 24 → p.2 = []
  row_lt : p.2.length < 80
  pos : s.pos = 80 * p.1.length + p.2.length
  cell : ∀ i < 24 * 80, shown (s.chr i) = shown (cellAt (p.1 ++ [p.2]) i)

/-- The screen shows the rows `p`, with the cursor in the last. -/
structure Shows (s : Cga) (p : List (List UInt8) × List UInt8) : Prop extends Drawn s p where
  front_lt : p.1.length < 24

theorem cellAt_concat (front : List (List UInt8)) (row : List UInt8) (i : ℕ) :
    cellAt (front ++ [row]) i =
      if i / 80 = front.length then row[i % 80]?.getD 0x20 else cellAt front i := by
  unfold cellAt
  split
  · next h => rw [h, List.getElem?_concat_length, Option.getD_some]
  · next h =>
    rcases lt_or_gt_of_ne h with hlt | hgt
    · rw [List.getElem?_append_left hlt]
    · have hlen : (front ++ [row]).length ≤ i / 80 := by
        rw [List.length_append, List.length_singleton]
        exact hgt
      rw [List.getElem?_eq_none hlen, List.getElem?_eq_none hgt.le]

theorem cellAt_concat_nil (rows : List (List UInt8)) (i : ℕ) :
    cellAt (rows ++ [[]]) i = cellAt rows i := by
  rw [cellAt_concat]
  split
  · next h => rw [cellAt, List.getElem?_eq_none h.ge]; rfl
  · rfl

/-- A character at the end of the last row. -/
theorem cellAt_concat_concat (front : List (List UInt8)) {row : List UInt8}
    (hrow : row.length < 80) (b : UInt8) (i : ℕ) :
    cellAt (front ++ [row ++ [b]]) i =
      if i = 80 * front.length + row.length then b else cellAt (front ++ [row]) i := by
  rw [cellAt_concat, cellAt_concat]
  by_cases hi : i / 80 = front.length
  · rw [if_pos hi, if_pos hi]
    split
    · next h =>
      rw [show i % 80 = row.length by omega, List.getElem?_concat_length, Option.getD_some]
    · next h =>
      rcases lt_or_gt_of_ne (show i % 80 ≠ row.length by omega) with hlt | hgt
      · rw [List.getElem?_append_left hlt]
      · rw [List.getElem?_eq_none (by simp; omega), List.getElem?_eq_none hgt.le]
  · rw [if_neg hi, if_neg hi, if_neg (by omega)]

theorem ofNat_byte (b : UInt8) : UInt8.ofNat ((b.toNat : ℤ) % 256).toNat = b := by
  have hlt := b.toNat_lt
  rw [show (((b.toNat : ℤ) % 256).toNat) = b.toNat by omega, UInt8.ofNat_toNat]

theorem byte_ne_backspace (b : UInt8) : (b.toNat : ℤ) ≠ backspaceCode := by
  have hlt := b.toNat_lt
  unfold backspaceCode
  omega

theorem byte_eq_newline (b : UInt8) : (b.toNat : ℤ) = 0x0A ↔ b = 0x0A := by
  rw [← UInt8.toNat_inj]
  show (b.toNat : ℤ) = 10 ↔ b.toNat = 10
  omega

/-- A character is written. -/
theorem Shows.write {bg : ℕ} (hbg : bg = black ∨ bg = blue) {s : Cga}
    {p : List (List UInt8) × List UInt8} (h : Shows s p) (b : UInt8) :
    Drawn (s.write bg b.toNat) (advance p b) := by
  have hrow := h.row_lt
  have hpos := h.pos
  have hfront := h.front_lt
  have hchr := Cga.chr_write hbg (b.toNat : ℤ) s
  unfold advance
  rcases eq_or_ne b 0x0A with rfl | hb
  · rw [if_pos rfl]
    refine ⟨by simp; omega, fun _ => rfl, by simp, ?_, fun i hi => ?_⟩
    · show s.pos + (80 - s.pos % 80) = _
      rw [List.length_append, List.length_singleton, List.length_nil]
      omega
    · rw [hchr, if_neg fun hc => hc.1 rfl, cellAt_concat_nil]
      exact h.cell i hi
  · have hnl := fun hc => hb ((byte_eq_newline b).mp hc)
    have hwrite : (s.write bg b.toNat).pos = s.pos + 1 := by
      rw [Cga.write, if_neg hnl, if_neg (byte_ne_backspace b)]
    have hcell : ∀ i < 24 * 80, shown ((s.write bg b.toNat).chr i) =
        shown (cellAt (p.1 ++ [p.2 ++ [b]]) i) := by
      intro i hi
      rw [hchr, cellAt_concat_concat _ hrow, ofNat_byte, ← hpos]
      by_cases hcur : i = s.pos
      · rw [if_pos hcur, if_pos ⟨hnl, byte_ne_backspace b, hcur⟩]
      · rw [if_neg hcur, if_neg fun hc => hcur hc.2.2]
        exact h.cell i hi
    rw [if_neg hb]
    split
    · next hfull =>
      refine ⟨by simp; omega, fun _ => rfl, by simp, ?_, fun i hi => ?_⟩
      · rw [hwrite, List.length_append, List.length_singleton, List.length_nil]
        omega
      · rw [cellAt_concat_nil]
        exact hcell i hi
    · next hfull =>
      refine ⟨hfront.le, fun hc => absurd hc hfront.ne, ?_, ?_, hcell⟩
      · rw [List.length_append, List.length_singleton]
        omega
      · rw [hwrite, hpos, List.length_append, List.length_singleton]
        exact Nat.add_assoc _ _ _

/-- The screen scrolls when the cursor is below it. -/
theorem Drawn.scroll {s : Cga} {p : List (List UInt8) × List UInt8} (h : Drawn s p)
    (hfull : p.1.length = 24) : Shows s.scroll (window p) := by
  obtain ⟨front, row⟩ := p
  dsimp only at hfull
  have hrow : row = [] := h.below hfull
  have hpos : s.pos = 24 * 80 := by
    rw [h.pos, hrow, hfull]
    rfl
  subst hrow
  have hlen : (front.drop 1).length = 23 := by rw [List.length_drop, hfull]
  have hwindow : window (front, []) = (front.drop 1, []) := by rw [window, hfull]
  rw [hwindow]
  refine ⟨⟨hlen.trans_le (by decide), fun _ => rfl, by simp, ?_, fun i hi => ?_⟩,
    hlen.trans_lt (by decide)⟩
  · show s.pos - 80 = _
    rw [hpos, hlen]
    rfl
  · rw [Cga.chr_scroll, cellAt_concat_nil]
    by_cases hlast : s.pos - 80 ≤ i
    · have hout : (front.drop 1).length ≤ i / 80 := by omega
      rw [if_pos ⟨hlast, hi⟩, cellAt, List.getElem?_eq_none hout]
      rfl
    · have hcell := h.cell (i + 80) (by omega)
      rw [cellAt_concat_nil, cellAt, show (i + 80) / 80 = 1 + i / 80 by omega,
        show (i + 80) % 80 = i % 80 by omega] at hcell
      rw [if_neg fun hc => hlast hc.1, if_pos (by omega), cellAt, List.getElem?_drop]
      exact hcell

/-- The cursor is drawn where the screen is blank. -/
theorem Shows.cursor {s : Cga} {p : List (List UInt8) × List UInt8} (h : Shows s p) :
    Shows (s.put s.pos 0x0720) p := by
  refine ⟨⟨h.front_le, h.below, h.row_lt, h.pos, fun i hi => ?_⟩, h.front_lt⟩
  rw [Cga.chr_put]
  split
  · next hcur =>
    have hrow := h.row_lt
    rw [hcur, h.pos, cellAt_concat, if_pos (by omega), List.getElem?_eq_none (by omega)]
    rfl
  · exact h.cell i hi

/-- **One more character.** -/
theorem shows_cgaputc {bg : ℕ} (hbg : bg = black ∨ bg = blue) {s : Cga}
    {p : List (List UInt8) × List UInt8} (h : Shows s p) (b : UInt8) :
    ∃ s', cgaputc bg b.toNat s = some s' ∧ Shows s' (window (advance p b)) := by
  have hdrawn := h.write hbg b
  have hpos := hdrawn.pos
  have hrow := hdrawn.row_lt
  have hfront := hdrawn.front_le
  have hnot : ¬ (s.write bg b.toNat).pos > 25 * 80 := by
    rcases eq_or_lt_of_le hfront with hfull | hlt
    · rw [hfull, hdrawn.below hfull, List.length_nil] at hpos
      omega
    · omega
  rw [cgaputc, if_neg hnot]
  refine ⟨_, rfl, Shows.cursor ?_⟩
  rcases eq_or_lt_of_le hfront with hfull | hlt
  · rw [if_pos (by omega)]
    exact hdrawn.scroll hfull
  · have hall : window (advance p b) = advance p b := by
      rw [window, show (advance p b).1.length - 23 = 0 by omega, List.drop_zero]
    rw [if_neg (by omega), hall]
    exact ⟨hdrawn, hlt⟩

/-- The rows that have gone off the screen do not matter. -/
theorem window_advance (p : List (List UInt8) × List UInt8) (b : UInt8) :
    window (advance (window p) b) = window (advance p b) := by
  have hdrop : ∀ row : List UInt8, (p.1.drop (p.1.length - 23) ++ [row]).drop
      ((p.1.drop (p.1.length - 23) ++ [row]).length - 23) =
        (p.1 ++ [row]).drop ((p.1 ++ [row]).length - 23) := by
    intro row
    rw [← List.drop_append_of_le_length (by omega), List.drop_drop, List.length_drop]
    congr 1
    rw [List.length_append, List.length_singleton]
    omega
  have hrow : (window p).2 = p.2 := rfl
  rw [advance, advance, hrow]
  split
  · exact Prod.ext (hdrop _) rfl
  · split
    · exact Prod.ext (hdrop _) rfl
    · refine Prod.ext ?_ rfl
      show (p.1.drop (p.1.length - 23)).drop ((p.1.drop (p.1.length - 23)).length - 23) =
        p.1.drop (p.1.length - 23)
      rw [List.drop_drop, List.length_drop]
      congr 1
      omega

/-- The last 24 rows of the reference rendering, or all of them. -/
def lastRows (text : List UInt8) : List (List UInt8) :=
  (render text).drop ((render text).length - 24)

theorem lastRows_eq (text : List UInt8) :
    lastRows text = (window (page text)).1 ++ [(window (page text)).2] := by
  have hlen : (render text).length = (page text).1.length + 1 := by
    rw [(render_eq text).1, List.length_append, List.length_singleton]
  rw [lastRows, hlen, (render_eq text).1, window, List.drop_append_of_le_length (by omega)]
  rfl

/-- **The screen shows the last 24 rows of the text.**  Written from a blank screen with
the cursor at 0, a text leaves in the rows 0 to 23 the last 24 rows of its reference
rendering, or all of them from the top, and the cursor behind the last. -/
theorem cgaputc_render {bg : ℕ} (hbg : bg = black ∨ bg = blue) {s : Cga} (hpos : s.pos = 0)
    (hblank : ∀ i < 24 * 80, shown (s.chr i) = 0x20) (text : List UInt8) :
    ∃ s', text.foldlM (fun s b => cgaputc bg b.toNat s) s = some s' ∧
      (∀ row < 24, ∀ col < 80, shown (s'.chr (80 * row + col)) =
        shown (((lastRows text)[row]?.getD [])[col]?.getD 0x20)) ∧
      s'.pos = 80 * ((lastRows text).length - 1) + ((lastRows text).getLastD []).length := by
  have hshows : ∃ s', text.foldlM (fun s b => cgaputc bg b.toNat s) s = some s' ∧
      Shows s' (window (page text)) := by
    induction text using List.reverseRecOn with
    | nil =>
      refine ⟨s, rfl, ⟨⟨by decide, fun _ => rfl, by decide, hpos, fun i hi => ?_⟩, by decide⟩⟩
      rw [hblank i hi]
      have hnil := cellAt_concat_nil [] i
      rw [List.nil_append] at hnil
      show _ = shown (cellAt [[]] i)
      rw [hnil]
      rfl
    | append_singleton text b ih =>
      obtain ⟨s₁, hrun, hs₁⟩ := ih
      obtain ⟨s₂, hput, hs₂⟩ := shows_cgaputc hbg hs₁ b
      refine ⟨s₂, ?_, ?_⟩
      · rw [List.foldlM_append, hrun]
        simp [hput]
      · rw [page_concat, ← window_advance]
        exact hs₂
  obtain ⟨s', hrun, hs'⟩ := hshows
  refine ⟨s', hrun, fun row hrow col hcol => ?_, ?_⟩
  · have hcell := hs'.cell (80 * row + col) (by omega)
    rw [← lastRows_eq, cellAt, show (80 * row + col) / 80 = row by omega,
      show (80 * row + col) % 80 = col by omega] at hcell
    exact hcell
  · rw [hs'.pos, lastRows_eq]
    simp

/-- The rule on a blank screen, for two lines. -/
theorem cgaputc_render_blank :
    ∃ s', (str "ab\ncd").foldlM (fun s b => cgaputc black b.toNat s) ⟨fun _ => 0, 0⟩ = some s' ∧
      (∀ row < 24, ∀ col < 80, shown (s'.chr (80 * row + col)) =
        shown (((lastRows (str "ab\ncd"))[row]?.getD [])[col]?.getD 0x20)) ∧
      s'.pos = 80 * ((lastRows (str "ab\ncd")).length - 1) +
        ((lastRows (str "ab\ncd")).getLastD []).length :=
  cgaputc_render (.inl rfl) rfl (fun _ _ => rfl) _

end Bgcolor
end Console
end Xv6
