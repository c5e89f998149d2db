import Xv6.Console.Screen
import Xv6.Lib.Wp

/-!
# The cursor on the screen

`cgaputc` and `consputc` of `B22ES019/bgcolor_change/console.c`, with the registers that hold the
position of the cursor, and a record of the cells that are written.

* `Video`, `cgaputc`, `consputc` — the registers, and the code.
* `Access.Safe` — a write to cells of the screen, of a length that is not negative.
* `wp_cgaputc` — one call keeps the cursor on the screen, and draws what `Bgcolor.cgaputc` does.
* `cursor_safe` — **the cursor stays on the screen, and nothing else is written.**
-/

namespace Xv6
namespace Console
namespace Bgcolor
namespace Cursor

open Prog

/-! ### The registers and the memory -/

/-- A write to the memory of the screen, in cells. -/
inductive Access
  | store (cell : ℤ)
  | memmove (dst src len : ℤ)
  | memset (dst len : ℤ)

/-- The number of cells of the screen. -/
def cells : ℤ := 2000

/-- The write is one to cells of the screen. -/
def Access.Safe : Access → Prop
  | .store cell => 0 ≤ cell ∧ cell < cells
  | .memmove dst src len => 0 ≤ len ∧ 0 ≤ dst ∧ dst + len ≤ cells ∧ 0 ≤ src ∧ src + len ≤ cells
  | .memset dst len => 0 ≤ len ∧ 0 ≤ dst ∧ dst + len ≤ cells

/-- Why the code does not return. -/
inductive Halt
  /-- `panic("pos under/overflow")` -/
  | pos
  /-- `panicked` is set. -/
  | frozen
  deriving DecidableEq

/-- The selected register of the screen, the two that hold the cursor, the memory, `panicked`, the
writes so far, and what has been sent to the serial port. -/
structure Video where
  index : UInt8
  high : UInt8
  low : UInt8
  crt : ℕ → UInt8
  panicked : Bool
  accesses : List Access
  serial : List ℤ

abbrev Code (α : Type) := Prog Video Halt α

/-- `CRTPORT` -/
def crtport : ℕ := 0x3d4

def outb (port : ℕ) (v : UInt8) : Code Unit := modify fun s =>
  if port = crtport then { s with index := v }
  else if port = crtport + 1 ∧ s.index = 14 then { s with high := v }
  else if port = crtport + 1 ∧ s.index = 15 then { s with low := v }
  else s

def inb (port : ℕ) : Code UInt8 := do
  let s ← get
  if port = crtport + 1 ∧ s.index = 14 then return s.high
  else if port = crtport + 1 ∧ s.index = 15 then return s.low
  else return 0

/-- `crt[pos] = v` -/
def setCell (pos : ℤ) (v : ℕ) : Code Unit := modify fun s =>
  { s with crt := ((Cga.mk s.crt 0).put pos.toNat v).crt, accesses := s.accesses ++ [.store pos] }

/-! ### The code -/

/-- The cursor position is read. -/
def readCursor : Code ℤ := do
  outb crtport 14
  let high ← inb (crtport + 1)
  outb crtport 15
  let low ← inb (crtport + 1)
  return ((high.toNat <<< 8 ||| low.toNat : ℕ) : ℤ)

/-- The character is drawn, and the cursor moves. -/
def draw (bg : ℕ) (c pos : ℤ) : Code ℤ :=
  if c = 0x0A then return pos + (80 - pos.tmod 80)
  else if c = backspaceCode then return (if pos > 0 then pos - 1 else pos)
  else do
    setCell pos ((c % 256).toNat ||| bg)
    return pos + 1

/-- Scroll up. -/
def scrollUp (pos : ℤ) : Code ℤ :=
  if pos.tdiv 80 ≥ 24 then do
    modify fun s => { s with
      crt := memmove s.crt 0 (2 * 80) (2 * (23 * 80))
      accesses := s.accesses ++ [.memmove 0 80 (23 * 80)] }
    let pos := pos - 80
    modify fun s => { s with
      crt := memset s.crt (2 * pos.toNat) 0 (2 * (24 * 80 - pos).toNat)
      accesses := s.accesses ++ [.memset pos (24 * 80 - pos)] }
    return pos
  else return pos

/-- The cursor position is written. -/
def writeCursor (pos : ℤ) : Code Unit := do
  outb crtport 14
  outb (crtport + 1) (UInt8.ofInt (pos / 2 ^ 8))
  outb crtport 15
  outb (crtport + 1) (UInt8.ofInt pos)

def cgaputc (bg : ℕ) (c : ℤ) : Code Unit := do
  let pos ← readCursor
  let pos ← draw bg c pos
  if pos < 0 ∨ pos > 25 * 80 then stop .pos
  else do
    let pos ← scrollUp pos
    writeCursor pos
    setCell pos 0x0720                                            -- ' ' | 0x0700

def uartputc (c : ℤ) : Code Unit := modify fun s => { s with serial := s.serial ++ [c] }

/-- `consputc`, on the background colour `bg`. -/
def consputc (bg : ℕ) (c : ℤ) : Code Unit := do
  let s ← get
  if s.panicked then stop .frozen
  else if c = backspaceCode then do
    uartputc 0x08
    uartputc 0x20
    uartputc 0x08
    cgaputc bg c
  else do
    uartputc c
    cgaputc bg c

/-! ### The registers -/

/-- The position of the cursor. -/
def Video.pos (s : Video) : ℕ := s.high.toNat <<< 8 ||| s.low.toNat

/-- The screen, as a whole. -/
def Video.cga (s : Video) : Cga := ⟨s.crt, s.pos⟩

theorem Video.pos_eq (s : Video) : s.pos = 256 * s.high.toNat + s.low.toNat := by
  rw [Video.pos, ← Nat.shiftLeft_add_eq_or_of_lt s.low.toNat_lt, Nat.shiftLeft_eq, Nat.mul_comm]

section Specs

variable {E : Halt → Prop} {s : Video}

theorem wp_readCursor {Q : ℤ → Video → Prop} :
    wp readCursor E Q s ↔ Q s.pos { s with index := 15 } := by
  simp [readCursor, outb, inb, Video.pos]

theorem wp_writeCursor {pos : ℤ} {Q : Unit → Video → Prop} :
    wp (writeCursor pos) E Q s ↔ Q ()
      { s with index := 15, high := UInt8.ofInt (pos / 2 ^ 8), low := UInt8.ofInt pos } := by
  simp [writeCursor, outb]

/-- What the registers hold after a position has been written. -/
theorem pos_writeCursor {n : ℕ} (hn : n < 2 ^ 16) (high low : UInt8)
    (hhigh : high = UInt8.ofInt ((n : ℤ) / 2 ^ 8)) (hlow : low = UInt8.ofInt n) :
    256 * high.toNat + low.toNat = n := by
  rw [hhigh, hlow, UInt8.ofInt, UInt8.ofInt, UInt8.toNat_ofNat', UInt8.toNat_ofNat']
  omega

/-! ### One call -/

/-- The cursor is on the screen, and so is all that has been written. -/
structure Video.Ok (s : Video) : Prop where
  pos : s.pos < 24 * 80
  safe : ∀ a ∈ s.accesses, a.Safe

theorem safe_append {as : List Access} {a : Access} (h : ∀ a ∈ as, a.Safe) (ha : a.Safe) :
    ∀ b ∈ as ++ [a], b.Safe := by
  intro b hb
  rcases List.mem_append.mp hb with hb | hb
  · exact h b hb
  · rw [List.mem_singleton.mp hb]
    exact ha

/-- A position behind the last cell of the text, at most. -/
theorem wp_draw (bg : ℕ) (c : ℤ) {pos : ℕ} (hpos : pos < 24 * 80)
    (hsafe : ∀ a ∈ s.accesses, a.Safe) :
    wp (draw bg c pos) E (fun q s' => ∃ n : ℕ, n ≤ 24 * 80 ∧ q = n ∧
      Cga.write bg c ⟨s.crt, pos⟩ = ⟨s'.crt, n⟩ ∧ (∀ a ∈ s'.accesses, a.Safe) ∧
      s'.panicked = s.panicked) s := by
  rw [draw, Cga.write]
  split
  · -- the next row
    refine ⟨pos + (80 - pos % 80), by omega, ?_, rfl, hsafe, rfl⟩
    rw [Int.tmod_eq_emod_of_nonneg (by omega)]
    omega
  · split
    · refine ⟨pos - 1, by omega, ?_, rfl, hsafe, rfl⟩
      split <;> omega
    · rw [wp_bind, setCell, wp_modify, wp_pure]
      refine ⟨pos + 1, hpos, by push_cast; rfl, rfl, safe_append hsafe ⟨by omega, ?_⟩, rfl⟩
      rw [cells]
      omega

theorem wp_scrollUp {pos : ℕ} (hpos : pos ≤ 24 * 80) (hsafe : ∀ a ∈ s.accesses, a.Safe) :
    wp (scrollUp pos) E (fun q s' => ∃ n : ℕ, n < 24 * 80 ∧ q = n ∧
      (if pos / 80 ≥ 24 then Cga.scroll ⟨s.crt, pos⟩ else ⟨s.crt, pos⟩) = ⟨s'.crt, n⟩ ∧
      (∀ a ∈ s'.accesses, a.Safe) ∧ s'.panicked = s.panicked) s := by
  have hrow : (pos : ℤ).tdiv 80 = ((pos / 80 : ℕ) : ℤ) := rfl
  rw [scrollUp, hrow]
  by_cases hfull : pos / 80 ≥ 24
  · have hlen : (24 * 80 - ((pos : ℤ) - 80)).toNat = 24 * 80 - (pos - 80) := by omega
    have hdst : ((pos : ℤ) - 80).toNat = pos - 80 := by omega
    rw [if_pos (by exact_mod_cast hfull), if_pos hfull]
    rw [wp_bind, wp_modify, wp_bind, wp_modify, wp_pure]
    dsimp only
    rw [hdst, hlen]
    refine ⟨pos - 80, by omega, by omega, rfl, safe_append (safe_append hsafe ?_) ?_, rfl⟩
    · refine ⟨by omega, by omega, ?_, by omega, ?_⟩ <;> rw [cells] <;> omega
    · refine ⟨by omega, by omega, ?_⟩
      rw [cells]
      omega
  · rw [if_neg (by exact_mod_cast hfull), if_neg hfull, wp_pure]
    exact ⟨pos, by omega, rfl, rfl, hsafe, rfl⟩

/-- **One call** keeps the cursor on the screen, and draws on it. -/
theorem wp_cgaputc (bg : ℕ) (c : ℤ) (h : s.Ok) :
    wp (cgaputc bg c) E (fun _ s' => s'.Ok ∧ s'.panicked = s.panicked ∧
      Bgcolor.cgaputc bg c s.cga = some s'.cga) s := by
  rw [cgaputc, wp_bind, wp_readCursor, wp_bind]
  refine wp_imp (wp_draw bg c h.pos h.safe) ?_
  rintro _ s₁ ⟨n, hn, rfl, hwrite, hsafe₁, hpan₁⟩
  dsimp only at hwrite hpan₁
  -- no character takes the cursor past the line that is scrolled
  rw [wp_ite]
  refine ⟨fun hover => by omega, fun _ => ?_⟩
  rw [wp_bind]
  refine wp_imp (wp_scrollUp hn hsafe₁) ?_
  rintro _ s₂ ⟨m, hm, rfl, hscroll, hsafe₂, hpan₂⟩
  rw [wp_bind, wp_writeCursor, setCell, wp_modify]
  have hpos : Video.pos { s₂ with
      index := 15, high := UInt8.ofInt ((m : ℤ) / 2 ^ 8), low := UInt8.ofInt m } = m := by
    rw [Video.pos_eq]
    exact pos_writeCursor (by omega) _ _ rfl rfl
  refine ⟨⟨?_, safe_append hsafe₂ ⟨by omega, ?_⟩⟩, hpan₂.trans hpan₁, ?_⟩
  · exact hpos.trans_lt hm
  · rw [cells]
    omega
  · rw [Bgcolor.cgaputc, Video.cga, hwrite]
    dsimp only
    rw [if_neg (by omega), hscroll, Int.toNat_natCast]
    exact congrArg some (congrArg (Cga.mk _) hpos.symm)

theorem wp_consputc (bg : ℕ) (c : ℤ) (h : s.Ok) (hpan : s.panicked = false) :
    wp (consputc bg c) E (fun _ s' => s'.Ok ∧ s'.panicked = false) s := by
  rw [consputc, wp_bind, wp_get, if_neg (by rw [hpan]; simp), wp_ite]
  simp only [wp_bind, uartputc, wp_modify]
  constructor
  · intro _
    exact wp_imp (wp_cgaputc bg c ⟨h.pos, h.safe⟩) fun _ s' h' => ⟨h'.1, h'.2.1.trans hpan⟩
  · intro _
    exact wp_imp (wp_cgaputc bg c ⟨h.pos, h.safe⟩) fun _ s' h' => ⟨h'.1, h'.2.1.trans hpan⟩

end Specs

/-! ### Any number of calls -/

/-- The calls, each with the background colour of its time. -/
def consputcs (calls : List (ℕ × ℤ)) : Code Unit := calls.forM fun p => consputc p.1 p.2

/-- **The cursor stays on the screen.**  From any position of the cursor on the first 24 rows, any
calls of `consputc` return: they do not panic, they leave the cursor on these rows, and every cell
that is stored, moved or cleared is a cell of the screen. -/
theorem cursor_safe (s : Video) (calls : List (ℕ × ℤ)) (hpos : s.pos < 24 * 80)
    (hnone : s.accesses = []) (hpan : s.panicked = false) :
    ∃ s', consputcs calls s = .ok ((), s') ∧ s'.pos < 24 * 80 ∧ ∀ a ∈ s'.accesses, a.Safe := by
  have hok : s.Ok := ⟨hpos, by rw [hnone]; simp⟩
  have hrun : wp (consputcs calls) (fun _ => False) (fun _ s' => s'.Ok ∧ s'.panicked = false) s :=
    wp_forM (fun _ (s' : Video) => s'.Ok ∧ s'.panicked = false) calls ⟨hok, hpan⟩
      fun _ p _ _ s₁ h₁ => wp_consputc p.1 p.2 h₁.1 h₁.2
  obtain ⟨_, s', hs', hend, -⟩ := exists_of_wp hrun
  exact ⟨s', hs', hend.pos, hend.safe⟩

/-- A newline in the last cell scrolls the screen. -/
theorem cursor_safe_newline :
    ∃ s', consputcs [(black, 0x0A), (blue, 0x41)] ⟨0, 7, 127, fun _ => 0, false, [], []⟩ =
      .ok ((), s') ∧ s'.pos < 24 * 80 ∧ ∀ a ∈ s'.accesses, a.Safe :=
  cursor_safe ⟨0, 7, 127, fun _ => 0, false, [], []⟩ [(black, 0x0A), (blue, 0x41)] (by decide) rfl
    rfl

end Cursor
end Bgcolor
end Console
end Xv6
