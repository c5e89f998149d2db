import Xv6.Basic
import Xv6.Lib.Counter

/-!
# The input ring of the console

`struct input` of `console.c`, which every version of the console shares, and the
operations its code performs on it.  The indices are free-running counters: `r`
is where the reader is, `w` how far the input is committed and `e` the end of the
line being edited.

* `Input`, `Input.get`, `Input.put`, `Input.erase`, `Input.commit`, `Input.take`.
* `Input.queue`, `Input.line` — the committed bytes not yet read, and the edit line.
* `Input.Bounds`, `Input.Ok` — the index invariant, without and with the clause
  that a full ring is committed.
* `queue_put` … `line_take` — what the operations do to the two lists.
-/

namespace Xv6
namespace Console

open Counter

/-- `struct input`. -/
structure Input where
  buf : Vector UInt8 128
  r : UInt32
  w : UInt32
  e : UInt32
  deriving DecidableEq

namespace Input

/-- The ring at boot. -/
def boot : Input := ⟨Vector.replicate 128 0, 0, 0, 0⟩

/-- `input.buf[i % INPUT_BUF]`. -/
def get (g : Input) (i : UInt32) : UInt8 := g.buf.get ⟨i.toNat % 128, Nat.mod_lt _ (by decide)⟩

/-- `input.buf[input.e++ % INPUT_BUF] = c`. -/
def put (g : Input) (c : UInt8) : Input :=
  { g with buf := g.buf.set (g.e.toNat % 128) c (Nat.mod_lt _ (by decide)), e := g.e + 1 }

/-- `input.e--`. -/
def erase (g : Input) : Input := { g with e := g.e - 1 }

/-- `input.w = input.e`. -/
def commit (g : Input) : Input := { g with w := g.e }

/-- `input.r++`. -/
def take (g : Input) : Input := { g with r := g.r + 1 }

/-- `input.r--`. -/
def untake (g : Input) : Input := { g with r := g.r - 1 }

@[simp] theorem put_r (g : Input) (c : UInt8) : (g.put c).r = g.r := rfl
@[simp] theorem put_w (g : Input) (c : UInt8) : (g.put c).w = g.w := rfl
@[simp] theorem put_e (g : Input) (c : UInt8) : (g.put c).e = g.e + 1 := rfl
@[simp] theorem erase_r (g : Input) : g.erase.r = g.r := rfl
@[simp] theorem erase_w (g : Input) : g.erase.w = g.w := rfl
@[simp] theorem erase_e (g : Input) : g.erase.e = g.e - 1 := rfl
@[simp] theorem commit_r (g : Input) : g.commit.r = g.r := rfl
@[simp] theorem commit_w (g : Input) : g.commit.w = g.e := rfl
@[simp] theorem commit_e (g : Input) : g.commit.e = g.e := rfl
@[simp] theorem take_r (g : Input) : g.take.r = g.r + 1 := rfl
@[simp] theorem take_w (g : Input) : g.take.w = g.w := rfl
@[simp] theorem take_e (g : Input) : g.take.e = g.e := rfl

/-- The committed bytes the reader has not read. -/
def queue (g : Input) : List UInt8 := segment g.get g.r (dist g.r g.w)

/-- The line being edited. -/
def line (g : Input) : List UInt8 := segment g.get g.w (dist g.w g.e)

/-! ### The index invariant -/

/-- `r ≤ w ≤ e ≤ r + INPUT_BUF`, as distances modulo `2 ^ 32`. -/
structure Bounds (g : Input) : Prop where
  w_le : dist g.r g.w ≤ dist g.r g.e
  e_le : dist g.r g.e ≤ 128

/-- The indices are in order, and a full ring is committed. -/
structure Ok (g : Input) : Prop extends Bounds g where
  full : dist g.r g.e = 128 → g.w = g.e

theorem ok_boot : boot.Ok := ⟨⟨by decide, by decide⟩, by decide⟩

theorem Bounds.ok_of_lt {g : Input} (h : g.Bounds) (hlt : dist g.r g.e < 128) : g.Ok :=
  ⟨h, fun hfull => by omega⟩

theorem Bounds.dist_w_e {g : Input} (h : g.Bounds) :
    dist g.w g.e = dist g.r g.e - dist g.r g.w := dist_of_le h.w_le

theorem dist_put {g : Input} {c : UInt8} (h : dist g.r g.e < 128) :
    dist (g.put c).r (g.put c).e = dist g.r g.e + 1 := by
  rw [put_r, put_e, dist_succ_right (by omega)]

theorem Bounds.put {g : Input} (h : g.Bounds) (hlt : dist g.r g.e < 128) (c : UInt8) :
    (g.put c).Bounds := by
  have he := dist_put (c := c) hlt
  exact ⟨by rw [he]; exact Nat.le_succ_of_le h.w_le, by omega⟩

theorem Bounds.commit {g : Input} (h : g.Bounds) : g.commit.Ok := ⟨⟨le_rfl, h.e_le⟩, fun _ => rfl⟩

theorem dist_r_e_pos {g : Input} (h : g.Bounds) (hne : g.e ≠ g.w) :
    dist g.r g.w < dist g.r g.e := by
  have hpos : 0 < dist g.w g.e := by
    rw [Nat.pos_iff_ne_zero, Ne, dist_eq_zero]
    exact fun heq => hne heq.symm
  rw [h.dist_w_e] at hpos
  omega

theorem Bounds.dist_erase {g : Input} (h : g.Bounds) (hne : g.e ≠ g.w) :
    dist g.r g.erase.e = dist g.r g.e - 1 :=
  dist_pred_right (Nat.zero_lt_of_lt (dist_r_e_pos h hne))

theorem Bounds.erase {g : Input} (h : g.Bounds) (hne : g.e ≠ g.w) : g.erase.Ok := by
  have hlt := dist_r_e_pos h hne
  have he := h.dist_erase hne
  have hle := h.e_le
  refine Bounds.ok_of_lt ⟨?_, ?_⟩ ?_
  · rw [erase_r, erase_w]; omega
  · rw [erase_r]; omega
  · rw [erase_r]; omega

theorem dist_r_w_pos {g : Input} (hne : g.r ≠ g.w) : 0 < dist g.r g.w := by
  rw [Nat.pos_iff_ne_zero, Ne, dist_eq_zero]
  exact hne

theorem Bounds.take {g : Input} (h : g.Bounds) (hne : g.r ≠ g.w) : g.take.Ok := by
  have hpos := dist_r_w_pos hne
  have hle := h.w_le
  have hw : dist g.take.r g.take.w = dist g.r g.w - 1 := dist_succ_left hpos
  have he : dist g.take.r g.take.e = dist g.r g.e - 1 := by
    rw [take_r, take_e, dist_succ_left (by omega)]
  have hmax := h.e_le
  exact Bounds.ok_of_lt ⟨by omega, by omega⟩ (by omega)

/-- A full ring has something for the reader. -/
theorem Ok.r_ne_w {g : Input} (h : g.Ok) (hfull : dist g.r g.e = 128) : g.r ≠ g.w := by
  intro hempty
  rw [← h.full hfull, ← hempty, dist_self] at hfull
  contradiction

/-- From `g` to `g'` text was added or nothing was, and none of it committed. -/
structure Grown (g g' : Input) : Prop where
  r : g'.r = g.r
  w : g'.w = g.w

theorem Grown.refl (g : Input) : Grown g g := ⟨rfl, rfl⟩

theorem Grown.of_put {g g' : Input} {c : UInt8} (h : Grown (g.put c) g') : Grown g g' :=
  ⟨h.r, h.w⟩

/-- A ring that is not full and to which text is only added keeps the invariant exactly
when it does not get full: `w` has not moved, so nothing is committed. -/
theorem Ok.grow_iff {g g' : Input} (h : g.Ok) (hlt : dist g.r g.e < 128) (hgrown : Grown g g')
    (hle : dist g.r g.e ≤ dist g'.r g'.e) : g'.Ok ↔ dist g'.r g'.e < 128 := by
  have hwe := h.w_le
  constructor
  · intro hok
    refine lt_of_le_of_ne hok.e_le fun hfull => ?_
    have hcommitted : dist g.r g.w = 128 := by
      rw [← hgrown.w, ← hgrown.r, hok.full hfull, hfull]
    omega
  · intro hlt'
    refine Bounds.ok_of_lt ⟨?_, hlt'.le⟩ hlt'
    rw [hgrown.r, hgrown.w]
    rw [hgrown.r] at hle
    omega

@[simp] theorem untake_take (g : Input) : g.take.untake = g := by
  simp [take, untake]

/-! ### The lists of the ring -/

theorem length_queue (g : Input) : g.queue.length = dist g.r g.w := length_segment _ _ _

theorem length_line (g : Input) : g.line.length = dist g.w g.e := length_segment _ _ _

theorem Bounds.length_add {g : Input} (h : g.Bounds) :
    g.queue.length + g.line.length = dist g.r g.e := by
  rw [length_queue, length_line, h.dist_w_e]
  have hle := h.w_le
  omega

theorem queue_eq_nil {g : Input} : g.queue = [] ↔ g.r = g.w := by
  rw [← List.length_eq_zero_iff, length_queue, dist_eq_zero]

theorem line_eq_nil {g : Input} : g.line = [] ↔ g.e = g.w := by
  rw [← List.length_eq_zero_iff, length_line, dist_eq_zero, eq_comm]

theorem get_put (g : Input) (c : UInt8) (i : UInt32) :
    (g.put c).get i = if g.e.toNat % 128 = i.toNat % 128 then c else g.get i := by
  simp [get, put, Vector.get_eq_getElem, Vector.getElem_set]

/-- Writing at `e` leaves alone what lies less than a capacity before it. -/
theorem get_put_of_lt {g : Input} {c : UInt8} {i : UInt32} (h0 : 0 < dist i g.e)
    (h : dist i g.e < 128) : (g.put c).get i = g.get i := by
  rw [get_put, if_neg]
  exact (slot_ne (by decide) h0 h).symm

theorem get_put_self (g : Input) (c : UInt8) : (g.put c).get g.e = c := by
  rw [get_put, if_pos rfl]

/-- A segment that ends at or before `e` and starts at or after `r` is not
touched by a write into a ring that is not full. -/
theorem segment_put {g : Input} (hlt : dist g.r g.e < 128) (c : UInt8) {a : UInt32} {n : ℕ}
    (h : dist a g.e ≤ dist g.r g.e) (hn : n ≤ dist a g.e) :
    segment (g.put c).get a n = segment g.get a n := by
  refine segment_congr _ a n fun k hk => ?_
  have hlt := dist_lt a g.e
  have hak : dist a (a + UInt32.ofNat k) = k := dist_add_ofNat a (by omega)
  have hle : dist a (a + UInt32.ofNat k) ≤ dist a g.e := by omega
  have hd : dist (a + UInt32.ofNat k) g.e = dist a g.e - k := by rw [dist_of_le hle, hak]
  exact get_put_of_lt (by omega) (by omega)

theorem queue_put {g : Input} (h : g.Bounds) (hlt : dist g.r g.e < 128) (c : UInt8) :
    (g.put c).queue = g.queue := segment_put hlt c le_rfl h.w_le

theorem line_put {g : Input} (h : g.Bounds) (hlt : dist g.r g.e < 128) (c : UInt8) :
    (g.put c).line = g.line ++ [c] := by
  have hw : dist g.w (g.e + 1) = dist g.w g.e + 1 :=
    dist_succ_right (by have := h.dist_w_e; omega)
  show segment (g.put c).get g.w (dist g.w (g.e + 1)) = g.line ++ [c]
  rw [hw, segment_succ, segment_put hlt c (by rw [h.dist_w_e]; omega) le_rfl, add_dist,
    get_put_self]
  rfl

theorem queue_commit {g : Input} (h : g.Bounds) : g.commit.queue = g.queue ++ g.line := by
  have hw := h.w_le
  show segment g.get g.r (dist g.r g.e) = g.queue ++ g.line
  rw [show dist g.r g.e = dist g.r g.w + dist g.w g.e by rw [h.dist_w_e]; omega, segment_append,
    add_dist]
  rfl

@[simp] theorem line_commit (g : Input) : g.commit.line = [] := line_eq_nil.mpr rfl

@[simp] theorem queue_erase (g : Input) : g.erase.queue = g.queue := rfl

theorem line_erase {g : Input} (hne : g.e ≠ g.w) : g.erase.line = g.line.dropLast := by
  have hpos : 0 < dist g.w g.e := by
    rw [Nat.pos_iff_ne_zero, Ne, dist_eq_zero]
    exact fun heq => hne heq.symm
  have hd : dist g.w g.erase.e = dist g.w g.e - 1 := dist_pred_right hpos
  show segment g.get g.w (dist g.w g.erase.e) = g.line.dropLast
  rw [hd, line, show dist g.w g.e = dist g.w g.e - 1 + 1 by omega, segment_succ,
    List.dropLast_concat]
  rfl

/-- The last byte of the edit line, which kill-line and backspace look at. -/
theorem line_eq_concat {g : Input} (hne : g.e ≠ g.w) :
    g.line = g.line.dropLast ++ [g.get (g.e - 1)] := by
  have hpos : 0 < dist g.w g.e := by
    rw [Nat.pos_iff_ne_zero, Ne, dist_eq_zero]
    exact fun heq => hne heq.symm
  have hlast : g.w + UInt32.ofNat (dist g.w g.e - 1) = g.e - 1 := by
    have hd : dist g.w (g.e - 1) = dist g.w g.e - 1 := dist_pred_right hpos
    rw [← hd, add_dist]
  rw [← line_erase hne, line, show dist g.w g.e = dist g.w g.e - 1 + 1 by omega, segment_succ,
    hlast]
  congr 1
  show _ = segment g.get g.w (dist g.w (g.e - 1))
  rw [dist_pred_right hpos]

theorem queue_eq_cons {g : Input} (hne : g.r ≠ g.w) : g.queue = g.get g.r :: g.take.queue := by
  have hpos := dist_r_w_pos hne
  have hd : dist (g.r + 1) g.w = dist g.r g.w - 1 := dist_succ_left hpos
  rw [queue, show dist g.r g.w = dist g.r g.w - 1 + 1 by omega, segment_cons]
  show _ = g.get g.r :: segment g.get (g.r + 1) (dist (g.r + 1) g.w)
  rw [hd]

@[simp] theorem line_take (g : Input) : g.take.line = g.line := rfl

end Input
end Console
end Xv6
