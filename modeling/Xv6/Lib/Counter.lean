import Mathlib

/-!
# Free-running counters

A ring buffer addressed by free-running 32-bit counters never resets them: the
slot of a counter is its value modulo the capacity, and how many elements lie
between two counters is their difference modulo `2 ^ 32`.  As the capacity
divides `2 ^ 32`, the wraparound of a counter is invisible in its slot.

* `dist a b` — the number of steps from `a` up to `b`.
* `segment read a n` — the `n` elements from counter `a` on.
* `dist_succ_right`, `dist_pred_right`, `dist_succ_left`, `dist_of_le` — how the
  distances move with the counters.
* `segment_succ`, `segment_cons`, `segment_append` — how the segments do.
* `slot_ne` — counters less than a capacity apart have different slots.
-/

namespace Counter

/-! ### Distances -/

/-- The number of steps from `a` up to `b`, modulo `2 ^ 32`. -/
def dist (a b : UInt32) : ℕ := (b - a).toNat

theorem dist_lt (a b : UInt32) : dist a b < 2 ^ 32 := UInt32.toNat_lt _

@[simp] theorem dist_self (a : UInt32) : dist a a = 0 := by simp [dist]

theorem dist_eq (a b : UInt32) : dist a b = (2 ^ 32 - a.toNat + b.toNat) % 2 ^ 32 :=
  UInt32.toNat_sub b a

@[simp] theorem dist_eq_zero {a b : UInt32} : dist a b = 0 ↔ a = b := by
  rw [dist_eq, ← UInt32.toNat_inj]
  have ha := UInt32.toNat_lt a
  have hb := UInt32.toNat_lt b
  omega

theorem dist_add_one (a b : UInt32) : dist a (b + 1) = (dist a b + 1) % 2 ^ 32 := by
  rw [dist_eq, dist_eq, UInt32.toNat_add]
  have ha := UInt32.toNat_lt a
  have hone : (1 : UInt32).toNat = 1 := rfl
  omega

/-- Advancing the upper counter makes the distance grow by one. -/
theorem dist_succ_right {a b : UInt32} (h : dist a b + 1 < 2 ^ 32) :
    dist a (b + 1) = dist a b + 1 := by
  rw [dist_add_one, Nat.mod_eq_of_lt h]

/-- Drawing the upper counter back makes a nonzero distance shrink by one. -/
theorem dist_pred_right {a b : UInt32} (h : 0 < dist a b) : dist a (b - 1) = dist a b - 1 := by
  have hb : b - 1 + 1 = b := UInt32.sub_add_cancel b 1
  have hlt := dist_lt a b
  have hsucc := dist_add_one a (b - 1)
  rw [hb] at hsucc
  have hlt' := dist_lt a (b - 1)
  omega

/-- Advancing the lower counter makes a nonzero distance shrink by one. -/
theorem dist_succ_left {a b : UInt32} (h : 0 < dist a b) : dist (a + 1) b = dist a b - 1 := by
  rw [dist_eq] at h
  rw [dist_eq, dist_eq, UInt32.toNat_add]
  have ha := UInt32.toNat_lt a
  have hb := UInt32.toNat_lt b
  have hone : (1 : UInt32).toNat = 1 := rfl
  omega

/-- Distances from one counter subtract. -/
theorem dist_of_le {a b c : UInt32} (h : dist a b ≤ dist a c) :
    dist b c = dist a c - dist a b := by
  rw [dist_eq, dist_eq] at h
  rw [dist_eq, dist_eq, dist_eq]
  have ha := UInt32.toNat_lt a
  have hb := UInt32.toNat_lt b
  have hc := UInt32.toNat_lt c
  omega

/-- A counter so many steps ahead is at that distance. -/
theorem dist_add_ofNat (a : UInt32) {n : ℕ} (h : n < 2 ^ 32) : dist a (a + UInt32.ofNat n) = n := by
  rw [dist, UInt32.add_comm, UInt32.add_sub_cancel, UInt32.toNat_ofNat']
  exact Nat.mod_eq_of_lt h

/-- A counter is its distance ahead of any other. -/
theorem add_dist (a b : UInt32) : a + UInt32.ofNat (dist a b) = b := by
  rw [dist, UInt32.ofNat_toNat, UInt32.add_comm, UInt32.sub_add_cancel]

/-- The value of the bits of a counter as those of a signed number. -/
theorem toInt_toInt32 (a : UInt32) :
    a.toInt32.toInt = if a.toNat < 2 ^ 31 then (a.toNat : ℤ) else (a.toNat : ℤ) - 2 ^ 32 := by
  have hlt := UInt32.toNat_lt a
  have hbits : a.toBitVec.toNat = a.toNat := rfl
  show a.toBitVec.toInt = _
  rw [BitVec.toInt_eq_toNat_cond, hbits]
  split <;> split <;> omega

/-! ### Segments -/

section Segment

variable {α : Type*} (read : UInt32 → α)

/-- The `n` elements from counter `a` on. -/
def segment : UInt32 → ℕ → List α
  | _, 0 => []
  | a, n + 1 => read a :: segment (a + 1) n

@[simp] theorem segment_zero (a : UInt32) : segment read a 0 = [] := rfl

theorem segment_cons (a : UInt32) (n : ℕ) :
    segment read a (n + 1) = read a :: segment read (a + 1) n := rfl

@[simp] theorem length_segment (a : UInt32) (n : ℕ) : (segment read a n).length = n := by
  induction n generalizing a with
  | zero => rfl
  | succ n ih => simp [segment_cons, ih]

theorem segment_append (a : UInt32) (m n : ℕ) :
    segment read a (m + n) = segment read a m ++ segment read (a + UInt32.ofNat m) n := by
  induction m generalizing a with
  | zero => simp
  | succ m ih =>
    have hcast : a + 1 + UInt32.ofNat m = a + UInt32.ofNat (m + 1) := by
      rw [UInt32.add_assoc, UInt32.add_comm 1, UInt32.ofNat_add]
      rfl
    rw [Nat.add_right_comm, segment_cons, segment_cons, ih, hcast, List.cons_append]

/-- The segment one longer has one element more at the end. -/
theorem segment_succ (a : UInt32) (n : ℕ) :
    segment read a (n + 1) = segment read a n ++ [read (a + UInt32.ofNat n)] := by
  rw [segment_append]
  rfl

/-- The elements of a segment by their counters. -/
theorem segment_eq_map (a : UInt32) (n : ℕ) :
    segment read a n = (List.range n).map fun k => read (a + UInt32.ofNat k) := by
  induction n with
  | zero => rfl
  | succ n ih => rw [segment_succ, ih, List.range_succ, List.map_append, List.map_singleton]

/-- Segments depend only on the elements in them. -/
theorem segment_congr {read' : UInt32 → α} (a : UInt32) (n : ℕ)
    (h : ∀ k < n, read (a + UInt32.ofNat k) = read' (a + UInt32.ofNat k)) :
    segment read a n = segment read' a n := by
  induction n with
  | zero => rfl
  | succ n ih =>
    rw [segment_succ, segment_succ, ih fun k hk => h k (by omega), h n (by omega)]

end Segment

/-! ### Slots -/

/-- Counters less than a capacity apart have different slots. -/
theorem slot_ne {cap : ℕ} (hcap : cap ∣ 2 ^ 32) {a b : UInt32} (h0 : 0 < dist a b)
    (h : dist a b < cap) : a.toNat % cap ≠ b.toNat % cap := by
  intro heq
  obtain ⟨m, hm⟩ := hcap
  have ha := UInt32.toNat_lt a
  have hb := UInt32.toNat_lt b
  -- modulo the capacity the distance is the difference of the slots, hence zero
  have hmod : (dist a b) % cap = 0 := by
    rw [dist_eq, hm, Nat.mod_mul_right_mod, ← hm]
    have hsum : (2 ^ 32 - a.toNat + b.toNat) ≡ (2 ^ 32 - a.toNat + a.toNat) [MOD cap] :=
      Nat.ModEq.add_left _ heq.symm
    have htotal : 2 ^ 32 - a.toNat + a.toNat = cap * m := by omega
    rw [htotal] at hsum
    exact hsum.trans (Nat.modEq_zero_iff_dvd.mpr (Nat.dvd_mul_right _ _))
  rw [Nat.mod_eq_of_lt h] at hmod
  omega

end Counter
