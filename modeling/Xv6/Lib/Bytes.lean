import Mathlib

/-!
# Blocks of bytes

Blocks of a fixed number of bytes, read and written a piece at a time, and the numbers laid
out in them in little-endian order.

## Main definitions

* `byteAt`, `slice`, `patch` — a byte, a piece, and a piece replaced.
* `toLe`, `ofLe` — numbers as bytes; `wordAt` — a number in a block.
* `bitAt`, `setBit`, `clearBit` — a block as a bit map.

## Main results

* `byteAt_patch` — what `patch` does to each byte.
* `ofLe_toLe` — a number is read back as it was written.
* `wordAt_patch_self`, `wordAt_patch_of_disjoint` — the same inside a block.
* `bitAt_setBit`, `bitAt_clearBit` — what the bit operations do to each bit.
-/

namespace Bytes

variable {n : ℕ}

/-! ### Pieces -/

/-- The byte `i`, or zero behind the end. -/
def byteAt (b : Vector UInt8 n) (i : ℕ) : UInt8 := b[i]?.getD 0

/-- The `len` bytes from `off` on. -/
def slice (b : Vector UInt8 n) (off len : ℕ) : List UInt8 :=
  (List.range len).map fun k => byteAt b (off + k)

/-- The block with the bytes `bs` from `off` on. -/
def patch (b : Vector UInt8 n) (off : ℕ) (bs : List UInt8) : Vector UInt8 n :=
  Vector.ofFn fun i => if off ≤ i.val ∧ i.val < off + bs.length then bs.getD (i - off) 0 else b[i]

@[simp] theorem length_slice (b : Vector UInt8 n) (off len : ℕ) :
    (slice b off len).length = len := by simp [slice]

theorem getElem_slice (b : Vector UInt8 n) (off len i : ℕ) (h : i < (slice b off len).length) :
    (slice b off len)[i] = byteAt b (off + i) := by simp [slice]

theorem slice_add (b : Vector UInt8 n) (off j k : ℕ) :
    slice b off (j + k) = slice b off j ++ slice b (off + j) k := by
  simp [slice, List.range_add, Nat.add_assoc]

theorem slice_one (b : Vector UInt8 n) (off : ℕ) : slice b off 1 = [byteAt b off] := rfl

theorem byteAt_patch {i : ℕ} (h : i < n) (b : Vector UInt8 n) (off : ℕ) (bs : List UInt8) :
    byteAt (patch b off bs) i =
      if off ≤ i ∧ i < off + bs.length then bs.getD (i - off) 0 else byteAt b i := by
  simp [byteAt, patch, h]

theorem byteAt_of_le {i : ℕ} (h : n ≤ i) (b : Vector UInt8 n) : byteAt b i = 0 := by
  simp [byteAt, h]

theorem byteAt_patch_of_disjoint {i off : ℕ} {bs : List UInt8} (h : i < off ∨ off + bs.length ≤ i)
    (b : Vector UInt8 n) : byteAt (patch b off bs) i = byteAt b i := by
  rcases Nat.lt_or_ge i n with hi | hi
  · rw [byteAt_patch hi, if_neg (by omega)]
  · rw [byteAt_of_le hi, byteAt_of_le hi]

/-- The bytes of a block of zeros. -/
theorem byteAt_zero (i : ℕ) : byteAt (Vector.replicate n 0) i = 0 := by
  rw [byteAt]
  rcases Nat.lt_or_ge i n with h | h
  · simp [h]
  · simp [h]

/-- A piece is read back as it was written. -/
theorem slice_patch_self {off : ℕ} {bs : List UInt8} (h : off + bs.length ≤ n)
    (b : Vector UInt8 n) : slice (patch b off bs) off bs.length = bs := by
  refine List.ext_getElem (by simp) fun i hi hi' => ?_
  rw [getElem_slice, byteAt_patch (by omega), if_pos (by omega), Nat.add_sub_cancel_left,
    List.getD_eq_getElem _ _ hi']

/-- Another piece is not touched. -/
theorem slice_patch_of_disjoint {off off' len : ℕ} {bs : List UInt8}
    (h : off' + len ≤ off ∨ off + bs.length ≤ off') (b : Vector UInt8 n) :
    slice (patch b off bs) off' len = slice b off' len := by
  refine List.map_congr_left fun k hk => byteAt_patch_of_disjoint ?_ b
  rw [List.mem_range] at hk
  omega

/-! ### Numbers -/

/-- The `k` bytes of a number, the lowest one first. -/
def toLe : ℕ → ℕ → List UInt8
  | 0, _ => []
  | k + 1, v => UInt8.ofNat v :: toLe k (v / 256)

/-- The number of some bytes. -/
def ofLe : List UInt8 → ℕ
  | [] => 0
  | x :: xs => x.toNat + 256 * ofLe xs

@[simp] theorem length_toLe : ∀ (k v : ℕ), (toLe k v).length = k
  | 0, _ => rfl
  | k + 1, v => by rw [toLe, List.length_cons, length_toLe k]

/-- **A number is read back as it was written.** -/
theorem ofLe_toLe : ∀ (k v : ℕ), v < 256 ^ k → ofLe (toLe k v) = v := by
  intro k
  induction k with
  | zero =>
    intro v hv
    rw [pow_zero] at hv
    rw [toLe, ofLe]
    omega
  | succ k ih =>
    intro v hv
    rw [pow_succ] at hv
    rw [toLe, ofLe, ih _ (by omega), UInt8.toNat_ofNat']
    omega

/-- The number of `k` bytes at `off`. -/
def wordAt (k : ℕ) (b : Vector UInt8 n) (off : ℕ) : ℕ := ofLe (slice b off k)

theorem wordAt_patch_self {k v off : ℕ} (hv : v < 256 ^ k) (h : off + k ≤ n)
    (b : Vector UInt8 n) : wordAt k (patch b off (toLe k v)) off = v := by
  have hlen : off + (toLe k v).length ≤ n := by rwa [length_toLe]
  have hslice := slice_patch_self hlen b
  rw [length_toLe] at hslice
  rw [wordAt, hslice, ofLe_toLe k v hv]

/-- A number in the middle of a piece that is written. -/
theorem wordAt_patch_append {k v off o : ℕ} {pre post : List UInt8} (ho : o = off + pre.length)
    (hv : v < 256 ^ k) (h : o + k ≤ n) (b : Vector UInt8 n) :
    wordAt k (patch b off (pre ++ (toLe k v ++ post))) o = v := by
  have hslice : slice (patch b off (pre ++ (toLe k v ++ post))) o k = toLe k v := by
    refine List.ext_getElem (by simp) fun i hi hi' => ?_
    rw [length_toLe] at hi'
    rw [getElem_slice, byteAt_patch (by omega), if_pos (by simp; omega), ho,
      List.getD_eq_getElem _ _ (by simp; omega),
      List.getElem_append_right (by omega), List.getElem_append_left (by simp; omega)]
    congr 1
    omega
  rw [wordAt, hslice, ofLe_toLe k v hv]

theorem wordAt_patch_of_disjoint {k off off' : ℕ} {bs : List UInt8}
    (h : off' + k ≤ off ∨ off + bs.length ≤ off') (b : Vector UInt8 n) :
    wordAt k (patch b off bs) off' = wordAt k b off' := by
  rw [wordAt, slice_patch_of_disjoint h, wordAt]

theorem ofLe_lt : ∀ bs : List UInt8, ofLe bs < 256 ^ bs.length
  | [] => by simp [ofLe]
  | x :: xs => by
    have hx := x.toNat_lt
    have ih := ofLe_lt xs
    rw [ofLe, List.length_cons, pow_succ]
    omega

theorem ofLe_replicate : ∀ k : ℕ, ofLe (List.replicate k 0) = 0
  | 0 => rfl
  | k + 1 => by rw [List.replicate_succ, ofLe, ofLe_replicate k]; rfl

/-- The numbers in a block of zeros. -/
theorem wordAt_zero (k off : ℕ) : wordAt k (Vector.replicate n 0) off = 0 := by
  have hslice : slice (Vector.replicate n (0 : UInt8)) off k = List.replicate k 0 := by
    refine List.ext_getElem (by simp) fun i hi _ => ?_
    rw [getElem_slice, List.getElem_replicate, byteAt_zero]
  rw [wordAt, hslice, ofLe_replicate]

/-! ### Bits -/

/-- The bit `i` of a bit map. -/
def bitAt (b : Vector UInt8 n) (i : ℕ) : Bool := (byteAt b (i / 8)).toNat.testBit (i % 8)

/-- The bit map with the bit `i` set. -/
def setBit (b : Vector UInt8 n) (i : ℕ) : Vector UInt8 n :=
  patch b (i / 8) [byteAt b (i / 8) ||| 1 <<< UInt8.ofNat (i % 8)]

/-- The bit map with the bit `i` cleared. -/
def clearBit (b : Vector UInt8 n) (i : ℕ) : Vector UInt8 n :=
  patch b (i / 8) [byteAt b (i / 8) &&& ~~~(1 <<< UInt8.ofNat (i % 8))]

/-- The mask of the bit `k`. -/
theorem testBit_mask {k l : ℕ} (hk : k < 8) (hl : l < 8) :
    ((1 : UInt8) <<< UInt8.ofNat k).toNat.testBit l = decide (k = l) := by
  have hmod : (UInt8.ofNat k).toNat % 8 = k := by rw [UInt8.toNat_ofNat']; omega
  rw [UInt8.toNat_shiftLeft, hmod, Nat.testBit_mod_two_pow, UInt8.toNat_one, Nat.one_shiftLeft,
    Nat.testBit_two_pow]
  simp [hl]

theorem testBit_not_mask {k l : ℕ} (hk : k < 8) (hl : l < 8) :
    (~~~((1 : UInt8) <<< UInt8.ofNat k)).toNat.testBit l = !decide (k = l) := by
  rw [← testBit_mask hk hl, ← UInt8.toNat_toBitVec, UInt8.toBitVec_not, BitVec.testBit_toNat,
    BitVec.getLsbD_not, decide_eq_true hl, Bool.true_and, ← BitVec.testBit_toNat,
    UInt8.toNat_toBitVec]

/-- **Setting a bit** adds one bit to the map. -/
theorem bitAt_setBit {i : ℕ} (hi : i < 8 * n) (b : Vector UInt8 n) (j : ℕ) :
    bitAt (setBit b i) j = (decide (i = j) || bitAt b j) := by
  rw [bitAt, setBit]
  by_cases hb : j / 8 = i / 8
  · rw [hb, byteAt_patch (by omega), if_pos (by simp), Nat.sub_self, List.getD_cons_zero,
      UInt8.toNat_or, Nat.testBit_or, testBit_mask (by omega) (by omega), Bool.or_comm,
      bitAt, hb]
    congr 1
    rw [decide_eq_decide]
    omega
  · have hij : i ≠ j := fun h => hb (by rw [h])
    rw [byteAt_patch_of_disjoint (by simp only [List.length_singleton]; omega)]
    simp [hij, bitAt]

/-- **Clearing a bit** takes one bit out of the map. -/
theorem bitAt_clearBit {i : ℕ} (hi : i < 8 * n) (b : Vector UInt8 n) (j : ℕ) :
    bitAt (clearBit b i) j = (!decide (i = j) && bitAt b j) := by
  rw [bitAt, clearBit]
  by_cases hb : j / 8 = i / 8
  · rw [hb, byteAt_patch (by omega), if_pos (by simp), Nat.sub_self, List.getD_cons_zero,
      UInt8.toNat_and, Nat.testBit_and, testBit_not_mask (by omega) (by omega), Bool.and_comm,
      bitAt, hb]
    congr 2
    rw [decide_eq_decide]
    omega
  · have hij : i ≠ j := fun h => hb (by rw [h])
    rw [byteAt_patch_of_disjoint (by simp only [List.length_singleton]; omega)]
    simp [hij, bitAt]

/-- The bits of a block of zeros. -/
theorem bitAt_zero (i : ℕ) : bitAt (Vector.replicate n 0) i = false := by
  rw [bitAt, byteAt_zero]
  simp

end Bytes
