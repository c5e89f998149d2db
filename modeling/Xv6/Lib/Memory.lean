import Xv6.Lib.Bytes

/-!
# A memory of bytes

* `Memory`, `word`, `setWord` — the memory and its words, lowest byte first.
* `word_setWord_self`, `word_setWord_of_disjoint` — **a word after another one has been written**.
-/

namespace Bytes

/-- A byte for each address. -/
abbrev Memory := ℕ → UInt8

/-- The 32-bit word at an address. -/
def word (m : Memory) (a : ℕ) : ℕ := ofLe ((List.range 4).map fun i => m (a + i))

def setWord (m : Memory) (a v : ℕ) : Memory := fun i =>
  if a ≤ i ∧ i < a + 4 then (toLe 4 v)[i - a]?.getD 0 else m i

variable {m m' : Memory} {a b v : ℕ}

theorem word_lt (m : Memory) (a : ℕ) : word m a < 2 ^ 32 := by
  have hlt := ofLe_lt ((List.range 4).map fun i => m (a + i))
  rw [List.length_map, List.length_range] at hlt
  exact hlt

theorem word_congr (h : ∀ i, a ≤ i → i < a + 4 → m' i = m i) : word m' a = word m a := by
  refine congrArg ofLe (List.map_congr_left fun i hi => ?_)
  rw [List.mem_range] at hi
  exact h (a + i) (by omega) (by omega)

theorem word_setWord_self (hv : v < 2 ^ 32) : word (setWord m a v) a = v := by
  have hbytes : (List.range 4).map (fun i => setWord m a v (a + i)) = toLe 4 v := by
    refine List.ext_getElem ?_ fun i hi hi' => ?_
    · rw [List.length_map, List.length_range, length_toLe]
    · rw [List.length_map, List.length_range] at hi
      rw [List.getElem_map, List.getElem_range, setWord, if_pos (by omega), Nat.add_sub_cancel_left,
        List.getElem?_eq_getElem hi', Option.getD_some]
  rw [word, hbytes, ofLe_toLe 4 v hv]

theorem word_setWord_of_disjoint (h : a + 4 ≤ b ∨ b + 4 ≤ a) :
    word (setWord m a v) b = word m b :=
  word_congr fun i hi hi' => if_neg (by omega)

end Bytes
