import Xv6.Lib.Bytes

/-!
# Reading a memory of which a part is there

A memory that may be read at some addresses only, as a program sees it that stops at the
first address that may not be read.

* `View`, `Holds` — the memory, and that some bytes are at an address.
* `loadWord`, `loadWords`, `loadString` — a word, the words up to a zero, and a string.
* `Holds.loadWord`, `Holds.loadWords`, `Holds.loadString` — **what was laid out is read back.**
-/

namespace Bytes

/-- The bytes at the addresses that may be read. -/
abbrev View := ℕ → Option UInt8

/-- The bytes are at `a`, one after the other. -/
def Holds (m : View) : ℕ → List UInt8 → Prop
  | _, [] => True
  | a, b :: bs => m a = some b ∧ Holds m (a + 1) bs

/-- The `n` bytes at `a`. -/
def load (m : View) : ℕ → ℕ → Option (List UInt8)
  | 0, _ => some []
  | n + 1, a => do
      let b ← m a
      let bs ← load m n (a + 1)
      return b :: bs

/-- The 32-bit word at `a`. -/
def loadWord (m : View) (a : ℕ) : Option ℕ := (load m 4 a).map ofLe

/-- The words from `a` on, up to a zero that is among the first `n`. -/
def loadWords (m : View) : ℕ → ℕ → Option (List ℕ)
  | 0, _ => none
  | n + 1, a => do
      let w ← loadWord m a
      if w = 0 then return []
      else
        let ws ← loadWords m n (a + 4)
        return w :: ws

/-- The bytes from `a` on, up to a zero that is among the first `n`. -/
def loadString (m : View) : ℕ → ℕ → Option (List UInt8)
  | 0, _ => none
  | n + 1, a => do
      let b ← m a
      if b = 0 then return []
      else
        let bs ← loadString m n (a + 1)
        return b :: bs

/-! ### What is at an address -/

variable {m m' : View} {a : ℕ}

theorem holds_append {bs cs : List UInt8} :
    Holds m a (bs ++ cs) ↔ Holds m a bs ∧ Holds m (a + bs.length) cs := by
  induction bs generalizing a with
  | nil => simp [Holds]
  | cons b bs ih =>
    rw [List.cons_append, Holds, Holds, ih, List.length_cons, and_assoc,
      show a + 1 + bs.length = a + (bs.length + 1) by omega]

theorem holds_iff {bs : List UInt8} :
    Holds m a bs ↔ ∀ i < bs.length, m (a + i) = some (bs.getD i 0) := by
  induction bs generalizing a with
  | nil => simp [Holds]
  | cons b bs ih =>
    rw [Holds, ih, List.length_cons]
    constructor
    · rintro ⟨hb, hbs⟩ i hi
      cases i with
      | zero => exact hb
      | succ i =>
        rw [show a + (i + 1) = a + 1 + i by omega, List.getD_cons_succ]
        exact hbs i (by omega)
    · intro h
      refine ⟨h 0 (Nat.zero_lt_succ _), fun i hi => ?_⟩
      rw [show a + 1 + i = a + (i + 1) by omega, ← List.getD_cons_succ (x := b)]
      exact h (i + 1) (by omega)

/-- Bytes stay where the memory stays. -/
theorem Holds.congr {bs : List UInt8} (h : Holds m a bs)
    (heq : ∀ x, a ≤ x → x < a + bs.length → m' x = m x) : Holds m' a bs := by
  rw [holds_iff] at h ⊢
  intro i hi
  rw [heq (a + i) (by omega) (by omega), h i hi]

/-! ### What is read -/

theorem Holds.load {bs : List UInt8} (h : Holds m a bs) : load m bs.length a = some bs := by
  induction bs generalizing a with
  | nil => rfl
  | cons b bs ih =>
    rw [List.length_cons, Bytes.load, h.1, ih h.2]
    rfl

/-- **A word is read back.** -/
theorem Holds.loadWord {w : ℕ} (h : Holds m a (toLe 4 w)) (hw : w < 2 ^ 32) :
    loadWord m a = some w := by
  have hload := h.load
  rw [length_toLe] at hload
  rw [Bytes.loadWord, hload, Option.map_some, ofLe_toLe 4 w hw]

/-- **An array of words that ends with a zero is read back**, where no other word is zero. -/
theorem Holds.loadWords {ws : List ℕ} {n : ℕ} (h : Holds m a ((ws ++ [0]).flatMap (toLe 4)))
    (hws : ∀ w ∈ ws, 0 < w ∧ w < 2 ^ 32) (hn : ws.length < n) : loadWords m n a = some ws := by
  induction ws generalizing a n with
  | nil =>
    obtain ⟨n, rfl⟩ := Nat.exists_eq_succ_of_ne_zero (Nat.ne_of_gt hn)
    rw [List.nil_append, List.flatMap_singleton] at h
    rw [Bytes.loadWords, h.loadWord (by norm_num)]
    rfl
  | cons w ws ih =>
    rw [List.length_cons] at hn
    obtain ⟨n, rfl⟩ := Nat.exists_eq_succ_of_ne_zero (Nat.ne_zero_of_lt hn)
    rw [List.cons_append, List.flatMap_cons, holds_append, length_toLe] at h
    obtain ⟨hpos, hlt⟩ := hws w List.mem_cons_self
    have hrest := ih h.2 (fun v hv => hws v (List.mem_cons_of_mem w hv)) (Nat.lt_of_succ_lt_succ hn)
    rw [Bytes.loadWords, h.1.loadWord hlt, Option.bind_eq_bind, Option.bind_some,
      if_neg hpos.ne', hrest]
    rfl

/-- **A string is read back.** -/
theorem Holds.loadString {str : List UInt8} {n : ℕ} (h : Holds m a (str ++ [0]))
    (hstr : 0 ∉ str) (hn : str.length < n) : loadString m n a = some str := by
  induction str generalizing a n with
  | nil =>
    obtain ⟨n, rfl⟩ := Nat.exists_eq_succ_of_ne_zero (Nat.ne_of_gt hn)
    rw [Bytes.loadString, h.1]
    rfl
  | cons b str ih =>
    rw [List.length_cons] at hn
    obtain ⟨n, rfl⟩ := Nat.exists_eq_succ_of_ne_zero (Nat.ne_zero_of_lt hn)
    rw [List.mem_cons, not_or] at hstr
    have hrest := ih h.2 hstr.2 (Nat.lt_of_succ_lt_succ hn)
    rw [Bytes.loadString, h.1, Option.bind_eq_bind, Option.bind_some, if_neg (Ne.symm hstr.1),
      hrest]
    rfl

end Bytes
