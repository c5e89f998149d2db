import Mathlib

/-!
# Singly linked lists

Nodes with one pointer each, as a function.  The last pointer is null.

## Main definitions

* `Chain next h l` — from the pointer `h` on, the pointers go through `l`.
* `last` — the walk to the end.

## Main results

* `Chain.last_eq` — the walk ends at the last node.
* `Chain.concat` — **a node is put at the end.**
-/

namespace Links

variable {N : Type*}

/-- From `h` on, the pointers go through the nodes of `l`, to a null pointer. -/
def Chain (next : N → Option N) : Option N → List N → Prop
  | h, [] => h = none
  | h, a :: l => h = some a ∧ Chain next (next a) l

/-- The node whose pointer is null, from `a` on; it gives up after some steps. -/
def last (next : N → Option N) : ℕ → N → Option N
  | 0, _ => none
  | n + 1, a =>
    match next a with
    | none => some a
    | some b => last next n b

variable {next next' : N → Option N} {h : Option N} {l : List N} {a z : N} {n : ℕ}

/-- The first node is the one that `h` points to. -/
theorem Chain.head (hc : Chain next h l) : l.head? = h := by
  cases l with
  | nil => exact hc.symm
  | cons a l => exact hc.1.symm

theorem Chain.congr (hc : Chain next h l) (heq : ∀ a ∈ l, next' a = next a) :
    Chain next' h l := by
  induction l generalizing h with
  | nil => exact hc
  | cons a l ih =>
    refine ⟨hc.1, ?_⟩
    rw [heq a List.mem_cons_self]
    exact ih hc.2 fun b hb => heq b (List.mem_cons_of_mem a hb)

/-- **The walk ends**, at the last node. -/
theorem Chain.last_eq (hc : Chain next (some a) l) (hn : l.length ≤ n) :
    last next n a = l.getLast? := by
  induction l generalizing a n with
  | nil => cases hc
  | cons b l ih =>
    obtain ⟨hab, hl⟩ := hc
    obtain rfl := Option.some.inj hab
    rw [List.length_cons] at hn
    obtain ⟨n, rfl⟩ := Nat.exists_eq_succ_of_ne_zero (Nat.pos_iff_ne_zero.mp (by omega : 0 < n))
    rw [last]
    cases hnext : next a with
    | none =>
      rw [hnext] at hl
      cases l with
      | nil => rfl
      | cons c l => cases hl.1
    | some c =>
      rw [hnext] at hl
      dsimp only
      rw [ih hl (by omega)]
      cases l with
      | nil => cases hl
      | cons d l => rfl

variable [DecidableEq N]

/-- **A node is put at the end.** -/
theorem Chain.concat (hc : Chain next h (l ++ [z])) (hnodup : (l ++ [z]).Nodup)
    (ha : a ∉ l ++ [z]) (hnull : next a = none) :
    Chain (Function.update next z (some a)) h (l ++ [z] ++ [a]) := by
  induction l generalizing h with
  | nil =>
    have haz : a ≠ z := by simpa using ha
    refine ⟨hc.1, ?_, ?_⟩
    · rw [Function.update_self]
    · rw [Function.update_of_ne haz, hnull]
      rfl
  | cons b l ih =>
    rw [List.cons_append, List.nodup_cons] at hnodup
    rw [List.cons_append, List.mem_cons, not_or] at ha
    have hbz : b ≠ z := fun heq => hnodup.1 (by simp [heq])
    refine ⟨hc.1, ?_⟩
    rw [Function.update_of_ne hbz]
    exact ih hc.2 hnodup.2 ha.2

end Links
