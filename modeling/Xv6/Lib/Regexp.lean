import Mathlib

/-!
# Patterns for lines of text

A pattern is a row of pieces, each one letter or a repetition of it, that may be tied to the start
or to the end of a line.

## Main definitions

* `Regexp.Piece.lang`, `Regexp.lang` — the language of a piece, and of a row of them.
* `Regexp.Begins` — a text begins with a word of a language.
* `Regexp.Matches` — a pattern is found in a text.

## Main results

* `begins_one`, `begins_many_cons` — what the first piece of a row does with the first letter.
* `matches_cons` — a pattern that is not tied to the start is found here, or further on.
-/

namespace Regexp

open Computability

variable {α : Type*}

/-- What stands for one letter. -/
inductive Atom (α : Type*)
  | lit (a : α)
  | any
  deriving DecidableEq, Repr

/-- The letters that it stands for. -/
def Atom.letters : Atom α → Set α
  | .lit a => {a}
  | .any => Set.univ

inductive Piece (α : Type*)
  | one (x : Atom α)
  /-- Zero or more of it. -/
  | many (x : Atom α)
  deriving DecidableEq, Repr

def Atom.lang (x : Atom α) : Language α := { w | ∃ a ∈ x.letters, [a] = w }

def Piece.lang : Piece α → Language α
  | .one x => x.lang
  | .many x => x.lang∗

/-- The language of a row of pieces. -/
def lang (ps : List (Piece α)) : Language α := (ps.map Piece.lang).prod

/-- `w` begins with a word of `l`, which is all of `w` if `stop`. -/
def Begins (l : Language α) (stop : Bool) (w : List α) : Prop :=
  ∃ u ∈ l, ∃ v, u ++ v = w ∧ (stop = true → v = [])

variable {l m : Language α} {x : Atom α} {ps : List (Piece α)} {stop : Bool} {a : α} {w : List α}

theorem begins_add : Begins (l + m) stop w ↔ Begins l stop w ∨ Begins m stop w := by
  simp only [Begins, Language.mem_add, or_and_right, exists_or]

/-- The first atom takes the first letter. -/
theorem begins_mul : Begins (x.lang * l) stop w ↔
    ∃ a v, a :: v = w ∧ a ∈ x.letters ∧ Begins l stop v := by
  constructor
  · rintro ⟨u, hu, v, rfl, hstop⟩
    obtain ⟨b, ⟨a, ha, rfl⟩, t, ht, rfl⟩ := Language.mem_mul.mp hu
    exact ⟨a, t ++ v, rfl, ha, t, ht, v, rfl, hstop⟩
  · rintro ⟨a, w, rfl, ha, u, hu, v, rfl, hstop⟩
    have hau : [a] ++ u ∈ x.lang * l := Language.append_mem_mul ⟨a, ha, rfl⟩ hu
    exact ⟨[a] ++ u, hau, v, rfl, hstop⟩

/-- Nothing has to be there. -/
theorem begins_nil : Begins (lang ([] : List (Piece α))) stop w ↔ (stop = true → w = []) := by
  constructor
  · rintro ⟨u, rfl, v, rfl, hstop⟩
    exact hstop
  · intro hstop
    exact ⟨[], rfl, w, rfl, hstop⟩

theorem begins_one_nil : ¬Begins (lang (.one x :: ps)) stop [] := by
  intro h
  obtain ⟨a, v, hav, -⟩ := begins_mul.mp h
  cases hav

/-- A single atom takes a letter. -/
theorem begins_one : Begins (lang (.one x :: ps)) stop (a :: w) ↔
    a ∈ x.letters ∧ Begins (lang ps) stop w := by
  rw [lang, List.map_cons, List.prod_cons, Piece.lang, begins_mul]
  constructor
  · rintro ⟨b, v, heq, hb, hv⟩
    cases heq
    exact ⟨hb, hv⟩
  · rintro ⟨ha, hw⟩
    exact ⟨a, w, rfl, ha, hw⟩

/-- A repetition is empty, or one letter and a repetition. -/
theorem lang_many : lang (.many x :: ps) = lang ps + x.lang * lang (.many x :: ps) := by
  have hstar := Language.one_add_self_mul_kstar_eq_kstar x.lang
  simp only [lang, List.map_cons, List.prod_cons, Piece.lang]
  calc x.lang∗ * (ps.map Piece.lang).prod
      = (1 + x.lang * x.lang∗) * (ps.map Piece.lang).prod := by rw [hstar]
    _ = (ps.map Piece.lang).prod + x.lang * (x.lang∗ * (ps.map Piece.lang).prod) := by
      rw [add_mul, one_mul, mul_assoc]

theorem begins_many_nil : Begins (lang (.many x :: ps)) stop [] ↔ Begins (lang ps) stop [] := by
  rw [lang_many, begins_add, begins_mul]
  constructor
  · rintro (h | ⟨a, v, hav, -⟩)
    · exact h
    · cases hav
  · exact .inl

theorem begins_many_cons : Begins (lang (.many x :: ps)) stop (a :: w) ↔
    Begins (lang ps) stop (a :: w) ∨ (a ∈ x.letters ∧ Begins (lang (.many x :: ps)) stop w) := by
  nth_rewrite 1 [lang_many]
  rw [begins_add, begins_mul]
  refine or_congr_right ⟨?_, fun ⟨ha, hw⟩ => ⟨a, w, rfl, ha, hw⟩⟩
  rintro ⟨b, v, heq, hb, hv⟩
  cases heq
  exact ⟨hb, hv⟩

end Regexp

/-- A pattern: `start` ties it to the start of a line, and `stop` to the end. -/
structure Regexp (α : Type*) where
  start : Bool
  pieces : List (Regexp.Piece α)
  stop : Bool
  deriving DecidableEq, Repr

namespace Regexp

variable {α : Type*} {r : Regexp α} {a : α} {w : List α}

/-- Some position of `w` begins with the pieces. -/
def Matches (r : Regexp α) (w : List α) : Prop :=
  ∃ u v, u ++ v = w ∧ (r.start = true → u = []) ∧ Begins (lang r.pieces) r.stop v

theorem matches_start (h : r.start = true) : r.Matches w ↔ Begins (lang r.pieces) r.stop w := by
  constructor
  · rintro ⟨u, v, rfl, hstart, hv⟩
    rw [hstart h]
    exact hv
  · intro hw
    exact ⟨[], w, rfl, fun _ => rfl, hw⟩

theorem matches_nil : r.Matches [] ↔ Begins (lang r.pieces) r.stop [] := by
  constructor
  · rintro ⟨u, v, huv, -, hv⟩
    obtain ⟨rfl, rfl⟩ := List.append_eq_nil_iff.mp huv
    exact hv
  · intro hw
    exact ⟨[], [], rfl, fun _ => rfl, hw⟩

/-- A pattern is found here, or further on. -/
theorem matches_cons (h : r.start = false) : r.Matches (a :: w) ↔
    Begins (lang r.pieces) r.stop (a :: w) ∨ r.Matches w := by
  constructor
  · rintro ⟨u, v, huv, -, hv⟩
    rcases List.append_eq_cons_iff.mp huv with ⟨rfl, rfl⟩ | ⟨u, rfl, rfl⟩
    · exact .inl hv
    · exact .inr ⟨u, v, rfl, by simp [h], hv⟩
  · rintro (hw | ⟨u, v, rfl, -, hv⟩)
    · exact ⟨[], a :: w, rfl, fun _ => rfl, hw⟩
    · exact ⟨a :: u, v, rfl, by simp [h], hv⟩

end Regexp
