import Mathlib

/-!
# Lines of a stream

A stream of letters is cut at each separator.  What is behind the last one is the beginning of a
line that is not complete yet.

## Main definitions

* `Lines.cut` — the complete lines of a text, and its rest.
* `Lines.glue` — the same when the first line has begun before.

## Main results

* `cut_append` — **the lines of a text that arrives in two parts.**
* `cut_rest_append` — the lines that end in the second part.
-/

namespace Lines

variable {α : Type*}

/-- The first line begins with `k`. -/
def glue (k : List α) : List (List α) × List α → List (List α) × List α
  | ([], r) => ([], k ++ r)
  | (l :: ls, r) => ((k ++ l) :: ls, r)

variable {k l v w : List α} {x : List (List α) × List α}

theorem glue_glue : glue k (glue l x) = glue (k ++ l) x := by
  obtain ⟨_ | ⟨m, ls⟩, r⟩ := x
  · simp only [glue, List.append_assoc]
  · simp only [glue, List.append_assoc]

@[simp] theorem glue_nil : glue [] x = x := by
  obtain ⟨_ | ⟨m, ls⟩, r⟩ := x <;> rfl

@[simp] theorem glue_fst_eq_nil : (glue k x).1 = [] ↔ x.1 = [] := by
  obtain ⟨_ | ⟨m, ls⟩, r⟩ := x
  · exact iff_of_true rfl rfl
  · exact iff_of_false (List.cons_ne_nil _ _) (List.cons_ne_nil _ _)

theorem glue_snd (h : x.1 ≠ []) : (glue k x).2 = x.2 := by
  obtain ⟨_ | ⟨m, ls⟩, r⟩ := x
  · exact absurd rfl h
  · rfl

variable [DecidableEq α]

/-- The complete lines, without their separators, and the rest. -/
def cut (sep : α) : List α → List (List α) × List α
  | [] => ([], [])
  | c :: w => if c = sep then ([] :: (cut sep w).1, (cut sep w).2) else glue [c] (cut sep w)

variable {sep : α}

theorem cut_of_notMem (h : sep ∉ w) : cut sep w = ([], w) := by
  induction w with
  | nil => rfl
  | cons c w ih =>
    rw [List.mem_cons, not_or] at h
    rw [cut, if_neg (Ne.symm h.1), ih h.2, glue]
    rfl

/-- A text that begins with a line. -/
theorem cut_line (h : sep ∉ l) : cut sep (l ++ sep :: w) = (l :: (cut sep w).1, (cut sep w).2) := by
  induction l with
  | nil => rw [List.nil_append, cut, if_pos rfl]
  | cons c l ih =>
    rw [List.mem_cons, not_or] at h
    rw [List.cons_append, cut, if_neg (Ne.symm h.1), ih h.2, glue]
    rfl

theorem cut_fst_eq_nil : (cut sep w).1 = [] ↔ sep ∉ w := by
  constructor
  · intro h hmem
    obtain ⟨l, v, rfl, hl⟩ := List.eq_append_cons_of_mem hmem
    rw [cut_line hl] at h
    cases h
  · intro h
    rw [cut_of_notMem h]

/-- **The lines of a text that arrives in two parts.**  The rest of the first part is the beginning
of the first line of the second. -/
theorem cut_append (v w : List α) : cut sep (v ++ w) =
    ((cut sep v).1 ++ (glue (cut sep v).2 (cut sep w)).1, (glue (cut sep v).2 (cut sep w)).2) := by
  induction v with
  | nil => simp only [cut, List.nil_append, glue_nil]
  | cons c v ih =>
    rw [List.cons_append, cut, ih, cut]
    split
    · rfl
    · obtain ⟨_ | ⟨m, ls⟩, r⟩ := cut sep v
      · exact glue_glue
      · rfl

/-- What is behind the last separator. -/
theorem cut_snd_suffix (sep : α) (w : List α) : (cut sep w).2 <:+ w ∧ sep ∉ (cut sep w).2 := by
  induction w with
  | nil => exact ⟨List.suffix_rfl, List.not_mem_nil⟩
  | cons c w ih =>
    have hcons := List.suffix_cons c w
    by_cases hw : sep ∈ c :: w
    · rw [cut]
      split
      · exact ⟨ih.1.trans hcons, ih.2⟩
      · next hc =>
        rw [glue_snd (cut_fst_eq_nil.not_left.mpr (List.mem_of_ne_of_mem (Ne.symm hc) hw))]
        exact ⟨ih.1.trans hcons, ih.2⟩
    · rw [cut_of_notMem hw]
      exact ⟨List.suffix_rfl, hw⟩

theorem cut_snd_length_lt (h : sep ∈ w) : (cut sep w).2.length < w.length := by
  obtain ⟨hsuf, hmem⟩ := cut_snd_suffix sep w
  refine lt_of_le_of_ne hsuf.length_le fun hlen => hmem ?_
  rw [hsuf.eq_of_length hlen]
  exact h

/-- With the beginning of a line in front. -/
theorem cut_glue (h : sep ∉ k) (w : List α) : cut sep (k ++ w) = glue k (cut sep w) := by
  rw [cut_append, cut_of_notMem h, List.nil_append]

/-- The lines that end in the second part. -/
theorem cut_rest_append (sep : α) (v w : List α) :
    (cut sep (v ++ w)).1 = (cut sep v).1 ++ (cut sep ((cut sep v).2 ++ w)).1 ∧
      (cut sep (v ++ w)).2 = (cut sep ((cut sep v).2 ++ w)).2 := by
  rw [cut_glue (cut_snd_suffix sep v).2, cut_append]
  exact ⟨rfl, rfl⟩

theorem cut_snd_append (h : sep ∈ w) (v : List α) : (cut sep (v ++ w)).2 = (cut sep w).2 := by
  rw [cut_append]
  exact glue_snd (cut_fst_eq_nil.not_left.mpr h)

/-- As many lines as separators. -/
theorem length_cut_fst (w : List α) : (cut sep w).1.length = w.count sep := by
  induction w with
  | nil => rfl
  | cons c w ih =>
    rw [cut]
    split
    · next hc => rw [hc, List.count_cons_self, List.length_cons, ih]
    · next hc =>
      rw [List.count_cons_of_ne hc, ← ih]
      obtain ⟨_ | ⟨l, ls⟩, r⟩ := cut sep w <;> rfl

end Lines
