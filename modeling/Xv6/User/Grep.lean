import Xv6.Basic
import Xv6.Lib.Bytes
import Xv6.Lib.Lines
import Xv6.Lib.Regexp

/-!
# `grep`

The matcher of `grep.c`, on strings without their NUL, and the loop that reads into a buffer of
1024 bytes and writes the lines that match.

## Main definitions

* `match_`, `matchhere`, `matchstar` — the matcher.
* `parse` — the pattern that a string stands for.
* `lines`, `turn`, `grep` — the loop over the lines in the buffer, and the one over the reads.
* `Filtered` — what is written after each read: the lines so far that match.

## Main results

* `matchhere_iff` — **the matcher decides whether a text begins with the pattern.**
* `match_iff` — **`match` decides whether it occurs in the text.**
* `lines_spec`, `turn_spec`, `grep_spec` — what the loops write and keep.
* `grep_output` — **all lines that match are written if and only if every read has a newline.**
-/

namespace Xv6
namespace Grep

open Bytes Lines Regexp

/-! ### The matcher -/

mutual

/-- `matchhere`: search for re at beginning of text -/
def matchhere (re text : List UInt8) : Bool :=
  match re with
  | [] => true
  | c :: re =>
    if re.head? = some '*'.toUInt8 then matchstar c re.tail text
    else if c = '$'.toUInt8 ∧ re = [] then decide (text = [])
    else
      match text with
      | [] => false
      | t :: text => if c = '.'.toUInt8 ∨ c = t then matchhere re text else false
termination_by (re.length, text.length, 0)
decreasing_by all_goals simp only [Prod.lex_def, List.length_cons, List.length_tail]; omega

/-- `matchstar`: search for c*re at beginning of text -/
def matchstar (c : UInt8) (re text : List UInt8) : Bool :=
  if matchhere re text then true
  else
    match text with
    | [] => false
    | t :: text => if t = c ∨ c = '.'.toUInt8 then matchstar c re text else false
termination_by (re.length, text.length, 1)
decreasing_by all_goals simp [Prod.lex_def]

end

/-- The loop of `match`, which must look at the empty string too. -/
def search (re : List UInt8) : List UInt8 → Bool
  | [] => matchhere re []
  | t :: text => if matchhere re (t :: text) then true else search re text

/-- `match` -/
def match_ (re text : List UInt8) : Bool :=
  if re.head? = some '^'.toUInt8 then matchhere re.tail text else search re text

/-! ### What a pattern means -/

/-- A character, or `.` -/
def atom (c : UInt8) : Atom UInt8 := if c = '.'.toUInt8 then .any else .lit c

/-- The pieces of a pattern, and whether a final `$` ties it to the end. -/
def items : List UInt8 → List (Piece UInt8) × Bool
  | [] => ([], false)
  | [c] => if c = '$'.toUInt8 then ([], true) else ([.one (atom c)], false)
  | c :: d :: re =>
    if d = '*'.toUInt8 then (.many (atom c) :: (items re).1, (items re).2)
    else (.one (atom c) :: (items (d :: re)).1, (items (d :: re)).2)

/-- The pattern that a string stands for. -/
def parse (re : List UInt8) : Regexp UInt8 :=
  if re.head? = some '^'.toUInt8 then ⟨true, (items re.tail).1, (items re.tail).2⟩
  else ⟨false, (items re).1, (items re).2⟩

/-- The text begins with the items of the pattern. -/
def Here (re text : List UInt8) : Prop := Begins (lang (items re).1) (items re).2 text

theorem mem_letters_atom {c t : UInt8} :
    t ∈ (atom c).letters ↔ c = '.'.toUInt8 ∨ c = t := by
  rw [atom]
  split
  · next h => simp [Atom.letters, h]
  · next h => simp [Atom.letters, h, eq_comm]

variable {c : UInt8} {re text : List UInt8}

/-- `matchstar` repeats the character in front of what follows it. -/
theorem matchstar_iff (h : ∀ text, matchhere re text = true ↔ Here re text) (text : List UInt8) :
    matchstar c re text = true ↔
      Begins (lang (.many (atom c) :: (items re).1)) (items re).2 text := by
  induction text with
  | nil =>
    rw [matchstar, begins_many_nil, ← Here, ← h]
    cases matchhere re [] <;> simp
  | cons t text ih =>
    rw [matchstar, begins_many_cons, ← Here, ← h, ← ih, mem_letters_atom]
    by_cases hhere : matchhere re (t :: text)
    · simp [hhere]
    · simp only [hhere]
      grind

/-- **`matchhere` decides whether the text begins with the pattern.** -/
theorem matchhere_iff (re : List UInt8) : ∀ text, matchhere re text = true ↔ Here re text := by
  induction re using items.induct with
  | case1 =>
    intro text
    rw [matchhere, Here, items, begins_nil]
    simp
  | case2 =>
    intro text
    rw [matchhere.eq_def, Here, items]
    simp [begins_nil]
  | case3 c hc =>
    intro text
    rw [matchhere.eq_def, Here, items, if_neg hc]
    cases text with
    | nil => simp [hc, begins_one_nil]
    | cons t text =>
      rw [begins_one, mem_letters_atom, begins_nil]
      simp [hc, matchhere]
  | case4 c re ih =>
    intro text
    rw [matchhere.eq_def, Here, items, if_pos rfl]
    dsimp only
    rw [List.head?_cons, if_pos rfl]
    exact matchstar_iff ih text
  | case5 c d re hd ih =>
    intro text
    rw [matchhere.eq_def, Here, items, if_neg hd]
    cases text with
    | nil => simp [hd, begins_one_nil]
    | cons t text =>
      rw [begins_one, mem_letters_atom, ← Here, ← ih]
      simp [hd]

theorem search_iff (re text : List UInt8) : search re text = true ↔
    (⟨false, (items re).1, (items re).2⟩ : Regexp UInt8).Matches text := by
  induction text with
  | nil => rw [search, matchhere_iff, matches_nil, Here]
  | cons t text ih =>
    rw [search, matches_cons rfl, ← ih, ← Here, ← matchhere_iff]
    by_cases hhere : matchhere re (t :: text)
    · simp [hhere]
    · simp [hhere]

/-- **The matcher.**  `match` finds just what the pattern means. -/
theorem match_iff (re text : List UInt8) : match_ re text = true ↔ (parse re).Matches text := by
  rw [match_, parse]
  split
  · rw [matchhere_iff, matches_start rfl, Here]
  · exact search_iff re text

/-! ### The buffer -/

/-- `'\n'` -/
def newline : UInt8 := 0x0a

/-- `buf` and `m`, and what `write` is called with. -/
structure State where
  buf : Vector UInt8 1024
  m : ℕ
  out : List (List UInt8)

/-- The string at `p`. -/
def string (buf : Vector UInt8 1024) (p : ℕ) : List UInt8 :=
  (slice buf p (1024 - p)).takeWhile (· ≠ 0)

/-- `strchr(p, '\n')` -/
def strchr (buf : Vector UInt8 1024) (p : ℕ) : Option ℕ :=
  ((string buf p).idxOf? newline).map (p + ·)

/-- The inner loop, from `p` on. -/
def lines (re : List UInt8) : ℕ → State → ℕ → Option (State × ℕ)
  | 0, _, _ => none
  | n + 1, s, p =>
    match strchr s.buf p with
    | none => some (s, p)
    | some q =>
      let buf := patch s.buf q [0]
      if match_ re (string buf p) then
        let buf := patch buf q [newline]
        lines re n { s with buf := buf, out := s.out ++ [slice buf p (q + 1 - p)] } (q + 1)
      else lines re n { s with buf := buf } (q + 1)

/-- The outer loop once: `read` is asked for `sizeof(buf)-m-1` bytes, and returns `chunk`. -/
def turn (re : List UInt8) (s : State) (chunk : List UInt8) : Option State :=
  if chunk.length ≤ 1024 - s.m - 1 then
    let m := s.m + chunk.length
    let buf := patch (patch s.buf s.m chunk) m [0]
    (lines re 1024 { s with buf := buf, m := m } 0).map fun (s, p) =>
      let m := if p = 0 then 0 else s.m
      if 0 < m then { s with buf := patch s.buf 0 (slice s.buf p (m - p)), m := m - p }
      else { s with m := m }
  else none

/-- `grep`, with what the calls of `read` return. -/
def grep (re : List UInt8) : State → List (List UInt8) → Option State
  | s, [] => some s
  | s, chunk :: chunks =>
    if chunk = [] then some s else (turn re s chunk).bind fun s => grep re s chunks

/-- The buffer may hold anything, of the file before. -/
def start (buf : Vector UInt8 1024) : State := ⟨buf, 0, []⟩

/-- The lines of a text that match, as they are written. -/
def matching (re text : List UInt8) : List (List UInt8) :=
  ((cut newline text).1.filter fun l => match_ re l).map fun l => l ++ [newline]

variable {buf : Vector UInt8 1024} {p q m n : ℕ} {l t chunk : List UInt8} {s : State}

theorem string_eq (h : slice buf p n = l) (hl : 0 ∉ l) (hend : byteAt buf (p + n) = 0)
    (hn : p + n < 1024) : string buf p = l := by
  have hlen : 1024 - p = n + (1 + (1024 - p - n - 1)) := by omega
  rw [string, hlen, slice_add, slice_add, slice_one, hend, h, List.takeWhile_append_of_pos]
  · simp
  · intro c hc
    have hne : c ≠ 0 := fun hzero => hl (hzero ▸ hc)
    simpa using hne

theorem strchr_eq_none (h : string buf p = t) (ht : newline ∉ t) : strchr buf p = none := by
  rw [strchr, h, List.idxOf?_eq_none_iff.mpr ht, Option.map_none]

theorem strchr_eq_some (h : string buf p = l ++ newline :: t) (hl : newline ∉ l) :
    strchr buf p = some (p + l.length) := by
  have hidx : (l ++ newline :: t).idxOf? newline = some l.length := by
    refine List.idxOf?_eq_some_iff.mpr ⟨by simp, by simp, fun j hj heq => hl ?_⟩
    rw [List.getElem_append_left hj] at heq
    exact heq ▸ List.getElem_mem hj
  rw [strchr, h, hidx, Option.map_some]

theorem matching_line (re : List UInt8) (hl : newline ∉ l) : matching re (l ++ newline :: t) =
    (if match_ re l then [l ++ [newline]] else []) ++ matching re t := by
  rw [matching, cut_line hl, matching, List.filter_cons]
  split <;> rfl

/-- A byte in front of a piece. -/
theorem slice_patch_front (h : q < p) (c : UInt8) :
    slice (patch buf q [c]) p n = slice buf p n := by
  apply slice_patch_of_disjoint
  exact .inr h

theorem byteAt_patch_front (h : q < p) (c : UInt8) : byteAt (patch buf q [c]) p = byteAt buf p := by
  apply byteAt_patch_of_disjoint
  exact .inr h

theorem byteAt_patch_one (h : q < 1024) (c : UInt8) : byteAt (patch buf q [c]) q = c := by
  rw [byteAt_patch h, if_pos (by simp), Nat.sub_self]
  rfl

/-- A line in the buffer, and what follows it. -/
theorem slice_line (h : slice buf p (l ++ newline :: t).length = l ++ newline :: t) :
    slice buf p l.length = l ∧ byteAt buf (p + l.length) = newline ∧
      slice buf (p + l.length + 1) t.length = t := by
  have hlen : (l ++ newline :: t).length = l.length + (1 + t.length) := by simp; omega
  rw [hlen, slice_add, slice_add, slice_one] at h
  obtain ⟨hl, ht⟩ := List.append_inj h (length_slice _ _ _)
  obtain ⟨hnl, ht⟩ := List.cons.inj ht
  exact ⟨hl, hnl, ht⟩

/-- What the loop does with the text from `p` to `m`. -/
theorem lines_spec (re : List UInt8) : ∀ (n : ℕ) (s : State) (p : ℕ) (t : List UInt8),
    slice s.buf p t.length = t → p + t.length = s.m → s.m < 1024 → byteAt s.buf s.m = 0 →
    0 ∉ t → t.length < n →
    ∃ buf, lines re n s p = some ({ s with buf := buf, out := s.out ++ matching re t },
      s.m - (cut newline t).2.length) ∧
      slice buf (s.m - (cut newline t).2.length) (cut newline t).2.length = (cut newline t).2 := by
  intro n
  induction n with
  | zero => intro s p t _ _ _ _ _ hn; omega
  | succ n ih =>
    intro s p t ht hlen hm hend hzero hn
    have hstring : string s.buf p = t := string_eq ht hzero (hlen ▸ hend) (hlen ▸ hm)
    by_cases hmem : newline ∈ t
    · obtain ⟨l, v, rfl, hl⟩ := List.eq_append_cons_of_mem hmem
      obtain ⟨hline, -, hrest⟩ := slice_line ht
      rw [List.length_append, List.length_cons] at hlen hn
      rw [List.mem_append, List.mem_cons, not_or, not_or] at hzero
      have hq : p + l.length < 1024 := by omega
      have hqm : p + l.length < s.m := by omega
      -- the line is a string when its newline is a NUL
      have hstring' : string (patch s.buf (p + l.length) [0]) p = l := by
        refine string_eq ?_ hzero.1 ?_ hq
        · rw [slice_patch_of_disjoint (.inl le_rfl), hline]
        · exact byteAt_patch_one hq 0
      rw [lines, strchr_eq_some hstring hl, matching_line re hl, cut_line hl]
      dsimp only
      rw [hstring']
      split
      · next hmatch =>
        obtain ⟨buf, hlines, hbuf⟩ := ih
          { s with
            buf := patch (patch s.buf (p + l.length) [0]) (p + l.length) [newline]
            out := s.out ++ [l ++ [newline]] } (p + l.length + 1) v
          (by rw [slice_patch_front (by omega), slice_patch_front (by omega), hrest])
          (by dsimp only; omega) hm
          (by rw [byteAt_patch_front hqm, byteAt_patch_front hqm, hend])
          hzero.2.2 (by omega)
        have hwrite : slice (patch (patch s.buf (p + l.length) [0]) (p + l.length) [newline]) p
            (p + l.length + 1 - p) = l ++ [newline] := by
          have hlen' : p + l.length + 1 - p = l.length + 1 := by omega
          rw [hlen', slice_add, slice_one, slice_patch_of_disjoint (.inl le_rfl),
            slice_patch_of_disjoint (.inl le_rfl), hline, byteAt_patch_one hq]
        rw [hwrite, hlines]
        exact ⟨buf, by rw [List.append_assoc], hbuf⟩
      · next hmatch =>
        exact ih { s with buf := patch s.buf (p + l.length) [0] } (p + l.length + 1) v
          (by rw [slice_patch_front (by omega), hrest]) (by dsimp only; omega) hm
          (by rw [byteAt_patch_front hqm, hend]) hzero.2.2 (by omega)
    · rw [lines, strchr_eq_none hstring hmem, matching, cut_of_notMem hmem]
      dsimp only
      have hp : s.m - t.length = p := by omega
      rw [hp, List.filter_nil, List.map_nil, List.append_nil]
      exact ⟨s.buf, rfl, ht⟩

/-! ### The chunks -/

/-- What of a chunk is kept for the next one: nothing, if there is no newline in it. -/
def after (chunk : List UInt8) : List UInt8 :=
  if newline ∈ chunk then (cut newline chunk).2 else []

/-- `buf` begins with `k`. -/
structure Holds (s : State) (k : List UInt8) : Prop where
  length : s.m = k.length
  text : slice s.buf 0 k.length = k
  notMem : newline ∉ k
  noNul : 0 ∉ k

theorem notMem_after (h : 0 ∉ chunk) : newline ∉ after chunk ∧ 0 ∉ after chunk := by
  rw [after]
  split
  · obtain ⟨hsuf, hmem⟩ := cut_snd_suffix newline chunk
    exact ⟨hmem, fun hzero => h (hsuf.subset hzero)⟩
  · exact ⟨List.not_mem_nil, List.not_mem_nil⟩

/-- **A turn of the loop** writes the lines that match, with `k` in front of the chunk. -/
theorem turn_spec {k : List UInt8} (re : List UInt8) (h : Holds s k) (hzero : 0 ∉ chunk)
    (hlen : k.length + chunk.length ≤ 1023) : ∃ s', turn re s chunk = some s' ∧
      s'.out = s.out ++ matching re (k ++ chunk) ∧ Holds s' (after chunk) := by
  have hm := h.length
  have hbuf : slice (patch (patch s.buf s.m chunk) (s.m + chunk.length) [0]) 0
      (k ++ chunk).length = k ++ chunk := by
    rw [List.length_append, slice_patch_of_disjoint (.inl (by omega)), slice_add, ← hm,
      slice_patch_of_disjoint (.inl (by omega)), hm, h.text, Nat.zero_add,
      slice_patch_self (by omega)]
  obtain ⟨buf, hlines, hrest⟩ := lines_spec re 1024
    { s with
      buf := patch (patch s.buf s.m chunk) (s.m + chunk.length) [0]
      m := s.m + chunk.length } 0 (k ++ chunk) hbuf
    (by rw [List.length_append, hm, Nat.zero_add]) (by dsimp only; omega)
    (byteAt_patch_one (by omega) 0)
    (fun hmem => (List.mem_append.mp hmem).elim h.noNul hzero)
    (by rw [List.length_append]; omega)
  dsimp only at hlines hrest
  rw [turn, if_pos (by omega)]
  dsimp only
  rw [hlines]
  refine ⟨_, rfl, ?_⟩
  obtain ⟨hnewline, hnul⟩ := notMem_after hzero
  dsimp only
  by_cases hmem : newline ∈ chunk
  · -- the rest behind the last newline is moved to the front
    have hafter : (cut newline (k ++ chunk)).2 = after chunk := by
      rw [cut_snd_append hmem, after, if_pos hmem]
    have hlt := cut_snd_length_lt (List.mem_append_right k hmem)
    rw [List.length_append, hafter, ← hm] at hlt
    rw [hafter] at hrest ⊢
    have hsub : s.m + chunk.length - (s.m + chunk.length - (after chunk).length) =
        (after chunk).length := by omega
    have hp : s.m + chunk.length - (after chunk).length ≠ 0 := by omega
    have hpos : 0 < s.m + chunk.length := by omega
    rw [if_neg hp, if_pos hpos, hsub, hrest]
    exact ⟨rfl, rfl, slice_patch_self (by omega) buf, hnewline, hnul⟩
  · have hnone : newline ∉ k ++ chunk := by simp [h.notMem, hmem]
    have hafter : after chunk = [] := if_neg hmem
    rw [cut_of_notMem hnone, List.length_append, hm, Nat.sub_self, if_pos rfl,
      if_neg (Nat.lt_irrefl 0)]
    rw [hafter] at hnewline hnul ⊢
    exact ⟨rfl, rfl, rfl, hnewline, hnul⟩

/-- `read` returns at most what it is asked for. -/
def Fits : List UInt8 → List (List UInt8) → Prop
  | _, [] => True
  | k, chunk :: chunks => k.length + chunk.length ≤ 1023 ∧ Fits (after chunk) chunks

/-- What is in the buffer after the chunks, if it was `k` before. -/
def held : List UInt8 → List (List UInt8) → List UInt8
  | k, [] => k
  | _, chunk :: chunks => held (after chunk) chunks

/-- What is written for the chunks, with `k` in front of them. -/
def written (re : List UInt8) : List UInt8 → List (List UInt8) → List (List UInt8)
  | _, [] => []
  | k, chunk :: chunks => matching re (k ++ chunk) ++ written re (after chunk) chunks

variable {k : List UInt8} {chunks pre : List (List UInt8)}

theorem turn_eq_none (re : List UInt8) (h : Holds s k) (hk : k.length ≤ 1023)
    (hlen : ¬k.length + chunk.length ≤ 1023) : turn re s chunk = none := by
  have hm := h.length
  rw [turn, if_neg (by omega)]

/-- **`grep` by the chunks.** -/
theorem grep_spec (re : List UInt8) (h : Holds s k) (hk : k.length ≤ 1023)
    (hne : ∀ c ∈ chunks, c ≠ []) (hzero : 0 ∉ chunks.flatten) :
    ((grep re s chunks).isSome ↔ Fits k chunks) ∧
      ∀ s', grep re s chunks = some s' →
        s'.out = s.out ++ written re k chunks ∧ Holds s' (held k chunks) := by
  induction chunks generalizing s k with
  | nil =>
    refine ⟨iff_of_true rfl trivial, ?_⟩
    intro s' hs'
    cases hs'
    exact ⟨(List.append_nil _).symm, h⟩
  | cons chunk chunks ih =>
    rw [List.flatten_cons, List.mem_append, not_or] at hzero
    rw [grep, if_neg (hne chunk List.mem_cons_self)]
    by_cases hlen : k.length + chunk.length ≤ 1023
    · obtain ⟨s₁, hturn, hout, hs₁⟩ := turn_spec re h hzero.1 hlen
      have hafter : (after chunk).length ≤ 1023 := by
        rw [after]
        split
        · next hmem => have hlt := cut_snd_length_lt hmem; omega
        · exact Nat.zero_le _
      obtain ⟨hiff, hwritten⟩ :=
        ih hs₁ hafter (fun c hc => hne c (List.mem_cons_of_mem _ hc)) hzero.2
      rw [hturn, Option.bind_some]
      refine ⟨hiff.trans (and_iff_right hlen).symm, fun s' hs' => ?_⟩
      obtain ⟨hout', hholds⟩ := hwritten s' hs'
      rw [hout', hout, List.append_assoc, written]
      exact ⟨rfl, hholds⟩
    · rw [turn_eq_none re h hk hlen, Option.bind_none]
      exact ⟨iff_of_false nofun fun hfits => hlen hfits.1, nofun⟩

/-! ### Lines that are cut -/

/-- The beginning of a line that is not complete after the chunks. -/
def rest (pre : List (List UInt8)) : List UInt8 := (cut newline pre.flatten).2

/-- What a chunk has up to its first newline. -/
def first (chunk : List UInt8) : List UInt8 := chunk.takeWhile (· ≠ newline)

variable {b : List UInt8} {re : List UInt8}

theorem held_concat (k : List UInt8) (pre : List (List UInt8)) (b : List UInt8) :
    held k (pre ++ [b]) = after b := by
  induction pre generalizing k with
  | nil => rfl
  | cons c pre ih => exact ih (after c)

theorem written_append (re k : List UInt8) (pre chunks : List (List UInt8)) :
    written re k (pre ++ chunks) = written re k pre ++ written re (held k pre) chunks := by
  induction pre generalizing k with
  | nil => rfl
  | cons c pre ih =>
    rw [List.cons_append, written, written, ih, held, List.append_assoc]

theorem matching_append (re v w : List UInt8) :
    matching re (v ++ w) = matching re v ++ matching re ((cut newline v).2 ++ w) := by
  rw [matching, (cut_rest_append newline v w).1, List.filter_append, List.map_append, matching,
    matching]

/-- The lines that end in a chunk are written as they should be, if its first one is. -/
theorem matching_eq_iff {u : List UInt8} (hk : newline ∉ k) (hu : newline ∉ u) :
    matching re (k ++ chunk) = matching re (u ++ chunk) ↔
      (newline ∈ chunk → k = u ∨
        (match_ re (u ++ first chunk) = false ∧ match_ re (k ++ first chunk) = false)) := by
  by_cases hmem : newline ∈ chunk
  · obtain ⟨l, v, rfl, hl⟩ := List.eq_append_cons_of_mem hmem
    have hfirst : first (l ++ newline :: v) = l := by
      rw [first, List.takeWhile_append_of_pos, List.takeWhile_cons_of_neg (by simp),
        List.append_nil]
      intro c hc
      have hne : c ≠ newline := fun heq => hl (heq ▸ hc)
      simpa using hne
    have hkl : newline ∉ k ++ l := by simp [hk, hl]
    have hul : newline ∉ u ++ l := by simp [hu, hl]
    rw [hfirst, ← List.append_assoc, ← List.append_assoc, matching_line re hkl,
      matching_line re hul, List.append_left_inj, imp_iff_right hmem]
    by_cases heq : k = u
    · rw [heq]
      exact iff_of_true rfl (.inl rfl)
    · rw [or_iff_right heq]
      cases match_ re (k ++ l) <;> cases match_ re (u ++ l) <;> simp [heq]
  · refine iff_of_true ?_ fun h => absurd h hmem
    have hkc : newline ∉ k ++ chunk := by simp [hk, hmem]
    have huc : newline ∉ u ++ chunk := by simp [hu, hmem]
    rw [matching, matching, cut_of_notMem hkc, cut_of_notMem huc]

theorem notMem_held (h : newline ∉ k) (hzero : 0 ∉ pre.flatten) : newline ∉ held k pre := by
  induction pre generalizing k with
  | nil => exact h
  | cons c pre ih =>
    rw [List.flatten_cons, List.mem_append, not_or] at hzero
    exact ih (notMem_after hzero.1).1 hzero.2

/-- A text in chunks, whose lines are short and end in a newline. -/
structure Input (chunks : List (List UInt8)) : Prop where
  ne_nil : ∀ c ∈ chunks, c ≠ []
  noNul : 0 ∉ chunks.flatten
  ends : (cut newline chunks.flatten).2 = []
  short : ∀ l ∈ (cut newline chunks.flatten).1, l.length < 1023

/-- No chunk is longer than what `read` is asked for. -/
def Readable (chunks : List (List UInt8)) : Prop :=
  ∀ re buf, (grep re (start buf) chunks).isSome

/-- The lines that match are written. -/
def Filtered (re : List UInt8) (buf : Vector UInt8 1024) (chunks : List (List UInt8)) : Prop :=
  (grep re (start buf) chunks).map State.out = some (matching re chunks.flatten)

/-- A line of which a chunk without a newline has the beginning does not match, and neither does
what the next chunk has of it. -/
def Uncut (re : List UInt8) (chunks : List (List UInt8)) : Prop :=
  ∀ pre b c post, chunks = pre ++ b :: c :: post → newline ∉ b → newline ∈ c →
    match_ re (rest (pre ++ [b]) ++ first c) = false ∧ match_ re (first c) = false

theorem holds_start (buf : Vector UInt8 1024) : Holds (start buf) [] :=
  ⟨rfl, rfl, List.not_mem_nil, List.not_mem_nil⟩

theorem fits_of_append (h : Fits k (pre ++ chunks)) : Fits k pre := by
  induction pre generalizing k with
  | nil => trivial
  | cons c pre ih => exact ⟨h.1, ih h.2⟩

theorem Input.of_prefix (h : Input chunks) (hpre : pre <+: chunks) :
    (∀ c ∈ pre, c ≠ []) ∧ 0 ∉ pre.flatten := by
  obtain ⟨post, rfl⟩ := hpre
  have hzero := h.noNul
  rw [List.flatten_append, List.mem_append, not_or] at hzero
  exact ⟨fun c hc => h.ne_nil c (List.mem_append_left _ hc), hzero.1⟩

/-- What `grep` does with the first chunks. -/
theorem grep_prefix (h : Input chunks) (hread : Readable chunks) (hpre : pre <+: chunks)
    (re : List UInt8) (buf : Vector UInt8 1024) :
    ∃ s, grep re (start buf) pre = some s ∧ s.out = written re [] pre ∧ Holds s (held [] pre) := by
  obtain ⟨hne, hzero⟩ := h.of_prefix hpre
  obtain ⟨post, rfl⟩ := hpre
  have hspec := grep_spec re (holds_start buf) (Nat.zero_le _) h.ne_nil h.noNul
  have hfits := hspec.1.mp (hread re buf)
  obtain ⟨hiff, hspec⟩ := grep_spec re (holds_start buf) (Nat.zero_le _) hne hzero
  obtain ⟨s, hs⟩ := Option.isSome_iff_exists.mp (hiff.mpr (fits_of_append hfits))
  obtain ⟨hout, hholds⟩ := hspec s hs
  exact ⟨s, hs, hout, hholds⟩

theorem filtered_iff (h : Input chunks) (hread : Readable chunks) (hpre : pre <+: chunks)
    (re : List UInt8) (buf : Vector UInt8 1024) :
    Filtered re buf pre ↔ written re [] pre = matching re pre.flatten := by
  obtain ⟨s, hs, hout, -⟩ := grep_prefix h hread hpre re buf
  rw [Filtered, hs, Option.map_some, hout, Option.some_inj]

theorem notMem_rest (pre : List (List UInt8)) : newline ∉ rest pre :=
  (cut_snd_suffix newline pre.flatten).2

theorem rest_concat (pre : List (List UInt8)) (b : List UInt8) :
    rest (pre ++ [b]) = if newline ∈ b then (cut newline b).2 else rest pre ++ b := by
  rw [rest, List.flatten_append, List.flatten_singleton]
  split
  · next hb => exact cut_snd_append hb _
  · next hb =>
    have hnotMem : newline ∉ rest pre ++ b := by
      rw [List.mem_append, not_or]
      exact ⟨notMem_rest pre, hb⟩
    have hcut := (cut_rest_append newline pre.flatten b).2
    rw [← rest, cut_of_notMem hnotMem] at hcut
    exact hcut

/-- What is in the buffer is all there is of a line, unless the last chunk has no newline. -/
theorem held_eq_rest (hne : ∀ c ∈ pre, c ≠ []) :
    held [] pre = rest pre ↔ ∀ pre' b, pre = pre' ++ [b] → newline ∈ b := by
  rcases List.eq_nil_or_concat' pre with rfl | ⟨pre', b, rfl⟩
  · exact iff_of_true rfl fun pre' b hnil => absurd hnil (by simp)
  · have hb : b ≠ [] := hne b (by simp)
    have hlast : (∀ pre₁ b₁, pre' ++ [b] = pre₁ ++ [b₁] → newline ∈ b₁) ↔ newline ∈ b := by
      refine ⟨fun h => h pre' b rfl, fun h pre₁ b₁ heq => ?_⟩
      obtain ⟨-, hb₁⟩ := List.append_inj' heq rfl
      cases hb₁
      exact h
    rw [hlast, held_concat, rest_concat, after]
    split
    · next hmem => exact iff_of_true rfl hmem
    · next hmem => exact iff_of_false (fun hnil => hb (List.append_eq_nil_iff.mp hnil.symm).2) hmem

/-- **A chunk after the others**: what it adds to the output is right. -/
theorem concat_iff (hne : ∀ c ∈ pre, c ≠ []) (hzero : 0 ∉ pre.flatten) :
    matching re (held [] pre ++ chunk) = matching re (rest pre ++ chunk) ↔
      ∀ pre' b, pre = pre' ++ [b] → newline ∉ b → newline ∈ chunk →
        match_ re (rest pre ++ first chunk) = false ∧ match_ re (first chunk) = false := by
  rw [matching_eq_iff (notMem_held List.not_mem_nil hzero) (notMem_rest pre), held_eq_rest hne]
  constructor
  · intro h pre' b hpre hb hmem
    obtain hall | hnone := h hmem
    · exact absurd (hall pre' b hpre) hb
    · rw [hpre, held_concat, after, if_neg hb] at hnone
      rw [hpre]
      exact hnone
  · intro h hmem
    by_cases hall : ∀ pre' b, pre = pre' ++ [b] → newline ∈ b
    · exact .inl hall
    · push Not at hall
      obtain ⟨pre', b, rfl, hb⟩ := hall
      rw [held_concat, after, if_neg hb]
      exact .inr (h pre' b rfl hb hmem)

/-- **The output is right after each read** just if no line that is cut matters. -/
theorem prefixes_iff (h : Input chunks) (hread : Readable chunks) (buf : Vector UInt8 1024) :
    (∀ pre, pre <+: chunks → Filtered re buf pre) ↔ Uncut re chunks := by
  have hsplit : (∀ pre, pre <+: chunks → Filtered re buf pre) ↔ ∀ pre c post,
      chunks = pre ++ c :: post →
      matching re (held [] pre ++ c) = matching re (rest pre ++ c) := by
    constructor
    · rintro hall pre c post rfl
      have hpre := hall pre (List.prefix_append _ _)
      have hcon := hall (pre ++ [c]) ⟨post, List.append_assoc _ _ _⟩
      rw [filtered_iff h hread (List.prefix_append _ _)] at hpre
      rw [filtered_iff h hread ⟨post, List.append_assoc _ _ _⟩, written_append, hpre,
        List.flatten_append, List.flatten_singleton, matching_append, written, written,
        List.append_nil] at hcon
      exact List.append_cancel_left hcon
    · intro hall pre hpre
      rw [filtered_iff h hread hpre]
      induction pre using List.reverseRecOn with
      | nil => rfl
      | append_singleton pre c ih =>
        obtain ⟨post, rfl⟩ := hpre
        rw [List.append_assoc] at hall ih
        rw [written_append, ih (List.prefix_append _ _), List.flatten_append,
          List.flatten_singleton, matching_append, written, written, List.append_nil,
          hall pre c post rfl]
        rfl
  rw [hsplit]
  constructor
  · intro hall pre b c post heq hb hc
    have hassoc : chunks = (pre ++ [b]) ++ c :: post := by rw [heq, List.append_assoc]; rfl
    obtain ⟨hne, hzero⟩ := h.of_prefix ⟨c :: post, hassoc.symm⟩
    exact (concat_iff hne hzero).mp (hall _ c post hassoc) pre b rfl hb hc
  · intro hall pre c post heq
    obtain ⟨hne, hzero⟩ := h.of_prefix ⟨c :: post, heq.symm⟩
    refine (concat_iff hne hzero).mpr fun pre' b hpre hb hc => ?_
    rw [hpre]
    refine hall pre' b c post ?_ hb hc
    rw [heq, hpre, List.append_assoc]
    rfl

/-- `read` is never asked for nothing. -/
theorem space_pos (h : Input chunks) (hread : Readable chunks) (hpre : pre <+: chunks)
    (hs : grep re (start buf) pre = some s) : s.m < 1023 := by
  obtain ⟨s', hs', -, hholds⟩ := grep_prefix h hread hpre re buf
  rw [hs] at hs'
  cases hs'
  have hle : (held [] pre).length ≤ (rest pre).length := by
    rcases List.eq_nil_or_concat' pre with rfl | ⟨pre', b, rfl⟩
    · exact le_rfl
    · rw [held_concat, rest_concat, after]
      split
      · exact le_rfl
      · exact Nat.zero_le _
  -- the line ends further on
  have hrest : (rest pre).length < 1023 := by
    obtain ⟨post, rfl⟩ := hpre
    have hends := h.ends
    have hshort := h.short
    obtain ⟨hlines, hend⟩ := cut_rest_append newline pre.flatten post.flatten
    rw [List.flatten_append, hend, ← rest] at hends
    rw [List.flatten_append, hlines, ← rest] at hshort
    have hnotMem := notMem_rest pre
    by_cases hmem : newline ∈ post.flatten
    · obtain ⟨l, v, hpost, hl⟩ := List.eq_append_cons_of_mem hmem
      have hline : newline ∉ rest pre ++ l := by simp [hnotMem, hl]
      rw [hpost, ← List.append_assoc, cut_line hline] at hshort
      have hlt := hshort (rest pre ++ l) (by simp)
      rw [List.length_append] at hlt
      omega
    · rw [cut_of_notMem (by simp [hnotMem, hmem])] at hends
      rw [(List.append_eq_nil_iff.mp hends).1]
      decide
  rw [hholds.length]
  omega

theorem match_nil (text : List UInt8) : match_ [] text = true := by
  rw [match_]
  cases text <;> simp [search, matchhere]

theorem length_matching_nil (t : List UInt8) : (matching [] t).length = t.count newline := by
  rw [matching, List.filter_eq_self.mpr fun l _ => match_nil l, List.length_map, length_cut_fst]

/-- When every line matches, as many lines are written as there should be. -/
theorem length_written (hk : newline ∉ k) (hzero : 0 ∉ chunks.flatten) :
    (written [] k chunks).length = chunks.flatten.count newline := by
  induction chunks generalizing k with
  | nil => rfl
  | cons c chunks ih =>
    rw [List.flatten_cons, List.mem_append, not_or] at hzero
    rw [written, List.length_append, ih (notMem_after hzero.1).1 hzero.2, List.flatten_cons,
      List.count_append, length_matching_nil, List.count_append, List.count_eq_zero_of_not_mem hk,
      Nat.zero_add]

/-- There is a newline in all chunks if there is one in the last, and in front of every other. -/
theorem forall_newline (hlast : ∀ pre b, chunks = pre ++ [b] → newline ∈ b)
    (hpair : ∀ pre b c post, chunks = pre ++ b :: c :: post → newline ∈ c → newline ∈ b) :
    ∀ c ∈ chunks, newline ∈ c := by
  induction chunks with
  | nil => exact fun c hc => absurd hc List.not_mem_nil
  | cons b chunks ih =>
    have htail := ih (fun pre c heq => hlast (b :: pre) c (by rw [heq]; rfl))
      fun pre c d post heq => hpair (b :: pre) c d post (by rw [heq]; rfl)
    have hb : newline ∈ b := by
      rcases chunks with _ | ⟨c, post⟩
      · exact hlast [] b rfl
      · exact hpair [] b c post rfl (htail c List.mem_cons_self)
    intro c hc
    rcases List.mem_cons.mp hc with rfl | hc
    · exact hb
    · exact htail c hc

/-- The text ends in a newline. -/
theorem Input.last (h : Input chunks) (pre : List (List UInt8)) (b : List UInt8)
    (heq : chunks = pre ++ [b]) : newline ∈ b := by
  have hends : rest chunks = [] := h.ends
  by_contra hb
  rw [heq, rest_concat, if_neg hb] at hends
  exact h.ne_nil b (by simp [heq]) (List.append_eq_nil_iff.mp hends).2

/-- **The output is right for every pattern** just if there is a newline in every chunk. -/
theorem filtered_all_iff (h : Input chunks) (hread : Readable chunks) (buf : Vector UInt8 1024) :
    (∀ re, Filtered re buf chunks) ↔ ∀ c ∈ chunks, newline ∈ c := by
  constructor
  · intro hall
    have huncut : Uncut [] chunks := by
      refine (prefixes_iff h hread buf).mp fun pre hpre => ?_
      have hfull := (filtered_iff h hread List.prefix_rfl [] buf).mp (hall [])
      rw [filtered_iff h hread hpre]
      obtain ⟨hne, hzero⟩ := h.of_prefix hpre
      obtain ⟨post, rfl⟩ := hpre
      rw [written_append, List.flatten_append, matching_append] at hfull
      refine (List.append_inj hfull ?_).1
      rw [length_written List.not_mem_nil hzero, length_matching_nil]
    refine forall_newline h.last fun pre b c post heq hc => ?_
    by_contra hb
    have hno := (huncut pre b c post heq hb hc).2
    rw [match_nil] at hno
    cases hno
  · intro hall re
    refine (prefixes_iff h hread buf).mpr ?_ chunks List.prefix_rfl
    rintro pre b c post rfl hb
    exact absurd (hall b (by simp)) hb

/-- **The chunks.**  `read` is never asked for nothing.  All patterns find what they should if there
is a newline in every chunk, and only then; and a given pattern does as long as it matches no line
that is cut, and not the end of one. -/
theorem grep_output (h : Input chunks) (hread : Readable chunks) (buf : Vector UInt8 1024) :
    (∀ re pre s, pre <+: chunks → grep re (start buf) pre = some s → s.m < 1023) ∧
    ((∀ re, Filtered re buf chunks) ↔ ∀ c ∈ chunks, newline ∈ c) ∧
    ∀ re, (∀ pre, pre <+: chunks → Filtered re buf pre) ↔ Uncut re chunks :=
  ⟨fun _ _ _ => space_pos h hread, filtered_all_iff h hread buf, fun _ => prefixes_iff h hread buf⟩

theorem readable_of_fits (h : Input chunks) (hfits : Fits [] chunks) : Readable chunks :=
  fun re buf => (grep_spec re (holds_start buf) (Nat.zero_le _) h.ne_nil h.noNul).1.mpr hfits

/-- A chunk that ends within a line. -/
theorem grep_output_two_chunks :
    Filtered (str "two") (Vector.replicate 1024 0) [str "one\ntw", str "o\n"] := by
  have h : Input [str "one\ntw", str "o\n"] := ⟨by decide, by decide, by decide, by decide⟩
  have hread := readable_of_fits h ⟨by decide, by decide, trivial⟩
  exact (grep_output h hread _).2.1.mpr (by decide) _

/-- A line that begins in a chunk without a newline is not found. -/
theorem not_filtered : ¬∀ re chunks buf, Input chunks → Readable chunks →
    Filtered re buf chunks := by
  intro hall
  have h : Input [str "ab", str "c\n"] := ⟨by decide, by decide, by decide, by decide⟩
  have hread := readable_of_fits h ⟨by decide, by decide, trivial⟩
  have hmatch : match_ (str "ab") (str "abc") = true := by
    change match_ [97, 98] [97, 98, 99] = true
    simp +decide [match_, search, matchhere]
  have hnot : match_ (str "ab") (str "c") = false := by
    change match_ [97, 98] [99] = false
    simp +decide [match_, search, matchhere]
  have hmatching : matching (str "ab") [str "ab", str "c\n"].flatten =
      ([str "abc"].filter fun l => match_ (str "ab") l).map fun l => l ++ [newline] := rfl
  have hwritten : written (str "ab") [] [str "ab", str "c\n"] =
      (([str "c"].filter fun l => match_ (str "ab") l).map fun l => l ++ [newline]) ++ [] := rfl
  have hout := hall (str "ab") _ (Vector.replicate 1024 0) h hread
  rw [filtered_iff h hread List.prefix_rfl, hmatching, hwritten, List.filter_singleton,
    List.filter_singleton, hmatch, hnot] at hout
  cases hout

end Grep
end Xv6
