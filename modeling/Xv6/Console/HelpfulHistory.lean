import Xv6.Console.HelpfulTyping

/-!
# The line before, in the Helpful console

As a line is committed its characters are saved in `previous_line`, the last one first, and
an up-arrow types them again, from the end of that string down to its start.  Nothing ends
the string after the characters saved, so that it goes on with what is left of a longer line
before; nothing stops the recall at the start of the array; the save goes on to the byte in
front of the line; and its indices are not taken modulo the capacity of the ring.

## Main definitions

* `Front` — the bytes in front of `input.buf` and of `previous_line`.
* `RecallsLine` — an up-arrow types the line that was typed before.
* `Reads`, `leftover`, `HistoryExact` — the condition under which it does.

## Main results

* `recallLoop_eq` — what the recall types.
* `record_eq` — what is saved of a line.
* `recallsLine_iff` — **when an up-arrow types the line that was typed before.**
-/

namespace Xv6
namespace Console
namespace Helpful

open Counter

variable {m : Memory} {g : Input} {v : Vars}

/-! ### The recall -/

/-- The bytes `fb` and `fl` stand in front of `input.buf` and of `previous_line`. -/
def Front (fb fl : UInt8) (m : Memory) : Prop :=
  ∀ g v, m.buf g v (-1) = fb ∧ m.line g v (-1) = fl

theorem lineAt_of_lt {ts : List UInt8} {b : UInt8} (h : ts ++ [b] <+: v.previousLine.toList) :
    lineAt m g v ts.length = b := by
  have hlen := h.length_le
  rw [List.length_append, List.length_singleton, Vector.length_toList] at hlen
  have hlt : ts.length < (ts ++ [b]).length := by simp
  have hget := h.getElem hlt
  rw [List.getElem_concat_length rfl, Vector.getElem_toList] at hget
  rw [lineAt, dif_pos ⟨by omega, by omega⟩, hget]
  rfl

/-- A newline or a NUL ends the walk. -/
theorem recallLoop_stop {i : ℤ} (h : lineAt m g v i = 0 ∨ lineAt m g v i = 0x0A) (n : ℕ) :
    recallLoop m v n i g = (g, []) := by
  cases n with
  | zero => rfl
  | succ n =>
    unfold recallLoop
    refine if_neg ?_
    rintro ⟨hnl, hnul, -⟩
    exact h.elim hnul hnl

/-- Another byte is typed. -/
theorem recallLoop_put {i : ℤ} {b : UInt8} (hb : lineAt m g v i = b) (hnl : b ≠ 0x0A)
    (hnul : b ≠ 0) (hroom : dist g.r g.e < 128) (n : ℕ) :
    (recallLoop m v (n + 1) i g).1 = (recallLoop m v n (i - 1) (g.put b)).1 := by
  rw [recallLoop, hb]
  dsimp only
  rw [if_pos ⟨hnl, hnul, hroom⟩]

/-- **What the recall types**: from the end of a text in `previous_line` down to its last
newline, or on from the start of the array if there is none. -/
theorem recallLoop_eq (ts : List UInt8) : ∀ (n : ℕ) {g : Input}, ts <+: v.previousLine.toList →
    0 ∉ ts → dist g.r g.e + n ≤ 128 → ts.length ≤ n →
      (recallLoop m v n ((ts.length : ℤ) - 1) g).1 =
        if 0x0A ∈ ts then typeAll g (ts.rtakeWhile (· ≠ 0x0A)).reverse
        else (recallLoop m v (n - ts.length) (-1) (typeAll g ts.reverse)).1 := by
  induction ts using List.reverseRecOn with
  | nil => intro n g _ _ _ _; rfl
  | append_singleton ts b ih =>
    intro n g hpre hnul hroom hlen
    rw [List.length_append, List.length_singleton] at hlen
    obtain ⟨n, rfl⟩ : ∃ n', n = n' + 1 := ⟨n - 1, by omega⟩
    rw [List.mem_append, List.mem_singleton, not_or] at hnul
    have hindex : (((ts ++ [b]).length : ℕ) : ℤ) - 1 = (ts.length : ℤ) := by simp
    have hbyte : lineAt m g v ts.length = b := lineAt_of_lt hpre
    rw [hindex]
    by_cases hnl : b = 0x0A
    · rw [recallLoop_stop (.inr (hbyte.trans hnl)), if_pos (by simp [hnl]),
        List.rtakeWhile_concat_neg _ _ _ (by simpa using hnl)]
      rfl
    · have hput := Input.dist_put (g := g) (c := b) (by omega)
      rw [recallLoop_put hbyte hnl (Ne.symm hnul.2) (by omega),
        ih n ((List.prefix_append ts [b]).trans hpre) hnul.1 (by omega) (by omega),
        List.rtakeWhile_concat_pos _ _ _ (by simpa using hnl)]
      simp only [List.mem_append, List.mem_singleton, Ne.symm hnl, or_false, List.reverse_append,
        List.reverse_singleton, List.singleton_append, List.length_append, List.length_singleton,
        Nat.add_sub_add_right, typeAll_cons]

/-- The text of `previous_line`, the string `t`, reads `L` backwards: up to its NUL it ends in
`L` reversed, behind a newline or at the start of the array, where the byte `fl` in front of the
array has to be a newline or NUL. -/
def Reads (fl : UInt8) (t L : List UInt8) : Prop :=
  0 ∈ t ∧ (t.takeWhile (· ≠ 0)).rtakeWhile (· ≠ 0x0A) = L.reverse ∧
    (0x0A ∈ t.takeWhile (· ≠ 0) ∨ fl = 0 ∨ fl = 0x0A)

instance (fl : UInt8) (t L : List UInt8) : Decidable (Reads fl t L) :=
  inferInstanceAs (Decidable (_ ∧ _ ∧ _))

theorem notMem_content (a : Vector UInt8 128) : 0 ∉ content a := by
  intro h
  simpa using List.mem_takeWhile_imp h

theorem length_content_lt_iff (a : Vector UInt8 128) : (content a).length < 128 ↔ 0 ∈ a.toList := by
  constructor
  · intro hlt
    by_contra hno
    have hall : content a = a.toList := by
      refine List.takeWhile_eq_self_iff.mpr fun b hb => decide_eq_true ?_
      rintro rfl
      exact hno hb
    rw [hall, Vector.length_toList] at hlt
    omega
  · intro h
    refine lt_of_le_of_ne (length_content_le a) fun hlen => notMem_content a ?_
    rw [content_eq_take, hlen, List.take_of_length_le (by simp)]
    exact h

/-- A recall into an empty ring, of a `previous_line` with a NUL in it. -/
theorem getPrevLine_eq (hnul : 0 ∈ v.previousLine.toList) (hzero : dist g.r g.e = 0) :
    (getPrevLine m g v).1 =
      if 0x0A ∈ content v.previousLine then
        typeAll g ((content v.previousLine).rtakeWhile (· ≠ 0x0A)).reverse
      else (recallLoop m v (128 - (content v.previousLine).length) (-1)
        (typeAll g (content v.previousLine).reverse)).1 := by
  have hlt := (length_content_lt_iff v.previousLine).mpr hnul
  have hlen : prevLen m g v = (content v.previousLine).length := if_pos hlt
  show (recallLoop m v (128 - dist g.r g.e) ((prevLen m g v : ℤ) - 1) g).1 = _
  rw [hlen, hzero]
  exact recallLoop_eq (content v.previousLine) _ (List.takeWhile_prefix _) (notMem_content _)
    (by omega) (by omega)

/-- The walk ends where the byte in front of the array is a newline or NUL. -/
theorem recallLoop_front {fb fl : UInt8} (hm : Front fb fl m) (hfl : fl = 0 ∨ fl = 0x0A) (n : ℕ) :
    (recallLoop m v n (-1) g).1 = g := by
  have hline : lineAt m g v (-1) = fl := by
    rw [lineAt, dif_neg (by omega)]
    exact (hm g v).2
  rw [recallLoop_stop (by rwa [hline])]

/-- **A recall of what reads `L` backwards** types `L`. -/
theorem getPrevLine_of_reads {fb fl : UInt8} {L : List UInt8} (hm : Front fb fl m)
    (hzero : dist g.r g.e = 0) (h : Reads fl v.previousLine.toList L) :
    (getPrevLine m g v).1 = typeAll g L := by
  obtain ⟨hnul, hL, hstop⟩ := h
  rw [getPrevLine_eq hnul hzero]
  split
  · next hnl =>
    rw [content, hL, List.reverse_reverse]
  · next hnl =>
    have hall : (content v.previousLine).rtakeWhile (· ≠ 0x0A) = content v.previousLine := by
      refine List.rtakeWhile_eq_self_iff.mpr fun b hb => decide_eq_true ?_
      rintro rfl
      exact hnl hb
    rw [recallLoop_front hm (hstop.resolve_left hnl), ← hall, content, hL, List.reverse_reverse]

/-- A memory with the given bytes in front of the arrays, NULs around `input.buf`, newlines
behind `previous_line` and letters before it. -/
def bare (fb fl : UInt8) : Memory where
  buf _ _ i := if i = -1 then fb else 0
  line _ _ i := if i = -1 then fl else if i < 0 then 0x78 else 0x0A
  overrun _ _ := 1
  cipher _ _ _ := 0

theorem front_bare (fb fl : UInt8) : Front fb fl (bare fb fl) := fun _ _ => ⟨rfl, rfl⟩

/-- Where nothing stops the walk in front of the array, it fills the ring. -/
theorem not_stops_bare {fb fl : UInt8} (hfl : ¬ (fl = 0 ∨ fl = 0x0A)) :
    ∀ (n : ℕ) (i : ℤ) (g : Input), i < 0 → ¬ Stops (bare fb fl) v n i g := by
  intro n
  induction n with
  | zero => intro i g _; exact id
  | succ n ih =>
    intro i g hi
    have hline : lineAt (bare fb fl) g v i = if i = -1 then fl else 0x78 := by
      rw [lineAt, dif_neg (by omega)]
      show (if i = -1 then fl else if i < 0 then 0x78 else 0x0A) = _
      rw [if_pos hi]
    unfold Stops
    rintro (hstop | hstop)
    · rw [hline] at hstop
      split at hstop
      · exact hfl hstop.symm
      · revert hstop
        decide
    · exact ih (i - 1) _ (by omega) hstop

/-- **A recall that types `L` in such a memory** recalls what reads `L` backwards. -/
theorem reads_of_getPrevLine {fb fl : UInt8} {L : List UInt8} (h : g.Bounds) (hzero : g.r = g.e)
    (hne : L ≠ []) (hlen : L.length < 128) (hL : (getPrevLine (bare fb fl) g v).1.line = L) :
    Reads fl v.previousLine.toList L := by
  have hdist : dist g.r g.e = 0 := dist_eq_zero.mpr hzero
  have hline : g.line = [] := Input.line_eq_nil.mpr (by
    have hle := h.w_le
    rw [hdist, Nat.le_zero, dist_eq_zero] at hle
    rw [← hle, hzero])
  by_cases hnul : 0 ∈ v.previousLine.toList
  · rw [getPrevLine_eq hnul hdist] at hL
    have hlt := (length_content_lt_iff v.previousLine).mpr hnul
    by_cases hnl : 0x0A ∈ content v.previousLine
    · have hsuffix := List.rtakeWhile_suffix (· ≠ (0x0A : UInt8)) (content v.previousLine)
      have hroom := hsuffix.length_le
      rw [if_pos hnl, line_typeAll _ h (by rw [List.length_reverse]; omega), hline,
        List.nil_append] at hL
      exact ⟨hnul, by rw [← hL, List.reverse_reverse]; rfl, .inl hnl⟩
    · rw [if_neg hnl] at hL
      by_cases hfl : fl = 0 ∨ fl = 0x0A
      · rw [recallLoop_front (front_bare fb fl) hfl, line_typeAll _ h (by simp; omega), hline,
          List.nil_append] at hL
        refine ⟨hnul, ?_, .inr hfl⟩
        rw [← hL, List.reverse_reverse]
        refine List.rtakeWhile_eq_self_iff.mpr fun b hb => decide_eq_true ?_
        rintro rfl
        exact hnl hb
      · -- the walk goes on until the ring is full, which is longer than `L`
        exfalso
        obtain ⟨hbounds, hgrown⟩ := bounds_typeAll (content v.previousLine).reverse h
          (by simp; omega)
        obtain ⟨-, hiff⟩ := dist_recallLoop (m := bare fb fl) (v := v)
          (128 - (content v.previousLine).length) (-1)
          (g := typeAll g (content v.previousLine).reverse)
          (by rw [hgrown, List.length_reverse]; omega)
        have hfull := mt hiff.mp (not_stops_bare hfl _ _ _ (by omega))
        have hend := bounds_recallLoop (m := bare fb fl) (v := v)
          (128 - (content v.previousLine).length) (-1) hbounds
        have hgrown' := grown_recallLoop (m := bare fb fl) (v := v)
          (128 - (content v.previousLine).length) (-1)
          (typeAll g (content v.previousLine).reverse)
        have hqueue := Input.length_queue (recallLoop (bare fb fl) v
          (128 - (content v.previousLine).length) (-1)
          (typeAll g (content v.previousLine).reverse)).1
        have hrw : g.r = g.w := by rw [hzero]; exact Input.line_eq_nil.mp hline
        rw [hgrown'.r, hgrown'.w, typeAll_r, typeAll_w, hrw, dist_self] at hqueue
        have hsum := hend.length_add
        have hmax := hend.e_le
        rw [hL] at hsum
        omega
  · -- without a NUL the walk starts behind the array, and ends there
    exfalso
    have hlen128 : ¬ (content v.previousLine).length < 128 := mt (length_content_lt_iff _).mp hnul
    have hstart : prevLen (bare fb fl) g v = 129 := if_neg hlen128
    have hrecall : (getPrevLine (bare fb fl) g v).1 = g := by
      show (recallLoop (bare fb fl) v (128 - dist g.r g.e)
        ((prevLen (bare fb fl) g v : ℤ) - 1) g).1 = g
      rw [hstart, hdist]
      unfold recallLoop
      exact congrArg Prod.fst (if_neg fun hc => hc.1 rfl)
    rw [hrecall, hline] at hL
    exact hne hL.symm

/-! ### The record -/

/-- What `previous_line` holds behind the `n` characters of a line that starts where the
reader is: the byte in front of the line, unless that is a newline, and what is left of the
lines before. -/
def leftover (fb : UInt8) (g : Input) (v : Vars) (n : ℕ) : List UInt8 :=
  let b := if g.r = 0 then fb else g.get (g.r - 1)
  if b = 0x0A then v.previousLine.toList.drop n else b :: v.previousLine.toList.drop (n + 1)

/-- The bytes of the edit line by their counters. -/
theorem getElem_line {i : ℕ} (hi : i < g.line.length) :
    g.line[i] = g.get (g.w + UInt32.ofNat i) := by
  simp [Input.line, segment_eq_map]

/-- Where the counters go round past zero as the line is typed, nothing is recorded. -/
theorem record_wrapped {L : List UInt8} (he : g.r = g.e) (hlen : L.length ≤ 120)
    (hwrap : 2 ^ 32 ≤ g.r.toNat + L.length + 1) :
    record m ((typeAll g L).put 0x0A) v = some v := by
  have hlt := UInt32.toNat_lt g.r
  have hend : ((typeAll g L).put 0x0A).e.toNat = g.r.toNat + L.length + 1 - 2 ^ 32 := by
    rw [Input.put_e, typeAll_e, ← he, UInt32.toNat_add, UInt32.toNat_add, UInt32.toNat_ofNat']
    have hone : (1 : UInt32).toNat = 1 := rfl
    omega
  rw [record, hend, Input.put_r, typeAll_r]
  have hzero : g.r.toNat + L.length + 1 - 2 ^ 32 - g.r.toNat = 0 := by omega
  rw [hzero]
  rfl

/-- How far the loop that records a line may go. -/
theorem record_rounds {L : List UInt8} (he : g.r = g.e) (hlen : L.length ≤ 120)
    (hwrap : g.r.toNat + L.length + 1 < 2 ^ 32) :
    (((typeAll g L).put 0x0A).e - 1).toNat = g.r.toNat + L.length ∧
      ((typeAll g L).put 0x0A).e.toNat - ((typeAll g L).put 0x0A).r.toNat = L.length + 1 := by
  have hlt := UInt32.toNat_lt g.r
  have hone : (1 : UInt32).toNat = 1 := rfl
  have hend : (typeAll g L).e.toNat = g.r.toNat + L.length := by
    rw [typeAll_e, ← he, UInt32.toNat_add, UInt32.toNat_ofNat']
    omega
  refine ⟨?_, ?_⟩
  · rw [Input.put_e, UInt32.add_sub_cancel, hend]
  · rw [Input.put_e, Input.put_r, typeAll_r, UInt32.toNat_add, hend]
    omega

/-- The byte in front of a line that starts where the reader is. -/
def frontByte (fb : UInt8) (g : Input) : UInt8 := if g.r = 0 then fb else g.get (g.r - 1)

/-- What the loop reads of the line, which stands below position 128. -/
theorem bufAt_line {L : List UInt8} (h : g.Bounds) (hw : g.r = g.w) (he : g.r = g.e)
    (hlen : L.length ≤ 120) (hlow : g.r.toNat + L.length ≤ 128) {i : ℕ} (hi : i < L.length) :
    bufAt m ((typeAll g L).put 0x0A) v (g.r.toNat + i : ℕ) = L[i] := by
  have hzero : dist g.r g.e = 0 := dist_eq_zero.mpr he
  obtain ⟨hbounds, hdist⟩ := bounds_typeAll L h (by omega)
  have hline : ((typeAll g L).put 0x0A).line = L ++ [0x0A] := by
    rw [Input.line_put hbounds (by omega), line_typeAll L h (by omega),
      Input.line_eq_nil.mpr (he.symm.trans hw), List.nil_append]
  have hi' : i < ((typeAll g L).put 0x0A).line.length := by
    rw [hline, List.length_append]
    omega
  have hget := getElem_line hi'
  simp only [hline, Input.put_w, typeAll_w, ← hw] at hget
  rw [List.getElem_append_left hi] at hget
  rw [bufAt, if_pos ⟨by omega, by omega⟩, Int.toNat_natCast, UInt32.ofNat_add,
    UInt32.ofNat_toNat, hget]

/-- What it reads in front of the line. -/
theorem bufAt_front {fb fl : UInt8} {L : List UInt8} (hm : Front fb fl m) (he : g.r = g.e)
    (hlen : L.length ≤ 120) (hlow : g.r.toNat + L.length ≤ 128) :
    bufAt m ((typeAll g L).put 0x0A) v ((g.r.toNat : ℤ) - 1) = frontByte fb g := by
  unfold frontByte
  by_cases hr : g.r = 0
  · have hindex : (g.r.toNat : ℤ) - 1 = -1 := by
      rw [hr]
      rfl
    rw [if_pos hr, hindex, bufAt, if_neg (by omega)]
    exact (hm _ v).1
  · have hpos : 0 < g.r.toNat := by
      rw [Nat.pos_iff_ne_zero]
      exact fun hz => hr (UInt32.toNat_inj.mp hz)
    have hlt := UInt32.toNat_lt g.r
    have hpred : (g.r - 1).toNat = g.r.toNat - 1 :=
      UInt32.toNat_sub_of_le _ _ (UInt32.le_iff_toNat_le.mpr (by simp; omega))
    have hindex : UInt32.ofNat ((g.r.toNat : ℤ) - 1).toNat = g.r - 1 := by
      rw [← UInt32.toNat_inj, UInt32.toNat_ofNat', hpred]
      omega
    -- the line has not come round to it
    have hfront : dist (g.r - 1) g.e = 1 := by
      rw [← he, dist_eq, hpred]
      omega
    have hfront' : dist (g.r - 1) (typeAll g L).e = 1 + L.length := by
      rw [typeAll_e, ← he, dist_eq, hpred, UInt32.toNat_add, UInt32.toNat_ofNat']
      omega
    rw [if_neg hr, bufAt, if_pos (by omega), hindex,
      Input.get_put_of_lt (by omega) (by omega), get_typeAll L (by omega) (by omega)]

/-- The record of a line, laid over what was in `previous_line`. -/
theorem overlay_line {fb : UInt8} {L : List UInt8} (hL : 0x0A ∉ L) :
    overlay v.previousLine 0 ((L.reverse ++ [frontByte fb g]).takeWhile (· ≠ 0x0A)) =
      L.reverse ++ leftover fb g v L.length := by
  have hall : ∀ c ∈ L.reverse, decide (c ≠ 0x0A) = true := by
    intro c hc
    refine decide_eq_true ?_
    rintro rfl
    exact hL (List.mem_reverse.mp hc)
  rw [overlay, List.take_zero, List.nil_append, Nat.zero_add,
    List.takeWhile_append_of_pos hall, List.append_assoc, leftover]
  change _ = L.reverse ++ if frontByte fb g = 0x0A then _ else frontByte fb g :: _
  by_cases hb : frontByte fb g = 0x0A
  · rw [if_pos hb, List.takeWhile_cons_of_neg (by simpa using hb), List.append_nil,
      List.length_reverse, List.nil_append]
  · rw [if_neg hb, List.takeWhile_cons_of_pos (by simpa using hb), List.takeWhile_nil,
      List.length_append, List.length_reverse, List.length_singleton, List.singleton_append]

/-- **What is recorded of a line** that stands below position 128. -/
theorem record_eq {fb fl : UInt8} {L : List UInt8} (hm : Front fb fl m) (h : g.Bounds)
    (hw : g.r = g.w) (he : g.r = g.e) (hL : 0x0A ∉ L) (hlen : L.length ≤ 120)
    (hlow : g.r.toNat + L.length ≤ 128) :
    ∃ a, record m ((typeAll g L).put 0x0A) v = some { v with previousLine := a } ∧
      a.toList = L.reverse ++ leftover fb g v L.length := by
  obtain ⟨hlast, hrounds⟩ := record_rounds (L := L) he hlen (by omega)
  -- the bytes the loop reads: those of the line, and the one in front of it
  obtain ⟨a, ha, hlist⟩ := recordLoop_eq (m := m) (g := (typeAll g L).put 0x0A)
    (L.reverse ++ [frontByte fb g]) 0 v (by simp; omega) (by
      intro v k hk
      rw [List.length_append, List.length_reverse, List.length_singleton] at hk
      rw [toInt_toInt32, if_pos (by omega), hlast, Nat.zero_add]
      rcases Nat.lt_or_ge k L.length with hin | hout
      · have hindex : ((g.r.toNat + L.length : ℕ) : ℤ) - k - 1 =
            (g.r.toNat + (L.length - 1 - k) : ℕ) := by omega
        rw [hindex, bufAt_line h hw he hlen hlow (by omega),
          List.getElem_append_left (by simpa using hin), List.getElem_reverse]
      · have hindex : ((g.r.toNat + L.length : ℕ) : ℤ) - k - 1 = (g.r.toNat : ℤ) - 1 := by omega
        rw [hindex, bufAt_front hm he hlen hlow, List.getElem_append_right (by simpa using hout),
          List.getElem_singleton])
  refine ⟨a, ?_, hlist.trans (overlay_line hL)⟩
  rw [record, hrounds]
  simpa using ha

/-- Where the line goes past position 127, the record starts with a byte from outside the
array, which may be NUL. -/
theorem record_outside {fb fl : UInt8} {L : List UInt8} (he : g.r = g.e) (hne : L ≠ [])
    (hlen : L.length ≤ 120) (hwrap : g.r.toNat + L.length + 1 < 2 ^ 32)
    (hhigh : 128 < g.r.toNat + L.length) :
    ∃ a, record (bare fb fl) ((typeAll g L).put 0x0A) v = some { v with previousLine := a } ∧
      a.toList.takeWhile (· ≠ 0) = [] := by
  have hpos := List.length_pos_iff.mpr hne
  obtain ⟨hlast, hrounds⟩ := record_rounds (L := L) he hlen hwrap
  obtain ⟨a, ha, hlist⟩ := recordLoop_eq (m := bare fb fl) (g := (typeAll g L).put 0x0A)
    ((List.range (L.length + 1)).map fun k : ℕ => bufAt (bare fb fl) ((typeAll g L).put 0x0A) v
      ((((typeAll g L).put 0x0A).e - 1).toInt32.toInt - (0 + k : ℕ) - 1)) 0 v (by simp; omega)
    (by
      intro v' k hk
      simp only [List.getElem_map, List.getElem_range]
      rfl)
  refine ⟨a, ?_, ?_⟩
  · rw [record, hrounds]
    simpa using ha
  · -- the first byte is in front of the array or behind it
    have hfirst : bufAt (bare fb fl) ((typeAll g L).put 0x0A) v
        ((((typeAll g L).put 0x0A).e - 1).toInt32.toInt - (0 + 0 : ℕ) - 1) = 0 := by
      rw [toInt_toInt32, hlast, bufAt]
      split
      · rw [if_neg (by omega)]
        exact if_neg (by omega)
      · rw [if_neg (by omega)]
        exact if_neg (by omega)
    rw [hlist, overlay, List.range_succ_eq_map, List.map_cons, hfirst,
      List.takeWhile_cons_of_pos (by decide), List.take_zero, List.nil_append, List.cons_append,
      List.takeWhile_cons_of_neg (by decide)]

/-! ### The line before -/

/-- **An up-arrow types the line that was typed before**, from this state on: whenever `L` and a
newline are typed, and readers have taken what there is, an up-arrow leaves `L` as the edit
line.  The bytes in front of the arrays are given, what else lies around them may be
anything. -/
def RecallsLine (fb fl : UInt8) (s : Sys Vars) (L : List UInt8) : Prop :=
  ∀ m, Front fb fl m → ∀ events nl r, crToNl nl = 0x0A →
    events.flatMap Event.codes = L.map UInt8.toNat ++ [nl] →
      Machine.run (Sys.step (consoleintr m)) s events = some r →
        r.1.input.r = r.1.input.w →
          ∃ q, consoleintr m r.1.input r.1.dev [226] = some q ∧ q.1.line = L

/-- **The condition.**  Either the line stands below position 128 and what is left behind it in
`previous_line` adds nothing; or the counters go round past zero as it is typed, and it is the
line that was recalled before. -/
def HistoryExact (fb fl : UInt8) (s : Sys Vars) (L : List UInt8) : Prop :=
  if s.input.r.toNat + L.length + 1 < 2 ^ 32 then
    s.input.r.toNat + L.length ≤ 128 ∧
      Reads fl (L.reverse ++ leftover fb s.input s.dev L.length) L
  else Reads fl s.dev.previousLine.toList L

instance (fb fl : UInt8) (s : Sys Vars) (L : List UInt8) : Decidable (HistoryExact fb fl s L) :=
  inferInstanceAs (Decidable (ite _ _ _))

theorem consoleintr_up (m : Memory) (g : Input) (v : Vars) :
    consoleintr m g v [226] = some (getPrevLine m g v) := by
  simp [consoleintr, Machine.run, code, Flags.note, deferred]

/-- The state in which the up-arrow comes. -/
theorem up_line {s : Sys Vars} {r : Sys Vars × List Answer} {events : List Event} {nl : ℕ}
    {L : List UInt8} (hw : s.input.r = s.input.w) (he : s.input.r = s.input.e)
    (hL : ∀ c ∈ L, Plain c) (hlen : L.length ≤ 120) (hnl : crToNl nl = 0x0A)
    (hcodes : events.flatMap Event.codes = L.map UInt8.toNat ++ [nl])
    (hr : Machine.run (Sys.step (consoleintr m)) s events = some r)
    (hread : r.1.input.r = r.1.input.w) :
    record m ((typeAll s.input L).put 0x0A) s.dev = some r.1.dev ∧ r.1.input.Bounds ∧
      r.1.input.r = r.1.input.e := by
  have hzero : dist s.input.r s.input.e = 0 := dist_eq_zero.mpr he
  have hzero' : dist s.input.r s.input.w = 0 := dist_eq_zero.mpr hw
  obtain ⟨hrecord, x, hx⟩ := type_run events L hL hnl ⟨by omega, by omega⟩ hw (by omega) hcodes hr
  have hend : r.1.input.r = r.1.input.e := by
    rw [hread, hx]
    rfl
  have hdist : dist r.1.input.r r.1.input.e = 0 := dist_eq_zero.mpr hend
  have hdist' : dist r.1.input.r r.1.input.w = 0 := dist_eq_zero.mpr hread
  exact ⟨hrecord, ⟨by omega, by omega⟩, hend⟩

/-- **When an up-arrow types the line that was typed before**: for every state with an empty edit
line and everything read, and every line of at most 120 plain characters. -/
theorem recallsLine_iff (fb fl : UInt8) (s : Sys Vars) (L : List UInt8)
    (hw : s.input.r = s.input.w) (he : s.input.e = s.input.w) (hne : L ≠ [])
    (hlen : L.length ≤ 120) (hL : ∀ c ∈ L, Plain c) :
    RecallsLine fb fl s L ↔ HistoryExact fb fl s L := by
  have he : s.input.r = s.input.e := hw.trans he.symm
  have hzero : dist s.input.r s.input.e = 0 := dist_eq_zero.mpr he
  have hzero' : dist s.input.r s.input.w = 0 := dist_eq_zero.mpr hw
  have hbounds : s.input.Bounds := ⟨by omega, by omega⟩
  have hnl : 0x0A ∉ L := fun hmem => hL 0x0A hmem (by decide)
  -- what is recorded, and that an up-arrow types it just if it reads the line backwards
  have hforth : ∀ m v, Front fb fl m →
      record m ((typeAll s.input L).put 0x0A) s.dev = some v → Reads fl v.previousLine.toList L →
        ∀ events nl r, crToNl nl = 0x0A →
          events.flatMap Event.codes = L.map UInt8.toNat ++ [nl] →
            Machine.run (Sys.step (consoleintr m)) s events = some r →
              r.1.input.r = r.1.input.w →
                ∃ q, consoleintr m r.1.input r.1.dev [226] = some q ∧ q.1.line = L := by
    intro m v hm hv hreads events nl r hnl hcodes hr hread
    obtain ⟨hrecord, hb, hend⟩ := up_line hw he hL hlen hnl hcodes hr hread
    rw [hv, Option.some.injEq] at hrecord
    have hdist : dist r.1.input.r r.1.input.e = 0 := dist_eq_zero.mpr hend
    refine ⟨_, consoleintr_up m _ _, ?_⟩
    rw [← hrecord, getPrevLine_of_reads hm hdist hreads, line_typeAll L hb (by omega),
      Input.line_eq_nil.mpr (hend.symm.trans hread), List.nil_append]
  have hback : ∀ v, record (bare fb fl) ((typeAll s.input L).put 0x0A) s.dev = some v →
      RecallsLine fb fl s L → Reads fl v.previousLine.toList L := by
    intro v hv h
    obtain ⟨events, r, hcodes, hr, hread⟩ := exists_type_run hL hbounds hw he (by omega) hv
    obtain ⟨hrecord, hb, hend⟩ := up_line hw he hL hlen rfl hcodes hr hread
    obtain ⟨q, hq, hline⟩ := h _ (front_bare fb fl) events 0x0A r rfl hcodes hr hread
    rw [hv, Option.some.injEq] at hrecord
    rw [consoleintr_up, Option.some.injEq] at hq
    rw [← hq, ← hrecord] at hline
    exact reads_of_getPrevLine hb hend hne (by omega) hline
  unfold HistoryExact
  split
  · next hwrap =>
    constructor
    · intro h
      by_cases hlow : s.input.r.toNat + L.length ≤ 128
      · obtain ⟨a, ha, hlist⟩ := record_eq (v := s.dev) (front_bare fb fl) hbounds hw he hnl hlen
          hlow
        have hreads := hback _ ha h
        rw [hlist] at hreads
        exact ⟨hlow, hreads⟩
      · obtain ⟨a, ha, hlist⟩ : ∃ a, record (bare fb fl) ((typeAll s.input L).put 0x0A) s.dev =
            some { s.dev with previousLine := a } ∧ a.toList.takeWhile (· ≠ 0) = [] :=
          record_outside he hne hlen hwrap (by omega)
        have hreads := hback _ ha h
        have hnil := hreads.2.1
        rw [hlist, List.rtakeWhile_nil] at hnil
        exact absurd (List.reverse_eq_nil_iff.mp hnil.symm) hne
    · rintro ⟨hlow, hreads⟩ m hm
      obtain ⟨a, ha, hlist⟩ := record_eq (v := s.dev) hm hbounds hw he hnl hlen hlow
      exact hforth m _ hm ha (by rw [hlist]; exact hreads)
  · next hwrap =>
    constructor
    · exact hback _ (record_wrapped he hlen (by omega))
    · intro hreads m hm
      exact hforth m _ hm (record_wrapped he hlen (by omega)) hreads

/-- The rule for `ls`, the first line after boot. -/
theorem recallsLine_ls : RecallsLine 0 0 (Sys.boot Vars.boot) (str "ls") :=
  (recallsLine_iff 0 0 (Sys.boot Vars.boot) (str "ls") rfl rfl (by decide) (by decide)
    (by decide +kernel)).mpr (by decide +kernel)

/-- After the line `abcdef`, the line `xy` is recalled as `abcdxy`. -/
theorem not_recallsLine_abcdef : ∃ s os,
    Machine.run (Sys.step (consoleintr Memory.zero)) (Sys.boot Vars.boot)
      [.intr [0x61, 0x62, 0x63, 0x64, 0x65, 0x66, 0x0A], .call 0 7, .pass 0 false] =
        some (s, os) ∧
    s.input.r = s.input.w ∧ s.input.e = s.input.w ∧ ¬ RecallsLine 0 0 s (str "xy") := by
  have hrun : ((Machine.run (Sys.step (consoleintr Memory.zero)) (Sys.boot Vars.boot)
      [.intr [0x61, 0x62, 0x63, 0x64, 0x65, 0x66, 0x0A], .call 0 7, .pass 0 false]).bind fun p =>
        (Machine.run (Sys.step (consoleintr Memory.zero)) p.1
          [.intr [0x78, 0x79, 0x0A], .call 0 3, .pass 0 false]).bind fun r =>
            (consoleintr Memory.zero r.1.input r.1.dev [226]).map fun q =>
              (decide (p.1.input.r = p.1.input.w ∧ p.1.input.e = p.1.input.w),
                decide (r.1.input.r = r.1.input.w), q.1.line)) =
      some (true, true, str "abcdxy") := by
    decide +kernel
  obtain ⟨p, hp, hrest⟩ := Option.bind_eq_some_iff.mp hrun
  obtain ⟨r, hr, hlast⟩ := Option.bind_eq_some_iff.mp hrest
  obtain ⟨q, hq, hvalues⟩ := Option.map_eq_some_iff.mp hlast
  simp only [Prod.mk.injEq, decide_eq_true_eq] at hvalues
  obtain ⟨⟨hw, he⟩, hread, hline⟩ := hvalues
  refine ⟨p.1, p.2, hp, hw, he, fun h => ?_⟩
  obtain ⟨q', hq', hline'⟩ := h Memory.zero (fun _ _ => ⟨rfl, rfl⟩) _ 0x0A r rfl
    (by decide) hr hread
  rw [hq, Option.some.injEq] at hq'
  rw [← hq', hline] at hline'
  exact absurd hline' (by decide)

end Helpful
end Console
end Xv6
