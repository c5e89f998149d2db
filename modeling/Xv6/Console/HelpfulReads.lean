import Xv6.Console.HelpfulRun

/-!
# What the Helpful console reads of its ring

Two loops of the Helpful console read `input.buf` without taking their index modulo its
length: the one that saves a line that is about to be committed, and the scan of `auto_complete`
for the word before the cursor.  The first also looks at the byte in front of the unread text,
unless a newline stops it before.

## Main definitions

* `Captures` — a code ends a line, which is saved.
* `recordReads`, `wordReads` — the indices the two loops read.
* `InRing` — an index is in the array, and a position of the unread text.

## Main results

* `recordLoop_congr`, `wordLoop_congr` — nothing else of the memory matters to the loops.
* `recordReads_inRing_iff`, `wordReads_inRing_iff` — when the indices of one loop are in range.
* `readsInRing_iff` — **the runs along which all of them are.**
-/

namespace Xv6
namespace Console
namespace Helpful

open Counter

variable {m m' : Memory} {g : Input} {v : Vars}

/-! ### Codes that end a line -/

/-- The code ends a line, by a newline, a `^D` or the last of the room. -/
def Captures (s : State) (c : ℕ) : Prop :=
  ¬ (Deferred c ∨ c = 0x10) ∧ c ∉ editCodes ∧ c ≠ 0 ∧
    dist s.input.r s.input.e < 128 ∧ Commits (dist s.input.r s.input.e) c

instance (s : State) (c : ℕ) : Decidable (Captures s c) := inferInstanceAs (Decidable (_ ∧ _))

/-- What the default case does. -/
theorem typed_eq (m : Memory) (g : Input) (v : Vars) (c : ℕ) :
    typed m g v c =
      if c ≠ 0 ∧ dist g.r g.e < 128 then
        if Commits (dist g.r g.e) c then
          (record m (g.put (byteOf c)) v).map fun v' =>
            ((g.put (byteOf c)).commit, v', [.putc (crToNl c)])
        else some (g.put (byteOf c), v, [.putc (crToNl c)])
      else some (g, v, []) := by
  unfold typed
  split
  · next hc =>
    have hfull : (g.put (byteOf c)).e = (g.put (byteOf c)).r + 128 ↔ dist g.r g.e + 1 = 128 := by
      rw [e_eq_iff_full, Input.dist_put hc.2]
    have hiff : (crToNl c = 0x0A ∨ crToNl c = 0x04 ∨
        (g.put (byteOf c)).e = (g.put (byteOf c)).r + 128) ↔ Commits (dist g.r g.e) c := by
      rw [hfull]
      exact Iff.rfl
    exact if_congr hiff rfl rfl
  · rfl

/-- The codes of the default case. -/
theorem edit_typed {c : ℕ} (hc : c ∉ editCodes) :
    edit m g v c = typed m g v c := by
  simp only [editCodes, List.mem_cons, List.not_mem_nil, or_false, not_or] at hc
  unfold edit
  rw [if_neg (by omega), if_neg (by omega), if_neg (by omega), if_neg (by omega)]

/-- **A code that ends a line saves it**, with its last character in the ring. -/
theorem code_captures {s : State} {c : ℕ} (h : Captures s c) :
    code m s c = (record m (s.input.put (byteOf c)) s.vars).map fun v =>
      ({ s with input := (s.input.put (byteOf c)).commit, vars := v }, [.putc (crToNl c)]) := by
  obtain ⟨hedit, hdefault, hc, hroom, hcommit⟩ := h
  rw [not_or] at hedit
  rw [code_edit hedit.1 hedit.2, edit_typed hdefault, typed_eq, if_pos ⟨hc, hroom⟩,
    if_pos hcommit, Option.map_map]
  rfl

/-- No other code reads the ring without the remainder. -/
theorem code_of_not_captures {s : State} {c : ℕ} (h : ¬ Captures s c) (m m' : Memory) :
    code m s c = code m' s c := by
  by_cases hedit : Deferred c ∨ c = 0x10
  · have hnote : 1000 ≤ c ∧ c < 2500 ∨ (s.flags.note c).isSome := by
      by_cases hrange : 1000 ≤ c ∧ c < 2500
      · exact .inl hrange
      · exact .inr ((Flags.note_isSome_iff hrange).mpr hedit)
    unfold code
    split
    · rfl
    · split
      · rfl
      · next hno hno' =>
        obtain ⟨f, hf⟩ := Option.isSome_iff_exists.mp (hnote.resolve_left (by omega))
        rw [hf]
  · rw [not_or] at hedit
    rw [code_edit hedit.1 hedit.2, code_edit hedit.1 hedit.2]
    refine congrArg (Option.map _) ?_
    by_cases hdefault : c ∈ editCodes
    · simp only [editCodes, List.mem_cons, List.not_mem_nil, or_false] at hdefault
      rcases hdefault with rfl | rfl | rfl | rfl | rfl | rfl <;> rfl
    · rw [edit_typed hdefault, edit_typed hdefault, typed_eq, typed_eq]
      split
      · next hc =>
        have hno : ¬ Commits (dist s.input.r s.input.e) c := fun hcommit =>
          h ⟨not_or.mpr hedit, hdefault, hc.1, hc.2, hcommit⟩
        rw [if_neg hno, if_neg hno]
      · rfl

/-! ### The indices read -/

/-- The indices of `input.buf` that `recordLoop` reads. -/
def recordReads (m : Memory) (g : Input) : ℕ → ℕ → Vars → List ℤ
  | 0, _, _ => []
  | n + 1, q, v =>
      let i := (g.e - 1).toInt32.toInt - q - 1
      i :: if bufAt m g v i ≠ 0x0A then
        if h : q < 128 then
          recordReads m g n (q + 1) { v with previousLine := v.previousLine.set q (bufAt m g v i) }
        else []
      else []

/-- The indices of `input.buf` that `wordLoop` reads. -/
def wordReads (m : Memory) (g : Input) (v : Vars) : ℕ → ℕ → List ℤ
  | 0, _ => []
  | n + 1, q =>
      let i := (g.e.toNat : ℤ) - q - 1
      i :: if bufAt m g v i ≠ 0x20 then if q < 128 then wordReads m g v n (q + 1) else [] else []

/-- **The index is in the array, and a position of the unread text.** -/
def InRing (g : Input) (i : ℤ) : Prop :=
  0 ≤ i ∧ i < 128 ∧ dist g.r (UInt32.ofNat i.toNat) < dist g.r g.e

instance (g : Input) (i : ℤ) : Decidable (InRing g i) := inferInstanceAs (Decidable (_ ∧ _))

theorem bufAt_of_inRing {i : ℤ} (h : InRing g i) (m : Memory) (v : Vars) :
    bufAt m g v i = g.get (UInt32.ofNat i.toNat) := if_pos ⟨h.1, h.2.1⟩

/-- **What is around the ring matters to the loop that saves a line only where it reads there.** -/
theorem recordLoop_congr : ∀ (n q : ℕ) (v : Vars), (∀ i ∈ recordReads m g n q v, InRing g i) →
    recordLoop m g n q v = recordLoop m' g n q v := by
  intro n
  induction n with
  | zero => intro q v _; rfl
  | succ n ih =>
    intro q v h
    unfold recordReads at h
    rw [List.forall_mem_cons] at h
    obtain ⟨hi, hrest⟩ := h
    unfold recordLoop
    dsimp only
    have hsame : bufAt m g v ((g.e - 1).toInt32.toInt - q - 1) =
        bufAt m' g v ((g.e - 1).toInt32.toInt - q - 1) := by
      rw [bufAt_of_inRing hi, bufAt_of_inRing hi]
    rw [← hsame]
    split
    · next hb =>
      rw [if_pos hb] at hrest
      split
      · next hq =>
        rw [dif_pos hq] at hrest
        exact ih _ _ hrest
      · rfl
    · rfl

/-- **The same of the scan for a word.** -/
theorem wordLoop_congr : ∀ (n q : ℕ), (∀ i ∈ wordReads m g v n q, InRing g i) →
    wordLoop m g v n q = wordLoop m' g v n q := by
  intro n
  induction n with
  | zero => intro q _; rfl
  | succ n ih =>
    intro q h
    unfold wordReads at h
    rw [List.forall_mem_cons] at h
    obtain ⟨hi, hrest⟩ := h
    unfold wordLoop
    dsimp only
    have hsame : bufAt m g v ((g.e.toNat : ℤ) - q - 1) = bufAt m' g v (g.e.toNat - q - 1) := by
      rw [bufAt_of_inRing hi, bufAt_of_inRing hi]
    rw [← hsame]
    split
    · next hb =>
      rw [if_pos hb] at hrest
      split
      · next hq =>
        rw [if_pos hq] at hrest
        rw [ih _ hrest]
      · rfl
    · rfl

/-! ### Saving a line -/

/-- Without a wrap the distance is the difference. -/
theorem dist_of_le_toNat {a b : UInt32} (h : a.toNat ≤ b.toNat) :
    Counter.dist a b = b.toNat - a.toNat := by
  rw [dist_eq]
  have ha := UInt32.toNat_lt a
  have hb := UInt32.toNat_lt b
  omega

/-- A position of the unread text, by its number. -/
theorem inRing_add {n : ℕ} (hpos : g.r.toNat + n < 128) (hn : n < dist g.r g.e) :
    InRing g (g.r.toNat + n : ℕ) := by
  refine ⟨Int.natCast_nonneg _, by omega, ?_⟩
  rw [Int.toNat_natCast, UInt32.ofNat_add, UInt32.ofNat_toNat, dist_add_ofNat _ (by omega)]
  exact hn

/-- The byte in front of the unread text is no position of it. -/
theorem not_inRing_pred (h : g.Bounds) : ¬ InRing g ((g.r.toNat : ℤ) - 1) := by
  rintro ⟨hpos, hlt, hdist⟩
  have hmax := h.e_le
  have hnum : ((g.r.toNat : ℤ) - 1).toNat = g.r.toNat - 1 := by omega
  rw [hnum, dist_eq, UInt32.toNat_ofNat', Nat.mod_eq_of_lt (by omega)] at hdist
  omega

/-- With the ring in the first 128 positions, the loop stays in the unread text if there is a
newline in what it has before it, and else reads the byte in front. -/
theorem recordReads_low {b : UInt8} (h : g.Bounds) (hroom : dist g.r g.e < 128)
    (hle : g.r.toNat ≤ g.e.toNat) (he : g.e.toNat ≤ 128) : ∀ (n q : ℕ) (v : Vars),
      q + n = dist g.r g.e →
        ((∀ i ∈ recordReads m (g.put b) (n + 1) q v, InRing (g.put b) i) ↔
          0x0A ∈ segment g.get g.r n) := by
  have hdist := dist_of_le_toNat hle
  have hput := Input.dist_put (c := b) hroom
  have hnext : (g.e + 1).toNat = g.e.toNat + 1 := by
    rw [UInt32.toNat_add]
    exact Nat.mod_eq_of_lt (by have : (1 : UInt32).toNat = 1 := rfl; omega)
  have hlast : ((g.put b).e - 1).toInt32.toInt = g.e.toNat := by
    rw [Input.put_e, UInt32.add_sub_cancel, toInt_toInt32, if_pos (by omega)]
  intro n
  induction n with
  | zero =>
    intro q v hq
    -- no newline stopped the loop in the unread text
    refine iff_of_false (fun hall => ?_) List.not_mem_nil
    have hfront : ((g.put b).e - 1).toInt32.toInt - q - 1 = ((g.put b).r.toNat : ℤ) - 1 := by
      rw [hlast, Input.put_r]
      omega
    unfold recordReads at hall
    rw [List.forall_mem_cons, hfront] at hall
    exact not_inRing_pred (h.put hroom b) hall.1
  | succ n ih =>
    intro q v hq
    have hpos : ((g.put b).e - 1).toInt32.toInt - q - 1 = ((g.put b).r.toNat + n : ℕ) := by
      rw [hlast, Input.put_r]
      omega
    have hin : InRing (g.put b) ((g.put b).r.toNat + n : ℕ) :=
      inRing_add (by rw [Input.put_r]; omega) (by omega)
    have hget : bufAt m (g.put b) v ((g.put b).r.toNat + n : ℕ) = g.get (g.r + UInt32.ofNat n) := by
      have hto : dist g.r (g.r + UInt32.ofNat n) = n := dist_add_ofNat _ (by omega)
      have hfrom : dist (g.r + UInt32.ofNat n) g.e = dist g.r g.e - n := by
        rw [dist_of_le (a := g.r) (by omega), hto]
      rw [bufAt_of_inRing hin, Int.toNat_natCast, UInt32.ofNat_add, UInt32.ofNat_toNat,
        Input.put_r, Input.get_put_of_lt (by omega) (by omega)]
    rw [segment_succ, List.mem_append, List.mem_singleton]
    unfold recordReads
    dsimp only
    rw [hpos, List.forall_mem_cons, and_iff_right hin, hget]
    by_cases hnl : g.get (g.r + UInt32.ofNat n) = 0x0A
    · rw [if_neg (not_not.mpr hnl)]
      exact iff_of_true (fun i hi => absurd hi List.not_mem_nil) (.inr hnl.symm)
    · rw [if_pos hnl, dif_pos (by omega), ih _ _ (by omega), or_iff_left fun h => hnl h.symm]

/-- **When the loop that saves a line stays in range**: it does not run, the counters having
wrapped; or the ring has not left the first 128 positions, and a newline is in the unread
text. -/
theorem recordReads_inRing_iff {b : UInt8} (h : g.Bounds) (hroom : dist g.r g.e < 128) :
    (∀ i ∈ recordReads m (g.put b) ((g.put b).e.toNat - g.r.toNat) 0 v, InRing (g.put b) i) ↔
      (g.e + 1).toNat ≤ g.r.toNat ∨
        g.e.toNat ≤ 128 ∧ 0x0A ∈ segment g.get g.r (dist g.r g.e) := by
  rw [Input.put_e]
  by_cases hwrap : (g.e + 1).toNat ≤ g.r.toNat
  · rw [Nat.sub_eq_zero_of_le hwrap]
    exact iff_of_true (fun i hi => absurd hi List.not_mem_nil) (.inl hwrap)
  rw [or_iff_right hwrap]
  have hlt := UInt32.toNat_lt g.e
  have hnext : (g.e + 1).toNat = g.e.toNat + 1 := by
    have hone : (1 : UInt32).toNat = 1 := rfl
    have hadd := UInt32.toNat_add g.e 1
    omega
  have hle : g.r.toNat ≤ g.e.toNat := by omega
  have hrounds : (g.e + 1).toNat - g.r.toNat = dist g.r g.e + 1 := by
    rw [dist_of_le_toNat hle]
    omega
  rw [hrounds]
  by_cases he : g.e.toNat ≤ 128
  · rw [recordReads_low h hroom hle he _ 0 v (Nat.zero_add _), and_iff_right he]
  · -- the first byte read is behind the array, or in front of it
    refine iff_of_false (fun hall => ?_) fun hlow => he hlow.1
    unfold recordReads at hall
    rw [List.forall_mem_cons, Input.put_e, UInt32.add_sub_cancel, toInt_toInt32] at hall
    obtain ⟨hpos, hsmall, -⟩ := hall.1
    split at hpos <;> split at hsmall <;> omega

/-! ### The scan for a word -/

/-- The scan walks down from the cursor. -/
theorem mem_wordReads {i : ℤ} : ∀ (n q : ℕ), i ∈ wordReads m g v n q →
    ∃ k, q ≤ k ∧ k < q + n ∧ i = (g.e.toNat : ℤ) - k - 1 := by
  intro n
  induction n with
  | zero => intro q hi; exact absurd hi List.not_mem_nil
  | succ n ih =>
    intro q hi
    unfold wordReads at hi
    rcases List.mem_cons.mp hi with rfl | hi
    · exact ⟨q, le_rfl, by omega, rfl⟩
    · split at hi
      · split at hi
        · obtain ⟨k, hk, hk', rfl⟩ := ih (q + 1) hi
          exact ⟨k, by omega, by omega, rfl⟩
        · exact absurd hi List.not_mem_nil
      · exact absurd hi List.not_mem_nil

/-- **When the scan for a word stays in range**: it does not run, the counters having wrapped or
nothing being unread; or the ring has not left the first 128 positions. -/
theorem wordReads_inRing_iff :
    (∀ i ∈ wordReads m g v (g.e.toNat - g.r.toNat) 0, InRing g i) ↔
      g.e.toNat ≤ g.r.toNat ∨ g.e.toNat ≤ 128 := by
  by_cases hwrap : g.e.toNat ≤ g.r.toNat
  · rw [Nat.sub_eq_zero_of_le hwrap]
    exact iff_of_true (fun i hi => absurd hi List.not_mem_nil) (.inl hwrap)
  rw [or_iff_right hwrap]
  have hdist := dist_of_le_toNat (a := g.r) (b := g.e) (by omega)
  constructor
  · intro hall
    obtain ⟨n, hn⟩ : ∃ n, g.e.toNat - g.r.toNat = n + 1 := ⟨g.e.toNat - g.r.toNat - 1, by omega⟩
    rw [hn] at hall
    unfold wordReads at hall
    obtain ⟨-, hlt, -⟩ := (List.forall_mem_cons.mp hall).1
    omega
  · intro he i hi
    obtain ⟨k, -, hk, rfl⟩ := mem_wordReads _ _ hi
    have hpos : (g.e.toNat : ℤ) - k - 1 =
        (g.r.toNat + (g.e.toNat - g.r.toNat - k - 1) : ℕ) := by omega
    rw [hpos]
    exact inRing_add (by omega) (by omega)

/-! ### Runs -/

/-- **The loop that saves the line stays in range**, if the code ends one. -/
def RecordInRing (m : Memory) (s : State) (c : ℕ) : Prop :=
  let g := s.input.put (byteOf c)
  Captures s c → ∀ i ∈ recordReads m g (g.e.toNat - g.r.toNat) 0 s.vars, InRing g i

instance (m : Memory) (s : State) (c : ℕ) : Decidable (RecordInRing m s c) :=
  inferInstanceAs (Decidable (_ → _))

/-- **The scan for the word stays in range**, if there is one to complete. -/
def WordInRing (m : Memory) (s : State) : Prop :=
  Completes s → ∀ i ∈ wordReads m s.input s.vars (s.input.e.toNat - s.input.r.toNat) 0,
    InRing s.input i

instance (m : Memory) (s : State) : Decidable (WordInRing m s) :=
  inferInstanceAs (Decidable (_ → _))

/-- A line ends as a number below the unread text, or in the first 128 positions with a newline
in that text. -/
def RecordLow (s : State) (c : ℕ) : Prop :=
  Captures s c → (s.input.e + 1).toNat ≤ s.input.r.toNat ∨
    s.input.e.toNat ≤ 128 ∧ 0x0A ∈ segment s.input.get s.input.r (dist s.input.r s.input.e)

instance (s : State) (c : ℕ) : Decidable (RecordLow s c) := inferInstanceAs (Decidable (_ → _))

/-- A word is completed with the cursor as a number below the unread text, or in the first 128
positions. -/
def WordLow (s : State) : Prop :=
  Completes s → s.input.e.toNat ≤ s.input.r.toNat ∨ s.input.e.toNat ≤ 128

instance (s : State) : Decidable (WordLow s) := inferInstanceAs (Decidable (_ → _))

/-- **The runs along which every index read is in the array and in the unread text**: those
along which every line that ends, and every word that is completed, is in the first 128
positions, and every line that ends has a newline before it. -/
theorem readsInRing_iff (m : Memory) (events : List Event) :
    Machine.AlongRun (Sys.step (consoleintr m)) (Meets m (RecordInRing m) (WordInRing m))
        (Sys.boot Vars.boot) events ↔
      Machine.AlongRun (Sys.step (consoleintr m)) (Meets m RecordLow WordLow)
        (Sys.boot Vars.boot) events := by
  refine meets_congr (I := fun g _ => g.Bounds) (fun s c p hs hp => bounds_code hs hp)
    (fun s q hs hq => bounds_deferred hs hq) (fun g v rd killed hg => bounds_readLoop _ _ _ _ hg)
    ?_ ?_ events Input.ok_boot.toBounds
  · intro s c hs
    refine forall_congr' fun hc => ?_
    exact recordReads_inRing_iff hs hc.2.2.2.1
  · intro s _
    exact forall_congr' fun _ => wordReads_inRing_iff

/-- On the first line of a session, `l` and a newline, the loop that saves the line reads
`input.buf[-1]`; and once 128 characters have been read, the scan for a word reads behind the
array. -/
theorem not_readsInRing_first_line :
    recordReads Memory.zero ((Input.boot.put 0x6C).put 0x0A) 2 0 Vars.boot = [0, -1] ∧
      ¬ Machine.AlongRun (Sys.step (consoleintr Memory.zero))
        (Meets Memory.zero (RecordInRing Memory.zero) (WordInRing Memory.zero))
        (Sys.boot Vars.boot) [.intr [0x6C, 0x0A]] ∧
      ¬ Machine.AlongRun (Sys.step (consoleintr Memory.zero))
        (Meets Memory.zero (fun _ _ => True) (WordInRing Memory.zero)) (Sys.boot Vars.boot)
        [.intr (List.replicate 128 0x78), .call 0 128, .pass 0 false, .intr [0x68, 0x09]] := by
  decide +kernel

end Helpful
end Console
end Xv6
