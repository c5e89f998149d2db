import Xv6.Console.HelpfulHistory
import Xv6.Console.HelpfulReads

/-!
# The strings of the Helpful console

`previous_line` and `clipboard` are arrays of 128 bytes that the console reads as strings.
Nothing bounds `track_enigma`; nothing puts a NUL behind what is copied, or recorded; and the walk
of `get_prev_line` ends at a newline, or where the ring is full, but not at the start of the
array.

## Main definitions

* `recordWrites`, `pasteReads`, `recallReads` — the indices that the loops use.
* `CodeInArrays`, `DeferredInArrays` — every index is in its array, and every string has a NUL.
* `CodeShort`, `DeferredShort` — the strings that are used are shorter than their arrays.
* `CodeSpare`, `DeferredSpare` — what is copied and recorded leaves a byte for the NUL.

## Main results

* `recordWrites_lt`, `pasteReads_lt` — two of the loops are never out of range.
* `recallReads_iff` — when the walk of `get_prev_line` is in range.
* `inArrays_iff` — **the runs along which everything is**, and what is enough for it.
-/

namespace Xv6
namespace Console
namespace Helpful

open Counter

variable {m : Memory} {g : Input} {v : Vars}

/-! ### The indices used -/

/-- The indices of `previous_line` that `recordLoop` writes. -/
def recordWrites (m : Memory) (g : Input) : ℕ → ℕ → Vars → List ℕ
  | 0, _, _ => []
  | n + 1, q, v =>
      let b := bufAt m g v ((g.e - 1).toInt32.toInt - q - 1)
      if b ≠ 0x0A then
        q :: if h : q < 128 then
          recordWrites m g n (q + 1) { v with previousLine := v.previousLine.set q b }
        else []
      else []

/-- The indices of `clipboard` that `pasteLoop` reads, from `i` on. -/
def pasteReads (g : Input) : List UInt8 → ℕ → List ℕ
  | [], _ => []
  | c :: cs, i => if dist g.r g.e < 128 then i :: pasteReads (g.put c) cs (i + 1) else []

/-- The indices of `previous_line` that `recallLoop` reads.  It looks at a byte before it finds
the ring full. -/
def recallReads (m : Memory) (v : Vars) : ℕ → ℤ → Input → List ℤ
  | 0, i, _ => [i]
  | n + 1, i, g =>
      let b := lineAt m g v i
      i :: if b ≠ 0x0A ∧ b ≠ 0 ∧ dist g.r g.e < 128 then recallReads m v n (i - 1) (g.put b)
      else []

/-- The loop that saves a line writes at no index after its rounds. -/
theorem recordWrites_lt : ∀ (n q : ℕ) (v : Vars), ∀ i ∈ recordWrites m g n q v, i < q + n := by
  intro n
  induction n with
  | zero => intro q v i hi; exact absurd hi List.not_mem_nil
  | succ n ih =>
    intro q v i hi
    unfold recordWrites at hi
    dsimp only at hi
    split at hi
    · rcases List.mem_cons.mp hi with rfl | hi
      · omega
      · split at hi
        · have := ih _ _ i hi
          omega
        · exact absurd hi List.not_mem_nil
    · exact absurd hi List.not_mem_nil

/-- A paste reads no index behind the text. -/
theorem pasteReads_lt : ∀ (cs : List UInt8) (k : ℕ) {g : Input}, ∀ i ∈ pasteReads g cs k,
    i < k + cs.length := by
  intro cs
  induction cs with
  | nil => intro k g i hi; exact absurd hi List.not_mem_nil
  | cons c cs ih =>
    intro k g i hi
    rw [List.length_cons]
    unfold pasteReads at hi
    split at hi
    · rcases List.mem_cons.mp hi with rfl | hi
      · omega
      · have := ih _ i hi
        omega
    · exact absurd hi List.not_mem_nil

/-- The walk over a text without a NUL, in front of its end: it stays in range if it meets a
newline, or fills the ring first. -/
theorem recallReads_text (ts : List UInt8) : ∀ (n : ℕ) {g : Input},
    ts <+: v.previousLine.toList → 0 ∉ ts → dist g.r g.e + n = 128 →
      ((∀ i ∈ recallReads m v n ((ts.length : ℤ) - 1) g, 0 ≤ i ∧ i < 128) ↔
        0x0A ∈ ts ∨ n < ts.length) := by
  induction ts using List.reverseRecOn with
  | nil =>
    intro n g _ _ _
    -- the walk has come to the start of the array
    refine iff_of_false (fun hall => ?_) (by simp)
    have hfront : ((([] : List UInt8).length : ℕ) : ℤ) - 1 = -1 := rfl
    have hmem : (-1 : ℤ) ∈ recallReads m v n (-1) g := by
      cases n with
      | zero => exact List.mem_singleton_self _
      | succ n => exact List.mem_cons_self
    exact absurd (hall (-1) hmem).1 (by decide)
  | append_singleton ts b ih =>
    intro n g hpre hnul hroom
    have hlen := hpre.length_le
    rw [List.length_append, List.length_singleton, Vector.length_toList] at hlen
    rw [List.mem_append, List.mem_singleton, not_or] at hnul
    have hindex : (((ts ++ [b]).length : ℕ) : ℤ) - 1 = (ts.length : ℤ) := by simp
    have hbyte : lineAt m g v ts.length = b := lineAt_of_lt hpre
    have hin : 0 ≤ (ts.length : ℤ) ∧ (ts.length : ℤ) < 128 := ⟨by omega, by omega⟩
    rw [hindex, List.mem_append, List.mem_singleton, List.length_append, List.length_singleton]
    cases n with
    | zero =>
      unfold recallReads
      exact iff_of_true (by simpa using hin) (.inr (by omega))
    | succ n =>
      unfold recallReads
      dsimp only
      rw [List.forall_mem_cons, and_iff_right hin, hbyte]
      by_cases hnl : b = 0x0A
      · rw [if_neg fun h => h.1 hnl]
        exact iff_of_true (fun i hi => absurd hi List.not_mem_nil) (.inl (.inr hnl.symm))
      · have hput := Input.dist_put (g := g) (c := b) (by omega)
        rw [if_pos ⟨hnl, Ne.symm hnul.2, by omega⟩,
          ih n ((List.prefix_append ts [b]).trans hpre) hnul.1 (by omega)]
        refine or_congr (or_iff_left fun h => hnl h.symm).symm ?_
        omega

/-- **When the walk of `get_prev_line` is in range**: its text, which it walks backwards, has a
newline in it, or is longer than what the ring has room for. -/
theorem recallReads_iff (h : g.Bounds) (hshort : (content v.previousLine).length < 128) :
    (∀ i ∈ recallReads m v (128 - dist g.r g.e) ((prevLen m g v : ℤ) - 1) g, 0 ≤ i ∧ i < 128) ↔
      0x0A ∈ content v.previousLine ∨ 128 - dist g.r g.e < (content v.previousLine).length := by
  have hmax := h.e_le
  have hlen : prevLen m g v = (content v.previousLine).length := if_pos hshort
  rw [hlen]
  exact recallReads_text _ _ (List.takeWhile_prefix _) (notMem_content _) (by omega)

/-! ### The conditions -/

/-- **What a round does to the strings is in range**: it records an encrypted code and a line in
`previous_line`, and pastes a string. -/
def CodeInArrays (m : Memory) (s : State) (c : ℕ) : Prop :=
  (1000 ≤ c ∧ c < 2000 → s.vars.trackEnigma < 128) ∧
    (Captures s c → ∀ i ∈ recordWrites m (s.input.put (byteOf c))
      ((s.input.put (byteOf c)).e.toNat - s.input.r.toNat) 0 s.vars, i < 128) ∧
    (c = 0x16 → 0 ∈ s.vars.clipboard.toList ∧
      ∀ i ∈ pasteReads s.input (content s.vars.clipboard) 0, i < 128)

/-- **What the chain does to the strings is in range**: it walks `previous_line` back from the end
of its string, and prints it. -/
def DeferredInArrays (m : Memory) (s : State) : Prop :=
  (Recalls s → 0 ∈ s.vars.previousLine.toList ∧
    ∀ i ∈ recallReads m s.vars (128 - dist s.input.r s.input.e)
      ((prevLen m s.input s.vars : ℤ) - 1) s.input, 0 ≤ i ∧ i < 128) ∧
    (Encrypts s ∧ s.flags.c_ = 0x0A → 0 ∈ s.vars.previousLine.toList)

/-- There are fewer than 128 encrypted codes on record when another comes, and the text in the
clipboard is shorter than it when pasted. -/
def CodeShort (s : State) (c : ℕ) : Prop :=
  (1000 ≤ c ∧ c < 2000 → s.vars.trackEnigma < 128) ∧
    (c = 0x16 → (content s.vars.clipboard).length < 128)

/-- What is recalled has a newline in it or does not fit the ring. -/
def Bounded (s : State) : Prop :=
  0x0A ∈ content s.vars.previousLine ∨
    128 - dist s.input.r s.input.e < (content s.vars.previousLine).length

/-- The text in `previous_line` is shorter than it when recalled or printed, and bounded when
recalled. -/
def DeferredShort (s : State) : Prop :=
  (Recalls s → (content s.vars.previousLine).length < 128 ∧ Bounded s) ∧
    (Encrypts s ∧ s.flags.c_ = 0x0A → (content s.vars.previousLine).length < 128)

/-- There are fewer than 127 encrypted codes on record when another comes; a line ends with at
most 127 unread bytes; and what is copied has a NUL in it. -/
def CodeSpare (s : State) (c : ℕ) : Prop :=
  (1000 ≤ c ∧ c < 2000 → s.vars.trackEnigma < 127) ∧
    (Captures s c → dist s.input.r s.input.e < 127) ∧ (c = 0x03 → 0 ∈ s.input.buf.toList)

/-- What is recalled is bounded. -/
def DeferredSpare (s : State) : Prop := Recalls s → Bounded s

instance (m : Memory) (s : State) (c : ℕ) : Decidable (CodeInArrays m s c) :=
  inferInstanceAs (Decidable (_ ∧ _))

instance (m : Memory) (s : State) : Decidable (DeferredInArrays m s) :=
  inferInstanceAs (Decidable (_ ∧ _))

instance (s : State) (c : ℕ) : Decidable (CodeShort s c) := inferInstanceAs (Decidable (_ ∧ _))
instance (s : State) : Decidable (Bounded s) := inferInstanceAs (Decidable (_ ∨ _))
instance (s : State) : Decidable (DeferredShort s) := inferInstanceAs (Decidable (_ ∧ _))
instance (s : State) (c : ℕ) : Decidable (CodeSpare s c) := inferInstanceAs (Decidable (_ ∧ _))
instance (s : State) : Decidable (DeferredSpare s) := inferInstanceAs (Decidable (_ → _))

theorem codeInArrays_iff {s : State} {c : ℕ} :
    CodeInArrays m s c ↔ CodeShort s c := by
  refine and_congr Iff.rfl
    ⟨fun hin hpaste => ?_, fun hshort => ⟨fun hc i hi => ?_, fun hpaste => ?_⟩⟩
  · exact (length_content_lt_iff _).mpr (hin.2 hpaste).1
  · -- a line and its end are no longer than the ring
    have hlt := recordWrites_lt _ _ _ i hi
    have hput := Input.dist_put (c := byteOf c) hc.2.2.2.1
    have hroom := hc.2.2.2.1
    have hrounds : (s.input.put (byteOf c)).e.toNat - s.input.r.toNat ≤
        dist (s.input.put (byteOf c)).r (s.input.put (byteOf c)).e := by
      have hr := UInt32.toNat_lt s.input.r
      have he := UInt32.toNat_lt (s.input.put (byteOf c)).e
      rw [dist_eq, Input.put_r]
      omega
    omega
  · have hlen := length_content_le s.vars.clipboard
    refine ⟨(length_content_lt_iff _).mp (hshort hpaste), fun i hi => ?_⟩
    have := pasteReads_lt _ _ i hi
    omega

theorem deferredInArrays_iff {s : State} (h : s.input.Bounds) :
    DeferredInArrays m s ↔ DeferredShort s := by
  refine and_congr (forall_congr' fun _ => ?_) (forall_congr' fun _ => ?_)
  · rw [← length_content_lt_iff]
    exact and_congr_right fun hshort => recallReads_iff h hshort
  · rw [← length_content_lt_iff]

/-! ### The byte for the NUL -/

/-- **Both strings have a NUL**, that of `previous_line` at its end. -/
structure Terminated (v : Vars) : Prop where
  clipboard : 0 ∈ v.clipboard.toList
  previousLine : v.previousLine[127] = 0

theorem Terminated.length_clipboard (h : Terminated v) : (content v.clipboard).length < 128 :=
  (length_content_lt_iff _).mpr h.clipboard

theorem Terminated.length_previousLine (h : Terminated v) :
    (content v.previousLine).length < 128 := by
  refine (length_content_lt_iff _).mpr (List.mem_iff_getElem.mpr ⟨127, by simp, ?_⟩)
  rw [Vector.getElem_toList]
  exact h.previousLine

theorem terminated_boot : Terminated Vars.boot := ⟨by decide +kernel, by decide +kernel⟩

theorem Terminated.clearLine (h : Terminated v) : Terminated v.clearLine :=
  ⟨h.clipboard, Vector.getElem_replicate _⟩

/-- A copy of what has a NUL in it has one. -/
theorem Terminated.copy (h : Terminated v) (hbuf : 0 ∈ g.buf.toList) : Terminated (copy g v) := by
  unfold Helpful.copy
  refine ⟨?_, h.previousLine⟩
  dsimp only
  rw [← length_content_lt_iff, content_strncpy]
  exact (length_content_lt_iff g.buf).mpr hbuf

/-- A line that is shorter than the array leaves the end of the array alone. -/
theorem terminated_recordLoop : ∀ (n q : ℕ) {v v' : Vars}, Terminated v → q + n ≤ 127 →
    recordLoop m g n q v = some v' → Terminated v' := by
  intro n
  induction n with
  | zero =>
    intro q v v' h _ hv
    cases hv
    exact h
  | succ n ih =>
    intro q v v' h hq hv
    unfold recordLoop at hv
    dsimp only at hv
    split at hv
    · split at hv
      · next hlt =>
        refine ih (q + 1) (v := { v with previousLine := v.previousLine.set q _ hlt })
          ⟨h.clipboard, ?_⟩ (by omega) hv
        show (v.previousLine.set q _ hlt)[127] = 0
        rw [Vector.getElem_set_ne _ _ (by omega)]
        exact h.previousLine
      · contradiction
    · cases hv
      exact h

theorem terminated_code {s : State} {c : ℕ} {p : State × List Out} (h : Terminated s.vars)
    (hc : CodeSpare s c) (hp : code m s c = some p) : Terminated p.1.vars := by
  by_cases hcapture : Captures s c
  · -- the line is saved
    rw [code_captures hcapture] at hp
    obtain ⟨v, hv, rfl⟩ := Option.map_eq_some_iff.mp hp
    have hspare := hc.2.1 hcapture
    have hput := Input.dist_put (c := byteOf c) hcapture.2.2.2.1
    have hrounds : (s.input.put (byteOf c)).e.toNat - (s.input.put (byteOf c)).r.toNat ≤
        dist (s.input.put (byteOf c)).r (s.input.put (byteOf c)).e := by
      have hr := UInt32.toNat_lt (s.input.put (byteOf c)).r
      have he := UInt32.toNat_lt (s.input.put (byteOf c)).e
      rw [dist_eq]
      omega
    exact terminated_recordLoop _ 0 h (by omega) hv
  rcases code_cases hp with
    ⟨-, ⟨hlow, hhigh, hlt, hvars⟩ | ⟨-, -, hvars⟩ | ⟨-, hvars⟩⟩ | ⟨hedit, q, hq, rfl⟩
  · rw [hvars]
    have hspare := hc.1 ⟨hlow, hhigh⟩
    refine ⟨h.clipboard, ?_⟩
    show (s.vars.previousLine.set s.vars.trackEnigma _ hlt)[127] = 0
    rw [Vector.getElem_set_ne _ _ (by omega)]
    exact h.previousLine
  · rw [hvars]
    exact ⟨h.clipboard, h.previousLine⟩
  · rw [hvars]
    exact h
  · show Terminated q.2.1
    rcases edit_cases hq with ⟨-, rfl⟩ | ⟨hcopy, rfl⟩ | ⟨-, rfl⟩ | ⟨-, rfl⟩ | ⟨hdefault, hq⟩
    · exact h
    · exact h.copy (hc.2.2 hcopy)
    · exact h
    · exact h
    · -- a character that ends no line
      rw [typed_eq] at hq
      split at hq
      · next hroom =>
        have hno : ¬ Commits (dist s.input.r s.input.e) c := fun hcommit =>
          hcapture ⟨hedit, hdefault, hroom.1, hroom.2, hcommit⟩
        rw [if_neg hno] at hq
        cases hq
        exact h
      · cases hq
        exact h

theorem terminated_deferred {s : State} {q : Input × Vars × List Out} (h : Terminated s.vars)
    (hq : deferred m s = some q) : Terminated q.2.1 := by
  rcases deferred_cases hq with ⟨-, p, -, rfl⟩ | ⟨-, rfl⟩ | ⟨-, rfl⟩ | ⟨-, -, -, -, hvars⟩
  · exact h
  · exact h.clearLine
  · show Terminated (encrypt m s.input s.vars s.flags.c_).1
    unfold encrypt
    split
    · -- the record begins anew
      exact ⟨h.clipboard, h.clearLine.previousLine⟩
    · split
      · exact ⟨h.clipboard, h.previousLine⟩
      · exact h
  · rw [hvars]
    exact h

/-! ### Runs -/

/-- **The runs along which every index of a string is in its array, and every string that is
used has a NUL**: those along which there is room for every encrypted code, what is pasted,
recalled and printed is shorter than its array, and what is recalled is bounded.  It is enough
that what is copied and recorded leaves a byte for the NUL, and what is recalled is bounded. -/
theorem inArrays_iff (m : Memory) (events : List Event) :
    (Machine.AlongRun (Sys.step (consoleintr m)) (Meets m (CodeInArrays m) (DeferredInArrays m))
        (Sys.boot Vars.boot) events ↔
      Machine.AlongRun (Sys.step (consoleintr m)) (Meets m CodeShort DeferredShort)
        (Sys.boot Vars.boot) events) ∧
      (Machine.AlongRun (Sys.step (consoleintr m)) (Meets m CodeSpare DeferredSpare)
          (Sys.boot Vars.boot) events →
        Machine.AlongRun (Sys.step (consoleintr m))
          (Meets m (CodeInArrays m) (DeferredInArrays m)) (Sys.boot Vars.boot) events) := by
  constructor
  · refine meets_congr (I := fun g _ => g.Bounds) (fun s c p hs hp => bounds_code hs hp)
      (fun s q hs hq => bounds_deferred hs hq) (fun g v rd killed hg => bounds_readLoop _ _ _ _ hg)
      (fun s c _ => codeInArrays_iff) (fun s hs => deferredInArrays_iff hs) events
      Input.ok_boot.toBounds
  · refine meets_mono (I := fun g v => g.Bounds ∧ Terminated v) ?_ ?_ ?_ ?_ ?_ events
      ⟨Input.ok_boot.toBounds, terminated_boot⟩
    · exact fun s c p hs hc hp => ⟨bounds_code hs.1 hp, terminated_code hs.2 hc hp⟩
    · exact fun s q hs _ hq => ⟨bounds_deferred hs.1 hq, terminated_deferred hs.2 hq⟩
    · exact fun g v rd killed hg => ⟨bounds_readLoop _ _ _ _ hg.1, hg.2⟩
    · intro s c hs hc
      refine codeInArrays_iff.mpr ⟨fun hrange => ?_, fun _ => hs.2.length_clipboard⟩
      have := hc.1 hrange
      omega
    · intro s hs hd
      exact (deferredInArrays_iff hs.1).mpr ⟨fun hrecall =>
        ⟨hs.2.length_previousLine, hd hrecall⟩, fun _ => hs.2.length_previousLine⟩

/-- The rule where `ls` is copied, pasted and read as a line, a cipher is begun and ended, and a
record with a newline in it is recalled. -/
theorem inArrays_session :
    Machine.AlongRun (Sys.step (consoleintr Memory.zero))
      (Meets Memory.zero (CodeInArrays Memory.zero) (DeferredInArrays Memory.zero))
      (Sys.boot Vars.boot)
      [.intr [0x6C, 0x73, 0x03, 0x16, 0x0D], .call 0 9, .pass 0 false, .intr [1065], .intr [1010],
        .intr [1010, 1066], .intr [226]] :=
  (inArrays_iff Memory.zero _).2 (by decide +kernel)

/-- An up-arrow at boot walks `previous_line` from the index -1 on. -/
theorem not_inArrays_up :
    recallReads Memory.zero Vars.boot 128 (-1) Input.boot = [-1] ∧
      ¬ Machine.AlongRun (Sys.step (consoleintr Memory.zero))
        (Meets Memory.zero (CodeInArrays Memory.zero) (DeferredInArrays Memory.zero))
        (Sys.boot Vars.boot) [.intr [226]] := by
  decide +kernel

end Helpful
end Console
end Xv6
