import Xv6.Console.HelpfulRun

/-!
# The clipboard of the Helpful console

Ctrl-C is said to copy the last 128 characters, and Ctrl-V to paste them.  The copy is
one `strncpy` of `input.buf` as it lies in memory.  That is the order of typing only
while the ring has not gone round; it ends at a NUL, not at the cursor, so that what was
erased behind the cursor is copied too; and once the ring has gone round the copy starts
at slot zero, wherever the oldest character is.

The paste that follows does append what the clipboard holds, as far as there is room.

## Main results

* `content_strncpy` — a copied string is read back as it was.
* `pasteLoop_spec` — what a paste appends and prints.
* `copy_paste_iff` — **when a copy and a paste do what the guide says.**
-/

namespace Xv6
namespace Console
namespace Helpful

open Counter

variable {m : Memory} {g : Input} {v : Vars}

/-! ### Strings in arrays -/

/-- The bytes in front of the first NUL are the first `k` bytes if there is no NUL among
these, and one behind them or the end of the list. -/
theorem takeWhile_eq_take_iff : ∀ (l : List UInt8) {k : ℕ}, k ≤ l.length →
    (l.takeWhile (· ≠ 0) = l.take k ↔ 0 ∉ l.take k ∧ l[k]?.getD 0 = 0) := by
  intro l
  induction l with
  | nil =>
    intro k hk
    simp
  | cons b l ih =>
    intro k hk
    cases k with
    | zero => by_cases hb : b = 0 <;> simp [hb]
    | succ k =>
      rw [List.length_cons, Nat.succ_le_succ_iff] at hk
      by_cases hb : b = 0
      · simp [hb]
      · have hcons : (b :: l).takeWhile (· ≠ 0) = b :: l.takeWhile (· ≠ 0) :=
          List.takeWhile_cons_of_pos (by simpa using hb)
        rw [hcons, List.take_succ_cons, List.cons.injEq, and_iff_right rfl, ih hk]
        simp [Ne.symm hb]

theorem length_content_le (a : Vector UInt8 128) : (content a).length ≤ 128 := by
  have hle := (List.takeWhile_sublist (p := (· ≠ (0 : UInt8))) (l := a.toList)).length_le
  rwa [Vector.length_toList] at hle

theorem content_eq_take (a : Vector UInt8 128) :
    content a = a.toList.take (content a).length :=
  List.prefix_iff_eq_take.mp (List.takeWhile_prefix _)

/-- **A copied string is read back as it was.** -/
theorem content_strncpy (a : Vector UInt8 128) : content (strncpy a) = content a := by
  have hle := length_content_le a
  -- the copy starts with the same bytes, and has NULs behind them
  have htake : (strncpy a).toList.take (content a).length = content a := by
    refine List.ext_getElem (by simpa using hle) fun i hi hi' => ?_
    have hpre : content a <+: a.toList := List.takeWhile_prefix _
    rw [List.getElem_take, hpre.getElem hi']
    simp only [strncpy, Vector.getElem_toList, Vector.getElem_ofFn, if_pos hi',
      Vector.get_eq_getElem]
  have hstop := (takeWhile_eq_take_iff a.toList (k := (content a).length)
    (by simpa using hle)).mp (content_eq_take a)
  refine ((takeWhile_eq_take_iff (strncpy a).toList (k := (content a).length)
    (by simpa using hle)).mpr ⟨?_, ?_⟩).trans htake
  · rw [htake, content_eq_take a]
    exact hstop.1
  · rcases Nat.lt_or_ge (content a).length 128 with hlt | hge
    · rw [List.getElem?_eq_getElem (by simpa using hlt), Vector.getElem_toList]
      simp only [strncpy, Vector.getElem_ofFn, lt_irrefl, if_false, Option.getD_some]
    · rw [List.getElem?_eq_none (by simpa using hge)]
      rfl

/-! ### The paste -/

/-- **What a paste does**: it appends the text as far as there is room, and prints what it
appends. -/
theorem pasteLoop_spec : ∀ (cs : List UInt8) {g : Input}, g.Bounds →
    (pasteLoop g cs).1.queue = g.queue ∧
      (pasteLoop g cs).1.line = g.line ++ cs.take (128 - dist g.r g.e) ∧
        (pasteLoop g cs).2 = putChars (cs.take (128 - dist g.r g.e)) := by
  intro cs
  induction cs with
  | nil =>
    intro g h
    simp [pasteLoop, putChars]
  | cons c cs ih =>
    intro g h
    unfold pasteLoop
    split
    · next hlt =>
      obtain ⟨hqueue, hline, hout⟩ := ih (h.put hlt c)
      have hroom : 128 - dist g.r g.e = 128 - dist (g.put c).r (g.put c).e + 1 := by
        rw [Input.dist_put hlt]
        omega
      rw [hroom, List.take_succ_cons]
      refine ⟨hqueue.trans (Input.queue_put h hlt c), ?_, ?_⟩
      · rw [hline, Input.line_put h hlt c, List.append_assoc, List.singleton_append]
      · exact congrArg (Out.putc (schar c) :: ·) hout
    · next hfull =>
      -- the ring is full, and nothing of the text is appended
      have hroom : 128 - dist g.r g.e = 0 := by omega
      rw [hroom]
      simp [putChars]

/-! ### The copy -/

/-- The last `min(e, 128)` characters of the ring, in the order of typing: those at the
positions from `max(0, e - 128)` up to `e`. -/
def recent (g : Input) : List UInt8 :=
  segment g.get (g.e - UInt32.ofNat (min g.e.toNat 128)) (min g.e.toNat 128)

/-- **Ctrl-C and Ctrl-V do what the guide says**: the first leaves the ring alone and puts the
recent characters in the clipboard, and the second appends these to the edit line as far as
there is room, and prints what it appends. -/
def CopyPaste (m : Memory) (s : State) : Prop :=
  ∃ p q, code m s 0x03 = some p ∧ code m p.1 0x16 = some q ∧
    p.1.input = s.input ∧ p.2 = [] ∧ content p.1.vars.clipboard = recent s.input ∧
    q.1.input.queue = s.input.queue ∧
    q.1.input.line = s.input.line ++ (recent s.input).take (128 - dist s.input.r s.input.e) ∧
    q.2 = putChars ((recent s.input).take (128 - dist s.input.r s.input.e))

/-- **The ring lies in memory as a string of its recent characters.**  Before it goes round,
no NUL is in front of the cursor, and one is at the cursor (which may be at the end of the
array).  After that, there is no NUL in the ring, and the oldest character is in slot zero
or the ring is the same from there. -/
def CopyExact (g : Input) : Prop :=
  if g.e.toNat ≤ 128 then
    0 ∉ g.buf.toList.take g.e.toNat ∧ g.buf.toList[g.e.toNat]?.getD 0 = 0
  else 0 ∉ g.buf.toList ∧ g.buf.toList.rotate (g.e.toNat % 128) = g.buf.toList

instance (g : Input) : Decidable (CopyExact g) := inferInstanceAs (Decidable (ite _ _ _))

/-- A whole round through the ring is the array turned. -/
theorem segment_eq_rotate (g : Input) (a : UInt32) :
    segment g.get a 128 = g.buf.toList.rotate (a.toNat % 128) := by
  refine List.ext_getElem (by simp) fun i hi hi' => ?_
  simp [segment_eq_map, List.getElem_rotate, Input.get, Vector.get_eq_getElem, Nat.add_comm]

/-- What the copy keeps, against the recent characters. -/
theorem content_eq_recent_iff (g : Input) : content g.buf = recent g ↔ CopyExact g := by
  unfold CopyExact
  split
  · next he =>
    -- the positions from zero on are the slots
    have hrecent : recent g = g.buf.toList.take g.e.toNat := by
      rw [recent, min_eq_left he, UInt32.ofNat_toNat, UInt32.sub_self]
      refine List.ext_getElem (by simpa using he) fun i hi hi' => ?_
      rw [length_segment] at hi
      have hi128 : i < 128 := by omega
      simp [segment_eq_map, Input.get, Vector.get_eq_getElem, Nat.mod_eq_of_lt hi128]
    rw [hrecent]
    exact takeWhile_eq_take_iff _ (by simpa using he)
  · next he =>
    have hrecent : recent g = g.buf.toList.rotate (g.e.toNat % 128) := by
      have hlt := UInt32.toNat_lt g.e
      have hstart : (g.e - UInt32.ofNat 128).toNat % 128 = g.e.toNat % 128 := by
        rw [UInt32.toNat_sub, UInt32.toNat_ofNat']
        omega
      rw [recent, min_eq_right (by omega), segment_eq_rotate, hstart]
    rw [hrecent]
    have htake := takeWhile_eq_take_iff g.buf.toList (k := 128) (by simp)
    rw [List.take_of_length_le (by simp), List.getElem?_eq_none (by simp)] at htake
    constructor
    · intro h
      -- the recent characters fill the array, so that there is no NUL in it
      have hlen : (content g.buf).length = 128 := by rw [h]; simp
      have hall : content g.buf = g.buf.toList := by
        rw [content_eq_take, hlen, List.take_of_length_le (by simp)]
      exact ⟨(htake.mp hall).1, by rw [← h, hall]⟩
    · rintro ⟨hnul, hrot⟩
      rw [hrot]
      exact htake.mpr ⟨hnul, rfl⟩

theorem code_copy (s : State) :
    code m s 0x03 = some ({ s with vars := copy s.input s.vars }, []) := by
  rw [code_edit (by decide) (by decide)]
  rfl

theorem code_paste (s : State) :
    code m s 0x16 = some ({ s with input := (paste s.input s.vars).1 },
      (paste s.input s.vars).2) := by
  rw [code_edit (by decide) (by decide)]
  rfl

theorem CopyPaste.content_eq {s : State} (h : CopyPaste m s) :
    content s.input.buf = recent s.input := by
  obtain ⟨p, q, hp, -, -, -, hcontent, -⟩ := h
  rw [code_copy, Option.some.injEq] at hp
  rw [← hp] at hcontent
  exact (content_strncpy _).symm.trans hcontent

/-- **When copying and pasting do what the guide says**: in every state that runs reach, just
if the ring lies in memory as a string of its recent characters. -/
theorem copy_paste_iff {s : State} (h : Reachable m s) :
    CopyPaste m s ↔ CopyExact s.input := by
  rw [← content_eq_recent_iff]
  refine ⟨CopyPaste.content_eq, fun hcontent => ?_⟩
  have hclip : content (copy s.input s.vars).clipboard = content s.input.buf := content_strncpy _
  refine ⟨_, _, code_copy s, code_paste _, rfl, rfl, hclip.trans hcontent, ?_⟩
  obtain ⟨hqueue, hline, hout⟩ := pasteLoop_spec (recent s.input) (bounds_of_reachable h)
  rw [paste, hclip, hcontent]
  exact ⟨hqueue, hline, hout⟩

/-- The rule for `ls` and an `x` that is typed over an erased `y`. -/
theorem copy_paste_lsx : ∃ s, Reachable Memory.zero s ∧ s.input.line = str "lsx" ∧
    CopyPaste Memory.zero s := by
  have hrun : (Machine.run (code Memory.zero) ⟨Input.boot, Vars.boot, {}⟩
      [0x6C, 0x73, 0x79, 0x08, 0x78]).map
        (fun p => (p.1.input.line, decide (CopyExact p.1.input))) = some (str "lsx", true) := by
    decide +kernel
  obtain ⟨p, hp, hexact⟩ := Option.map_eq_some_iff.mp hrun
  rw [Prod.mk.injEq, decide_eq_true_eq] at hexact
  have hreach : Reachable Memory.zero p.1 := ⟨[], _, _, p.2, rfl, hp⟩
  exact ⟨p.1, hreach, hexact.1, (copy_paste_iff hreach).mpr hexact.2⟩

/-- After `ab` and a backspace Ctrl-C copies the `b` too. -/
theorem not_copy_paste_erased : ∃ s, Reachable Memory.zero s ∧ recent s.input = str "a" ∧
    content (copy s.input s.vars).clipboard = str "ab" ∧ ¬ CopyPaste Memory.zero s := by
  have hrun : (Machine.run (code Memory.zero) ⟨Input.boot, Vars.boot, {}⟩ [0x61, 0x62, 0x08]).map
      (fun p => (recent p.1.input, content p.1.input.buf)) = some (str "a", str "ab") := by
    decide +kernel
  obtain ⟨p, hp, htexts⟩ := Option.map_eq_some_iff.mp hrun
  rw [Prod.mk.injEq] at htexts
  have hclip : content (copy p.1.input p.1.vars).clipboard = str "ab" :=
    (content_strncpy _).trans htexts.2
  refine ⟨p.1, ⟨[], _, _, p.2, rfl, hp⟩, htexts.1, hclip, fun h => ?_⟩
  have heq := h.content_eq
  rw [htexts.1, htexts.2] at heq
  exact absurd heq (by decide)

end Helpful
end Console
end Xv6
