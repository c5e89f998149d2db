import Xv6.Console.HelpfulClipboard

/-!
# Completion in the Helpful console

`auto_complete` finds the word before the cursor with one loop and erases it with another.
The first runs back over the unread text to a blank, and looks at `input.buf` with indices
that it does not take modulo the capacity; the second runs back over the edit line only, to a
blank or a newline.  So the word that is looked up may be longer than the one that is erased,
or another one.

## Main definitions

* `editWord`, `scanWord` — the word that is erased, and the one that is looked up.
* `firstEntry` — the first entry of the table that a word is an initial part of.
* `Completed`, `Completion` — what a completion is to do.
* `SameEntry` — the two words lead to the same entry, as far as the ring has room for it.

## Main results

* `wordLoop_eq`, `eraseLoop_spec`, `fillLoop_spec` — the three loops.
* `completion_iff` — **when a completion does what it is to do.**
-/

namespace Xv6
namespace Console
namespace Helpful

open Counter

variable {m : Memory} {g : Input} {v : Vars}

/-! ### The two words -/

/-- A byte that ends neither a word nor a line. -/
def inWord (b : UInt8) : Bool := b ≠ 0x0A && b ≠ 0x20

/-- The word at the end of the edit line. -/
def editWord (g : Input) : List UInt8 := g.line.rtakeWhile inWord

/-- What stands at `input.buf[input.r]` up to `input.buf[input.e-1]`, the indices as they
are. -/
def scanned (m : Memory) (g : Input) (v : Vars) : List UInt8 :=
  (List.range (g.e.toNat - g.r.toNat)).map fun k => bufAt m g v (g.r.toNat + k : ℕ)

/-- The word that `auto_complete` looks up: what follows the last blank there. -/
def scanWord (m : Memory) (g : Input) (v : Vars) : List UInt8 :=
  (scanned m g v).rtakeWhile (· ≠ 0x20)

/-- The first entry of `autocomplete_words` that the word, if it is one, starts. -/
def firstEntry (word : List UInt8) : Option (List UInt8) :=
  if word = [] then none else autocompleteWords.find? fun word' => word.isPrefixOf word'

/-! ### The scan -/

/-- The bytes the loop copies are those in front of the first blank, from the index `q` on. -/
theorem wordLoop_eq : ∀ (n q : ℕ), q + n ≤ 128 →
    wordLoop m g v n q = some (((List.range n).map fun k =>
      bufAt m g v ((g.e.toNat : ℤ) - (q + k : ℕ) - 1)).takeWhile (· ≠ 0x20)) := by
  intro n
  induction n with
  | zero => intro q _; rfl
  | succ n ih =>
    intro q hq
    have hshift : ((fun k : ℕ => bufAt m g v ((g.e.toNat : ℤ) - (q + k : ℕ) - 1)) ∘ Nat.succ) =
        fun k : ℕ => bufAt m g v ((g.e.toNat : ℤ) - (q + 1 + k : ℕ) - 1) := by
      funext k
      rw [Function.comp_apply, Nat.succ_eq_add_one, Nat.add_right_comm, Nat.add_assoc]
    unfold wordLoop
    dsimp only
    rw [List.range_succ_eq_map, List.map_cons, List.map_map, hshift, Nat.add_zero]
    split
    · next hb =>
      -- no blank: `word_to_match` has room for the byte
      rw [if_pos (by omega), ih (q + 1) (by omega), List.takeWhile_cons_of_pos (by simpa using hb)]
      rfl
    · next hb =>
      rw [List.takeWhile_cons_of_neg (by simpa using hb)]

theorem reverse_scanned (m : Memory) (g : Input) (v : Vars) (hle : g.r ≤ g.e) :
    (scanned m g v).reverse = (List.range (g.e.toNat - g.r.toNat)).map fun k =>
      bufAt m g v ((g.e.toNat : ℤ) - (0 + k : ℕ) - 1) := by
  rw [UInt32.le_iff_toNat_le] at hle
  refine List.ext_getElem (by simp [scanned]) fun i hi hi' => ?_
  have hlt : i < g.e.toNat - g.r.toNat := by simpa [scanned] using hi
  simp only [scanned, List.getElem_reverse, List.getElem_map, List.getElem_range, List.length_map,
    List.length_range]
  congr 1
  omega

/-- **The scan finds the word**, and `word_to_match` has room for it. -/
theorem wordLoop_scanWord (h : g.Bounds) :
    (wordLoop m g v (g.e.toNat - g.r.toNat) 0).map List.reverse = some (scanWord m g v) := by
  rcases Nat.lt_or_ge g.e.toNat g.r.toNat with hlt | hge
  · -- the end of the ring has gone round past zero: the comparison ends the scan at once
    have hzero : g.e.toNat - g.r.toNat = 0 := by omega
    simp [hzero, wordLoop, scanWord, scanned]
  · have hle : g.r ≤ g.e := UInt32.le_iff_toNat_le.mpr hge
    have hsize : g.e.toNat - g.r.toNat ≤ 128 := by
      have hmax := h.e_le
      rw [Counter.dist, UInt32.toNat_sub_of_le _ _ hle] at hmax
      exact hmax
    rw [wordLoop_eq _ _ (by omega), ← reverse_scanned m g v hle, Option.map_some, scanWord,
      List.rtakeWhile]

/-! ### The lookup -/

theorem agree_le : ∀ (as bs : List UInt8), agree as bs ≤ bs.length := by
  intro as
  induction as with
  | nil => intro bs; simp [agree]
  | cons a as ih =>
    intro bs
    cases bs with
    | nil => simp [agree]
    | cons b bs =>
      unfold agree
      split
      · exact Nat.succ_le_succ (ih bs)
      · exact Nat.zero_le _

/-- Two words agree over all of the second just if it is an initial part of the first. -/
theorem length_le_agree_iff : ∀ (as bs : List UInt8), bs.length ≤ agree as bs ↔ bs <+: as := by
  intro as
  induction as with
  | nil => intro bs; simp [agree, List.prefix_nil]
  | cons a as ih =>
    intro bs
    cases bs with
    | nil => simp [agree]
    | cons b bs =>
      unfold agree
      split
      · next hab =>
        rw [List.length_cons, Nat.succ_le_succ_iff, ih bs, List.cons_prefix_cons]
        exact ⟨fun h => ⟨hab.symm, h⟩, fun h => h.2⟩
      · next hab =>
        rw [List.cons_prefix_cons]
        exact iff_of_false (by simp) fun h => hab h.1.symm

/-- What `auto_complete` does, by the entry of the word that it looks up. -/
theorem autoComplete_eq (h : g.Bounds) :
    autoComplete m g v = some (match firstEntry (scanWord m g v) with
      | some best =>
          ((fillLoop (eraseLoop (dist g.w g.e) g).1 best).1,
            (eraseLoop (dist g.w g.e) g).2 ++ (fillLoop (eraseLoop (dist g.w g.e) g).1 best).2)
      | none => (g, [])) := by
  obtain ⟨w, hw, hword⟩ := Option.map_eq_some_iff.mp (wordLoop_scanWord (m := m) (v := v) h)
  rw [autoComplete, hw, Option.map_some]
  dsimp only
  rw [hword]
  have hfind : (autocompleteWords.find? fun word' =>
      (scanWord m g v).length ≤ agree word' (scanWord m g v)) =
        autocompleteWords.find? fun word' => (scanWord m g v).isPrefixOf word' := by
    refine congrArg (List.find? · _) (funext fun word' => ?_)
    rw [Bool.eq_iff_iff, decide_eq_true_eq, length_le_agree_iff, List.isPrefixOf_iff_prefix]
  rw [hfind]
  by_cases hnil : scanWord m g v = []
  · -- the empty word agrees with every entry, over no byte
    have hzero : ∀ best, ¬ 0 < agree best (scanWord m g v) := by
      intro best hpos
      have hle := agree_le best (scanWord m g v)
      rw [hnil, List.length_nil] at hle
      rw [hnil] at hpos
      omega
    rw [firstEntry, if_pos hnil]
    split
    · next best _ => rw [if_neg (hzero best)]
    · rfl
  · rw [firstEntry, if_neg hnil]
    cases hbest : autocompleteWords.find? fun word' => (scanWord m g v).isPrefixOf word' with
    | none => rfl
    | some best =>
      have hpre := List.find?_some hbest
      rw [List.isPrefixOf_iff_prefix, ← length_le_agree_iff] at hpre
      dsimp only
      rw [if_pos ((List.length_pos_iff.mpr hnil).trans_le hpre)]

/-! ### The erasing and the filling -/

/-- The loop erases the word at the end of the edit line, while the counters have not gone
round past zero. -/
theorem eraseLoop_spec : ∀ (n : ℕ) {g : Input}, g.Bounds → g.r ≤ g.e → dist g.w g.e = n →
    (eraseLoop n g).1.Bounds ∧ (eraseLoop n g).1.r = g.r ∧
      (eraseLoop n g).1.queue = g.queue ∧
      (eraseLoop n g).1.line = g.line.rdropWhile inWord ∧
      (eraseLoop n g).2 = List.replicate (editWord g).length (.putc backspaceCode) := by
  intro n
  induction n with
  | zero =>
    intro g h _ hn
    have hnil : g.line = [] := Input.line_eq_nil.mpr (dist_eq_zero.mp hn).symm
    refine ⟨h, rfl, rfl, ?_, ?_⟩
    · rw [hnil, List.rdropWhile_nil]
      exact hnil
    · rw [editWord, hnil, List.rtakeWhile_nil]
      rfl
  | succ n ih =>
    intro g h hle hn
    have hne : g.e ≠ g.w := by
      intro heq
      rw [heq, dist_self] at hn
      omega
    have hlt : g.r < g.e := by
      refine UInt32.lt_of_le_of_ne hle fun heq => ?_
      have hpos := Input.dist_r_e_pos h hne
      rw [heq, dist_self] at hpos
      omega
    unfold eraseLoop editWord
    split
    · next hc =>
      -- one more byte of the word
      have hword : inWord (g.get (g.e - 1)) = true := by
        simp [inWord, hc.2.2.1, hc.2.2.2]
      have hle' : g.erase.r ≤ g.erase.e := by
        rw [UInt32.lt_iff_toNat_lt] at hlt
        rw [Input.erase_r, Input.erase_e, UInt32.le_iff_toNat_le,
          UInt32.toNat_sub_of_le _ _ (UInt32.le_iff_toNat_le.mpr (by simp; omega))]
        have hone : (1 : UInt32).toNat = 1 := rfl
        omega
      have hn' : dist g.erase.w g.erase.e = n := by
        rw [Input.erase_w, Input.erase_e, dist_pred_right (by omega), hn, Nat.add_sub_cancel]
      obtain ⟨hb, hr, hqueue, hline, hout⟩ := ih (h.erase hne).toBounds hle' hn'
      rw [editWord, Input.line_erase hne] at hout
      rw [Input.line_erase hne] at hline
      rw [Input.line_eq_concat hne, List.rdropWhile_concat_pos _ _ _ hword,
        List.rtakeWhile_concat_pos _ _ _ hword, List.length_append, List.length_singleton,
        List.replicate_succ]
      exact ⟨hb, hr, hqueue, hline, congrArg (Out.putc backspaceCode :: ·) hout⟩
    · next hc =>
      have hword : ¬ inWord (g.get (g.e - 1)) = true := by
        intro hword
        simp only [inWord, Bool.and_eq_true, decide_eq_true_eq] at hword
        exact hc ⟨hlt, hne, hword.1, hword.2⟩
      rw [Input.line_eq_concat hne, List.rdropWhile_concat_neg _ _ _ hword,
        List.rtakeWhile_concat_neg _ _ _ hword]
      exact ⟨h, rfl, rfl, rfl, rfl⟩

/-- Where no word is at the end of the edit line, nothing is erased. -/
theorem eraseLoop_of_nil (hnil : editWord g = []) (n : ℕ) : eraseLoop n g = (g, []) := by
  cases n with
  | zero => rfl
  | succ n =>
    unfold eraseLoop
    refine if_neg fun hc => ?_
    have hword : inWord (g.get (g.e - 1)) = true := by simp [inWord, hc.2.2.1, hc.2.2.2]
    rw [editWord, Input.line_eq_concat hc.2.1, List.rtakeWhile_concat_pos _ _ _ hword] at hnil
    simp at hnil

theorem fillLoop_full (h : dist g.r g.e = 128) (cs : List UInt8) : fillLoop g cs = (g, []) := by
  cases cs with
  | nil => rfl
  | cons c cs =>
    unfold fillLoop
    exact if_neg (by omega)

/-- The loop appends the text as far as there is room, prints what it appends, and commits the
line with a last byte that fills the ring. -/
theorem fillLoop_spec : ∀ (cs : List UInt8) {g : Input}, g.Bounds → dist g.r g.e < 128 →
    (fillLoop g cs).2 = putChars (cs.take (128 - dist g.r g.e)) ∧
      (fillLoop g cs).1.r = g.r ∧
      if dist g.r g.e + cs.length < 128 then
        (fillLoop g cs).1.queue = g.queue ∧ (fillLoop g cs).1.line = g.line ++ cs
      else
        (fillLoop g cs).1.queue = g.queue ++ (g.line ++ cs.take (128 - dist g.r g.e)) ∧
          (fillLoop g cs).1.line = [] := by
  intro cs
  induction cs with
  | nil =>
    intro g _ hlt
    simp [fillLoop, putChars, hlt]
  | cons c cs ih =>
    intro g h hlt
    have hput := Input.dist_put (c := c) hlt
    have hroom : 128 - dist g.r g.e = 128 - dist (g.put c).r (g.put c).e + 1 := by omega
    unfold fillLoop
    rw [if_pos hlt, hroom, List.take_succ_cons, List.length_cons]
    dsimp only
    by_cases hfull : dist (g.put c).r (g.put c).e = 128
    · -- the byte fills the ring: the line is committed, and the loop ends
      rw [if_pos (e_eq_iff_full.mpr hfull), fillLoop_full (by simpa using hfull), hfull,
        Nat.sub_self, List.take_zero, if_neg (by omega)]
      refine ⟨rfl, rfl, ?_, Input.line_commit _⟩
      rw [Input.queue_commit (h.put hlt c), Input.queue_put h hlt c, Input.line_put h hlt c]
    · rw [if_neg fun heq => hfull (e_eq_iff_full.mp heq)]
      obtain ⟨hout, hr, hlists⟩ := ih (h.put hlt c) (by omega)
      refine ⟨congrArg (Out.putc (schar c) :: ·) hout, hr, ?_⟩
      rw [Input.queue_put h hlt c, Input.line_put h hlt c, List.append_assoc,
        List.singleton_append, List.append_assoc, List.singleton_append] at hlists
      have hcount : dist g.r g.e + (cs.length + 1) =
          dist (g.put c).r (g.put c).e + cs.length := by omega
      rw [hcount]
      exact hlists

/-! ### The completion -/

/-- The room for an entry, once the word is erased. -/
def room (g : Input) : ℕ := 128 - (dist g.r g.e - (editWord g).length)

/-- The word is replaced by `text`: as many backspaces as it has bytes and then the text are
printed; the line is committed if the text fills the ring. -/
def Replaced (g : Input) (text : List UInt8) (q : Input × List Out) : Prop :=
  q.2 = List.replicate (editWord g).length (.putc backspaceCode) ++ putChars text ∧
    q.1.r = g.r ∧
    if dist g.r g.e - (editWord g).length + text.length < 128 then
      q.1.queue = g.queue ∧ q.1.line = g.line.rdropWhile inWord ++ text
    else
      q.1.queue = g.queue ++ (g.line.rdropWhile inWord ++ text) ∧ q.1.line = []

/-- **What a completion is to do**: the word at the end of the edit line is replaced by the
first entry that it starts, as far as there is room; if it starts none, nothing happens. -/
def Completion (m : Memory) (g : Input) (v : Vars) : Prop :=
  ∃ q, autoComplete m g v = some q ∧
    match firstEntry (editWord g) with
    | some best => Replaced g (best.take (room g)) q
    | none => q = (g, [])

/-- **The word looked up leads where the word erased does**: to the same entry as far as there
is room, or to none; or nothing is to be replaced, and there is no room for anything. -/
def SameEntry (m : Memory) (g : Input) (v : Vars) : Prop :=
  match firstEntry (scanWord m g v), firstEntry (editWord g) with
  | some best, some best' => best.take (room g) = best'.take (room g)
  | some _, none => editWord g = [] ∧ dist g.r g.e = 128
  | none, some _ => False
  | none, none => True

instance (m : Memory) (g : Input) (v : Vars) : Decidable (SameEntry m g v) := by
  unfold SameEntry
  split <;> infer_instance

theorem ne_nil_of_firstEntry {word best : List UInt8} (h : firstEntry word = some best) :
    word ≠ [] ∧ best ≠ [] := by
  have hlong : ∀ best ∈ autocompleteWords, best ≠ [] := by decide
  unfold firstEntry at h
  split at h
  · contradiction
  · next hne => exact ⟨hne, hlong best (List.mem_of_find?_eq_some h)⟩

theorem schar_injective : Function.Injective schar := by
  intro a b h
  unfold schar at h
  have ha := UInt8.toNat_lt a
  have hb := UInt8.toNat_lt b
  have hmid : (0x80 : UInt8).toNat = 128 := rfl
  rw [← UInt8.toNat_inj]
  split at h <;> split at h <;> rw [UInt8.lt_iff_toNat_lt] at * <;> omega

theorem putChars_injective : Function.Injective putChars :=
  List.map_injective_iff.mpr fun _ _ h => schar_injective (Out.putc.inj h)

/-- A word to look up is there only while the counters have not gone round past zero. -/
theorem le_of_scanWord_ne_nil (h : scanWord m g v ≠ []) : g.r ≤ g.e := by
  rw [UInt32.le_iff_toNat_le]
  by_contra hlt
  have hzero : g.e.toNat - g.r.toNat = 0 := by omega
  simp [scanWord, scanned, hzero] at h

/-- **What `auto_complete` does**: it replaces the word at the end of the edit line by the entry
of the word that it looks up. -/
theorem autoComplete_spec (h : g.Bounds) :
    ∃ q, autoComplete m g v = some q ∧ match firstEntry (scanWord m g v) with
      | some best =>
          if editWord g = [] ∧ dist g.r g.e = 128 then q = (g, [])
          else Replaced g (best.take (room g)) q
      | none => q = (g, []) := by
  refine ⟨_, autoComplete_eq h, ?_⟩
  cases hbest : firstEntry (scanWord m g v) with
  | none => rfl
  | some best =>
    by_cases hno : editWord g = [] ∧ dist g.r g.e = 128
    · -- nothing to erase, and no room for the entry
      dsimp only
      rw [eraseLoop_of_nil hno.1, fillLoop_full hno.2, if_pos hno]
      rfl
    have hle := le_of_scanWord_ne_nil (ne_nil_of_firstEntry hbest).1
    obtain ⟨hbounds, hr, hqueue, hline, hout⟩ := eraseLoop_spec _ h hle rfl
    dsimp only
    rw [hout, if_neg hno]
    generalize (eraseLoop (dist g.w g.e) g).1 = g' at hbounds hr hqueue hline ⊢
    have hsplit : (g.line.rdropWhile inWord).length + (editWord g).length = g.line.length := by
      rw [editWord, ← List.length_append, List.rdropWhile_append_rtakeWhile]
    -- the ring is shorter by the word
    have hdist : dist g'.r g'.e = dist g.r g.e - (editWord g).length := by
      rw [← h.length_add, ← hbounds.length_add, hqueue, hline]
      omega
    have hlt : dist g'.r g'.e < 128 := by
      have hmax := h.e_le
      have hsum := h.length_add
      rw [← List.length_eq_zero_iff] at hno
      omega
    obtain ⟨hfill, hr', hlists⟩ := fillLoop_spec best hbounds hlt
    refine ⟨?_, hr'.trans hr, ?_⟩
    · rw [hfill, hdist]
      rfl
    · rw [hqueue, hline, hdist] at hlists
      rw [List.length_take, room]
      rw [hdist] at hlt
      split at hlists
      · next hshort =>
        rw [if_pos (by omega), List.take_of_length_le (by omega)]
        exact hlists
      · next hlong =>
        rw [if_neg (by omega)]
        exact hlists

/-- **When a completion does what it is to do**: for every ring with its indices in order, and
whatever lies around `input.buf`, just if the word that is looked up leads where the word that
is erased does. -/
theorem completion_iff (m : Memory) (g : Input) (v : Vars) (h : g.Bounds) :
    Completion m g v ↔ SameEntry m g v := by
  obtain ⟨q, hq, hdone⟩ := autoComplete_spec (m := m) (v := v) h
  have hsame : Completion m g v ↔ match firstEntry (editWord g) with
      | some best => Replaced g (best.take (room g)) q
      | none => q = (g, []) := by
    simp only [Completion, hq, Option.some.injEq, exists_eq_left']
  rw [hsame, SameEntry]
  cases hscan : firstEntry (scanWord m g v) with
  | none =>
    rw [hscan] at hdone
    dsimp only at hdone
    rw [hdone]
    cases hedit : firstEntry (editWord g) with
    | none => exact iff_of_true rfl trivial
    | some best' =>
      -- the word is to be erased, and is not
      refine iff_of_false (fun hrep => (ne_nil_of_firstEntry hedit).1 ?_) id
      have hlen := congrArg List.length hrep.1
      simp only [List.length_nil, List.length_append, List.length_replicate] at hlen
      exact List.length_eq_zero_iff.mp (by omega)
  | some best =>
    rw [hscan] at hdone
    dsimp only at hdone
    cases hedit : firstEntry (editWord g) with
    | none =>
      dsimp only
      by_cases hno : editWord g = [] ∧ dist g.r g.e = 128
      · rw [if_pos hno] at hdone
        exact iff_of_true hdone hno
      · rw [if_neg hno] at hdone
        refine iff_of_false (fun heq => hno ?_) hno
        -- were nothing printed, there would be no word to erase and no room for the entry
        have hlen := congrArg List.length hdone.1
        rw [heq] at hlen
        simp only [List.length_nil, List.length_append, List.length_replicate, putChars,
          List.length_map, List.length_take] at hlen
        have hpos := List.length_pos_iff.mpr (ne_nil_of_firstEntry hscan).2
        have hmax := h.e_le
        rw [room] at hlen
        exact ⟨List.length_eq_zero_iff.mp (by omega), by omega⟩
    | some best' =>
      dsimp only
      rw [if_neg fun hno => (ne_nil_of_firstEntry hedit).1 hno.1] at hdone
      constructor
      · intro hrep
        have hout := hdone.1.symm.trans hrep.1
        exact putChars_injective (List.append_cancel_left hout)
      · intro heq
        rw [← heq]
        exact hdone

/-- The rule for `he`, typed at boot. -/
theorem completion_he : ∃ s, Reachable Memory.zero s ∧ s.input.line = str "he" ∧
    Completion Memory.zero s.input s.vars := by
  have hrun : (Machine.run (code Memory.zero) ⟨Input.boot, Vars.boot, {}⟩ [0x68, 0x65]).map
      (fun p => (p.1.input.line, decide (SameEntry Memory.zero p.1.input p.1.vars))) =
        some (str "he", true) := by
    decide +kernel
  obtain ⟨p, hp, hsame⟩ := Option.map_eq_some_iff.mp hrun
  rw [Prod.mk.injEq, decide_eq_true_eq] at hsame
  have hreach : Reachable Memory.zero p.1 := ⟨[], _, _, p.2, rfl, hp⟩
  exact ⟨p.1, hreach, hsame.1,
    (completion_iff Memory.zero p.1.input p.1.vars (bounds_of_reachable hreach)).mpr hsame.2⟩

/-- While the line `ls` waits to be read, `he` is not completed: the word that is looked up
goes back to the `l`, over the newline. -/
theorem not_completion_ls_he : ∃ s, Reachable Memory.zero s ∧ s.input.queue = str "ls\n" ∧
    firstEntry (editWord s.input) = some (str "hello") ∧
      ¬ Completion Memory.zero s.input s.vars := by
  have hrun : (Machine.run (code Memory.zero) ⟨Input.boot, Vars.boot, {}⟩
      [0x6C, 0x73, 0x0D, 0x68, 0x65]).map (fun p => (p.1.input.queue,
        firstEntry (editWord p.1.input),
          (autoComplete Memory.zero p.1.input p.1.vars).map Prod.snd)) =
        some (str "ls\n", some (str "hello"), some []) := by
    decide +kernel
  obtain ⟨p, hp, hvalues⟩ := Option.map_eq_some_iff.mp hrun
  simp only [Prod.mk.injEq] at hvalues
  refine ⟨p.1, ⟨[], _, _, p.2, rfl, hp⟩, hvalues.1, hvalues.2.1, ?_⟩
  rintro ⟨q, hq, hrep⟩
  rw [hvalues.2.1] at hrep
  rw [hq, Option.map_some, Option.some.injEq] at hvalues
  have hlen := congrArg List.length hrep.1
  rw [hvalues.2.2, List.length_nil, List.length_append, List.length_replicate] at hlen
  exact (ne_nil_of_firstEntry hvalues.2.1).1 (List.length_eq_zero_iff.mp (by omega))

end Helpful
end Console
end Xv6
