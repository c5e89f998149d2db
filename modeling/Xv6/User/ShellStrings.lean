import Xv6.User.ShellParser

/-!
# The strings of a command

`nulterminate` writes a NUL behind every word of a command, in the line that the words are parts
of.  No word is changed, since what is behind a word is not a character of a word.

## Main definitions

* `cstring` — a NUL-terminated string of a buffer.
* `Terminated` — NULs have been written over the line, but not over its words.

## Main results

* `wp_nulterminate` — the NULs are written, inside of the buffer.
* `parsecmd_grammar` — **a command is returned if and only if the line stands for it.**
* `parsecmd_strings` — **its strings are the words of the line.**
-/

namespace Xv6
namespace Shell

open Prog

/-- The string at `p`, up to the NUL. -/
def cstring (buf : List UInt8) (p : ℕ) : List UInt8 := (buf.drop p).takeWhile (· ≠ 0)

/-- The line with its NUL, and more NULs where no word is. -/
structure Terminated (text buf : List UInt8) : Prop where
  length : buf.length = text.length + 1
  get : ∀ i : ℕ, buf[i]? = (text ++ [0])[i]? ∨
    buf[i]? = some 0 ∧ ∀ c, text[i]? = some c → isWord c = false

/-- A NUL is behind the string. -/
def EndsAt (buf : List UInt8) (w : Span) : Prop := buf[w.2]? = some 0

/-- The NULs are still there. -/
def MoreNuls (buf buf' : List UInt8) : Prop :=
  ∀ i : ℕ, buf[i]? = some 0 → buf'[i]? = some 0

section Nulterminate

variable {text buf : List UInt8} {w : Span}

theorem terminated_init (text : List UInt8) : Terminated text (text ++ [0]) :=
  ⟨by rw [List.length_append, List.length_singleton], fun _ => .inl rfl⟩

/-- The characters of a word. -/
theorem WordAt.get (h : WordAt text w) {i : ℕ} (hi : i < w.2 - w.1) :
    ∃ c, text[w.1 + i]? = some c ∧ isWord c = true := by
  have hlt : w.1 + i < text.length := by
    have hle := h.le
    omega
  refine ⟨text[w.1 + i], List.getElem?_eq_getElem hlt, (h.word.2 _ ?_).1⟩
  refine List.mem_iff_getElem?.mpr ⟨i, ?_⟩
  rw [textOf, List.getElem?_take_of_lt hi, List.getElem?_drop, List.getElem?_eq_getElem hlt]

/-- **A word with a NUL behind it is read back.** -/
theorem Terminated.cstring_eq (h : Terminated text buf) (hw : WordAt text w)
    (hend : EndsAt buf w) : cstring buf w.1 = textOf text w := by
  have hle : w.1 ≤ w.2 := by
    by_contra hgt
    refine hw.word.1 ?_
    rw [textOf, Nat.sub_eq_zero_of_le (not_le.mp hgt).le, List.take_zero]
  have htake : (buf.drop w.1).take (w.2 - w.1) = textOf text w := by
    refine List.ext_getElem? fun i => ?_
    rcases Nat.lt_or_ge i (w.2 - w.1) with hi | hi
    · obtain ⟨c, hc, hword⟩ := hw.get hi
      rw [textOf, List.getElem?_take_of_lt hi, List.getElem?_take_of_lt hi, List.getElem?_drop,
        List.getElem?_drop]
      rcases h.get (w.1 + i) with heq | ⟨-, hnot⟩
      · rw [heq, List.getElem?_append_left (List.getElem?_eq_some_iff.mp hc).1]
      · rw [hnot c hc] at hword
        cases hword
    · rw [textOf, List.getElem?_take_eq_none hi, List.getElem?_take_eq_none hi]
  have hdrop : (buf.drop w.1).drop (w.2 - w.1) = 0 :: buf.drop (w.2 + 1) := by
    obtain ⟨hlt, hget⟩ := List.getElem?_eq_some_iff.mp hend
    rw [List.drop_drop, Nat.add_sub_cancel' hle, List.drop_eq_getElem_cons hlt, hget]
  have hne : ∀ c ∈ textOf text w, decide (c ≠ 0) = true := fun c hc =>
    decide_eq_true (hw.word.2 c hc).2
  rw [cstring, ← List.take_append_drop (w.2 - w.1) (buf.drop w.1), htake, hdrop,
    List.takeWhile_append_of_pos hne, List.takeWhile_cons_of_neg (by decide), List.append_nil]

/-- A NUL behind a word. -/
theorem wp_poke (h : Terminated text buf) (hw : WordAt text w) :
    wp (poke w.2) (fun _ => False) (fun _ buf' => Terminated text buf' ∧ MoreNuls buf buf' ∧
      EndsAt buf' w) buf := by
  have hlt : w.2 < buf.length := by
    rw [h.length]
    exact Nat.lt_succ_of_le hw.le
  have hnul : (buf.set w.2 0)[w.2]? = some 0 := List.getElem?_set_self hlt
  rw [poke, wp_bind, wp_get, if_pos hlt, wp_set]
  refine ⟨⟨by rw [List.length_set, h.length], fun i => ?_⟩, fun i hi => ?_, hnul⟩
  · rcases eq_or_ne w.2 i with rfl | hne
    · exact .inr ⟨hnul, hw.stop⟩
    · rw [List.getElem?_set_ne hne]
      exact h.get i
  · rcases eq_or_ne w.2 i with rfl | hne
    · exact hnul
    · rw [List.getElem?_set_ne hne]
      exact hi

theorem Cmd.All.imp {W : Type} {P Q : W → Prop} (hPQ : ∀ w, P w → Q w) :
    ∀ {c : Cmd W}, c.All P → c.All Q
  | .exec _, h => fun w hw => hPQ w (h w hw)
  | .redir _ _ _ _, h => ⟨h.1.imp hPQ, hPQ _ h.2⟩
  | .pipe _ _, h => ⟨h.1.imp hPQ, h.2.imp hPQ⟩
  | .list _ _, h => ⟨h.1.imp hPQ, h.2.imp hPQ⟩
  | .back c, h => Cmd.All.imp (c := c) hPQ h

theorem Cmd.All.and {W : Type} {P Q : W → Prop} :
    ∀ {c : Cmd W}, c.All P → c.All Q → c.All fun w => P w ∧ Q w
  | .exec _, h, h' => fun w hw => ⟨h w hw, h' w hw⟩
  | .redir _ _ _ _, h, h' => ⟨h.1.and h'.1, h.2, h'.2⟩
  | .pipe _ _, h, h' => ⟨h.1.and h'.1, h.2.and h'.2⟩
  | .list _ _, h, h' => ⟨h.1.and h'.1, h.2.and h'.2⟩
  | .back c, h, h' => Cmd.All.and (c := c) h h'

theorem Cmd.map_congr {V W : Type} {f g : V → W} :
    ∀ {c : Cmd V}, (c.All fun v => f v = g v) → c.map f = c.map g
  | .exec _, h => congrArg Cmd.exec (List.map_congr_left h)
  | .redir _ _ _ _, h => by rw [Cmd.map, Cmd.map, Cmd.map_congr h.1, h.2]
  | .pipe _ _, h => by rw [Cmd.map, Cmd.map, Cmd.map_congr h.1, Cmd.map_congr h.2]
  | .list _ _, h => by rw [Cmd.map, Cmd.map, Cmd.map_congr h.1, Cmd.map_congr h.2]
  | .back c, h => congrArg Cmd.back (Cmd.map_congr (c := c) h)

/-- From `buf` to `buf'` the strings of the command have been ended. -/
structure Ended (text : List UInt8) (cmd : Cmd Span) (buf buf' : List UInt8) : Prop where
  terminated : Terminated text buf'
  more : MoreNuls buf buf'
  all : cmd.All (EndsAt buf')

/-- One command after another. -/
theorem Ended.both {c₁ c₂ : Cmd Span} {buf₁ buf₂ : List UInt8} (h₁ : Ended text c₁ buf buf₁)
    (h₂ : Ended text c₂ buf₁ buf₂) : Terminated text buf₂ ∧ MoreNuls buf buf₂ ∧
      c₁.All (EndsAt buf₂) ∧ c₂.All (EndsAt buf₂) :=
  ⟨h₂.terminated, fun i hi => h₂.more i (h₁.more i hi), h₁.all.imp fun (w : Span) => h₂.more w.2,
    h₂.all⟩

/-- **Every string of the command is ended**, inside of the buffer. -/
theorem wp_nulterminate (cmd : Cmd Span) : ∀ {buf : List UInt8}, Terminated text buf →
    cmd.All (WordAt text) →
      wp (nulterminate cmd) (fun _ => False) (fun _ => Ended text cmd buf) buf := by
  induction cmd with
  | exec argv =>
    intro buf h hw
    rw [nulterminate]
    have hrun := wp_forM (E := fun _ => False) (f := fun w : Span => poke w.2)
      (fun done buf' => Ended text (.exec done) buf buf') argv ⟨h, fun _ => id, nofun⟩ ?_
    · exact hrun
    · rintro done w rest rfl buf₁ h₁
      refine wp_imp (wp_poke h₁.terminated (hw w (List.mem_append_right _ List.mem_cons_self))) ?_
      rintro _ buf₂ ⟨h₂, hmore, hend⟩
      refine ⟨h₂, fun i hi => hmore i (h₁.more i hi), ?_⟩
      rw [Cmd.All, List.forall_mem_append, List.forall_mem_singleton]
      exact ⟨fun v hv => hmore v.2 (h₁.all v hv), hend⟩
  | redir cmd file mode fd ih =>
    intro buf h hw
    rw [nulterminate, wp_bind]
    refine wp_imp (ih h hw.1) fun _ buf₁ h₁ => ?_
    refine wp_imp (wp_poke h₁.terminated hw.2) ?_
    rintro _ buf₂ ⟨h₂, hmore, hend⟩
    exact ⟨h₂, fun i hi => hmore i (h₁.more i hi), h₁.all.imp fun (w : Span) => hmore w.2, hend⟩
  | pipe left right ihl ihr =>
    intro buf h hw
    rw [nulterminate, wp_bind]
    refine wp_imp (ihl h hw.1) fun _ buf₁ h₁ => ?_
    refine wp_imp (ihr h₁.terminated hw.2) fun _ buf₂ h₂ => ?_
    obtain ⟨hterm, hmore, hall⟩ := h₁.both h₂
    exact ⟨hterm, hmore, hall⟩
  | list left right ihl ihr =>
    intro buf h hw
    rw [nulterminate, wp_bind]
    refine wp_imp (ihl h hw.1) fun _ buf₁ h₁ => ?_
    refine wp_imp (ihr h₁.terminated hw.2) fun _ buf₂ h₂ => ?_
    obtain ⟨hterm, hmore, hall⟩ := h₁.both h₂
    exact ⟨hterm, hmore, hall⟩
  | back cmd ih =>
    intro buf h hw
    rw [nulterminate]
    exact wp_imp (ih h hw) fun _ buf' h' => ⟨h'.terminated, h'.more, h'.all⟩

end Nulterminate

/-! ### The command and its strings -/

section Parsecmd

variable {text : List UInt8}

/-- What `parsecmd` returns. -/
theorem parsecmd_cases (hzero : 0 ∉ text) :
    (∃ msg, parsecmd text = .error (.panic msg) ∧ parsetree text 0 = .error (.panic msg)) ∨
    ∃ cmd buf s', parsecmd text = .ok (cmd, buf) ∧ parsetree text 0 = .ok (cmd, s') ∧
      IsLine (lex text) (cmd.map (textOf text)) ∧ cmd.All (WordAt text) ∧
        Ended text cmd (text ++ [0]) buf := by
  have hsound := sound_parsetree hzero
  rw [parsecmd]
  cases htree : parsetree text 0 with
  | error e =>
    obtain ⟨msg, rfl⟩ := wp_error hsound htree
    exact .inl ⟨msg, rfl, rfl⟩
  | ok r =>
    obtain ⟨hline, hwords⟩ := wp_ok hsound htree
    obtain ⟨u, buf, hnul, hend⟩ := exists_of_wp
      (wp_nulterminate r.1 (terminated_init text) hwords)
    refine .inr ⟨r.1, buf, r.2, ?_, rfl, hline, hwords, hend⟩
    change (nulterminate r.1 (text ++ [0]) >>= fun p => pure (r.1, p.2)) = _
    rw [hnul]
    rfl

/-- **The parser implements its grammar**: it returns or panics, a command is returned if and only
if the line stands for it, and what is printed for a command is read as that command. -/
theorem parsecmd_grammar (text : List UInt8) (hzero : 0 ∉ text) :
    ((∃ cmd buf, parsecmd text = .ok (cmd, buf)) ∨ ∃ msg, parsecmd text = .error (.panic msg)) ∧
    ∀ t : Tree,
      ((∃ cmd buf, parsecmd text = .ok (cmd, buf) ∧ cmd.map (textOf text) = t) ↔
        IsLine (lex text) t) ∧
      (IsLine (lex text) t → 0 ∉ unlex (print 0 t) ∧
        ∃ cmd buf, parsecmd (unlex (print 0 t)) = .ok (cmd, buf) ∧
          cmd.map (textOf (unlex (print 0 t))) = t) := by
  -- every line is accepted
  have hcomplete : ∀ (text : List UInt8) (t : Tree), 0 ∉ text → IsLine (lex text) t →
      ∃ cmd buf, parsecmd text = .ok (cmd, buf) ∧ cmd.map (textOf text) = t := by
    intro text t hzero ht
    obtain ⟨cmd, s', htree, hmap⟩ := exists_of_wp (complete_parsetree hzero ht)
    rcases parsecmd_cases hzero with ⟨msg, -, herr⟩ | ⟨cmd', buf, s'', hok, htree', -⟩
    · rw [htree] at herr
      cases herr
    · rw [htree] at htree'
      cases htree'
      exact ⟨cmd, buf, hok, hmap⟩
  refine ⟨?_, fun t => ⟨⟨?_, hcomplete text t hzero⟩, fun ht => ?_⟩⟩
  · rcases parsecmd_cases hzero with ⟨msg, herr, -⟩ | ⟨cmd, buf, -, hok, -⟩
    · exact .inr ⟨msg, herr⟩
    · exact .inl ⟨cmd, buf, hok⟩
  · rintro ⟨cmd, buf, hok, rfl⟩
    rcases parsecmd_cases hzero with ⟨msg, herr, -⟩ | ⟨cmd', buf', -, hok', -, hline, -⟩
    · rw [hok] at herr
      cases herr
    · rw [hok] at hok'
      cases hok'
      exact hline
  · have hvalid := ht.valid (valid_of_mem_lex text hzero)
    have htoks := valid_of_mem_print t 0 hvalid
    have hprint : IsLine (lex (unlex (print 0 t))) t := by
      rw [lex_unlex _ htoks]
      exact prints_print t 0 hvalid
    exact ⟨notMem_unlex _ htoks, hcomplete _ t (notMem_unlex _ htoks) hprint⟩

/-- A pipe into a command with a redirection. -/
theorem parsecmd_grammar_pipe : IsLine (lex (str "a |b<c"))
    (.pipe (.exec [str "a"]) (.redir (.exec [str "b"]) (str "c") oRdonly 0)) :=
  ((parsecmd_grammar (str "a |b<c") (by decide +kernel)).2 _).1.mp
    ⟨.pipe (.exec [(0, 1)]) (.redir (.exec [(3, 4)]) (5, 6) oRdonly 0),
      [97, 0, 0x7c, 98, 0, 99, 0], by decide +kernel, by decide +kernel⟩

/-- **`gettoken` stays in the line.** -/
theorem wp_gettoken_le (hzero : 0 ∉ text) {s : ℕ} (hs : s ≤ text.length) :
    wp (gettoken text) (fun _ => False) (fun r s' => r.2.1 ≤ r.2.2 ∧ r.2.2 ≤ s' ∧
      s' ≤ text.length) s := by
  rw [gettoken, wp_bind, wp_get, wp_bind]
  refine wp_read_scan hzero hs (fun hq _ => ?_) fun c hlt _ hne _ => ?_
  · rw [if_pos rfl, wp_bind, wp_pure, wp_bind, wp_set, hq, scan_length]
    exact ⟨le_rfl, le_rfl, le_rfl⟩
  · generalize scan text isSpace s = q at hlt ⊢
    have hrest : ∀ eq, q ≤ eq → eq ≤ text.length →
        q ≤ eq ∧ eq ≤ scan text isSpace eq ∧ scan text isSpace eq ≤ text.length :=
      fun eq hle hlen => ⟨hle, (scan_spec isSpace hlen).1, (scan_spec isSpace hlen).2.1⟩
    rw [if_neg hne, wp_ite]
    refine ⟨fun _ => ?_, fun _ => ?_⟩
    · rw [wp_bind, wp_pure, wp_bind, wp_set]
      exact hrest (q + 1) (Nat.le_succ q) hlt
    rw [wp_ite]
    refine ⟨fun _ => ?_, fun _ => ?_⟩
    · rw [read_eq hlt, wp_bind, wp_pure, wp_ite]
      refine ⟨fun hd => ?_, fun _ => ?_⟩
      · -- the second `>` is not the NUL
        have hlt' : q + 1 < text.length := by
          by_contra hge
          rw [List.getElem?_eq_none (not_lt.mp hge), Option.getD_none] at hd
          exact absurd hd (by decide)
        rw [wp_bind, wp_pure, wp_bind, wp_set]
        exact hrest (q + 2) (by omega) hlt'
      · rw [wp_bind, wp_pure, wp_bind, wp_set]
        exact hrest (q + 1) (Nat.le_succ q) hlt
    · obtain ⟨hle, hlen, -⟩ := scan_spec isWord hlt.le
      rw [wp_bind, wp_pure, wp_bind, wp_set]
      exact hrest _ hle hlen

/-- **`peek` stays in the line.** -/
theorem wp_peek_le (hzero : 0 ∉ text) (toks : List UInt8) {s : ℕ} (hs : s ≤ text.length) :
    wp (peek text toks) (fun _ => False) (fun _ s' => s' ≤ text.length) s := by
  have hle := (scan_spec isSpace hs).2.1
  rw [peek, wp_bind, wp_get, wp_bind, wp_set, wp_bind]
  exact wp_read_scan hzero hs (fun _ _ => hle) fun _ _ _ _ _ => hle

/-- **The strings of a command are the words of its line**, each read up to its NUL; the NULs are
written inside of the buffer, and no token is read behind the end of the line. -/
theorem parsecmd_strings (text : List UInt8) (hzero : 0 ∉ text) :
    parsecmd text ≠ .error .fault ∧
    (∀ cmd buf, parsecmd text = .ok (cmd, buf) →
      buf.length = text.length + 1 ∧ IsLine (lex text) (cmd.map fun w => cstring buf w.1) ∧
        cmd.All fun w => WordAt text w ∧ EndsAt buf w ∧
          cstring buf w.1 = textOf text w) ∧
    ∀ s ≤ text.length,
      (∃ tok w s', gettoken text s = .ok ((tok, w), s') ∧ w.1 ≤ w.2 ∧ w.2 ≤ s' ∧
        s' ≤ text.length) ∧
      ∀ toks, ∃ b s', peek text toks s = .ok (b, s') ∧ s' ≤ text.length := by
  refine ⟨fun hfault => ?_, fun cmd buf hok => ?_, fun s hs => ⟨?_, fun toks => ?_⟩⟩
  · rcases parsecmd_cases hzero with ⟨msg, herr, -⟩ | ⟨cmd, buf, -, hok, -⟩
    · rw [hfault] at herr
      cases herr
    · rw [hfault] at hok
      cases hok
  · rcases parsecmd_cases hzero with ⟨msg, herr, -⟩ | ⟨cmd', buf', -, hok', -, hline, hwords, hend⟩
    · rw [hok] at herr
      cases herr
    · rw [hok] at hok'
      cases hok'
      have hstrings := (hwords.and hend.all).imp (Q := fun w => cstring buf w.1 = textOf text w)
        fun w hw => hend.terminated.cstring_eq hw.1 hw.2
      refine ⟨hend.terminated.length, ?_, hwords.and (hend.all.and hstrings)⟩
      rw [Cmd.map_congr hstrings]
      exact hline
  · obtain ⟨⟨tok, w⟩, s', hrun, hw, hle, hlen⟩ := exists_of_wp (wp_gettoken_le hzero hs)
    exact ⟨tok, w, s', hrun, hw, hle, hlen⟩
  · exact exists_of_wp (wp_peek_le hzero toks hs)

/-- The NUL behind the first word is written over the operator. -/
theorem parsecmd_strings_redir :
    (Cmd.redir (.exec [(0, 1)]) (2, 3) (oWronly ||| oCreate) 1).All fun w =>
      WordAt (str "a>b") w ∧ EndsAt [97, 0, 98, 0] w ∧
        cstring [97, 0, 98, 0] w.1 = textOf (str "a>b") w :=
  ((parsecmd_strings (str "a>b") (by decide +kernel)).2.1
    (.redir (.exec [(0, 1)]) (2, 3) (oWronly ||| oCreate) 1) [97, 0, 98, 0]
    (by decide +kernel)).2.2

end Parsecmd

end Shell
end Xv6
