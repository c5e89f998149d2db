import Xv6.User.ShellGrammar

/-!
# The parser of the shell is right

The parser accepts the lines of the grammar, and gives the commands that they stand for.

## Main definitions

* `WordAt` — a span that is a word of the line.

## Main results

* `wp_gettoken`, `wp_peek` — the functions read the tokens of the line.
* `sound_parse` — the parser returns or panics, and what it has read is a line.
* `complete_parse` — it reads every line that only `)` follows.
* `sound_parsetree`, `complete_parsetree` — **a command is returned if and only if the line stands
  for it.**
-/

namespace Xv6
namespace Shell

open Prog

/-! ### Tokens -/

/-- The text of a span. -/
def textOf (text : List UInt8) (w : Span) : List UInt8 := (text.drop w.1).take (w.2 - w.1)

/-- A word of the line. -/
structure WordAt (text : List UInt8) (w : Span) : Prop where
  le : w.2 ≤ text.length
  word : Word (textOf text w)
  stop : ∀ c, text[w.2]? = some c → isWord c = false

/-- What `gettoken` returns. -/
def Token.code : Token → UInt8
  | sym c => c
  | append => '+'.toUInt8
  | word _ => 'a'.toUInt8

theorem code_word (w : List UInt8) : ¬(Token.word w).code ≠ 'a'.toUInt8 := not_not.mpr rfl

theorem code_word_ne_zero (w : List UInt8) : (Token.word w).code ≠ 0 := by
  rw [Token.code]
  decide

theorem Token.Valid.code_ne_zero {tok : Token} (h : tok.Valid) : tok.code ≠ 0 := by
  cases tok with
  | sym c => exact (of_mem_symbols h).2.2
  | append => decide
  | word w => exact code_word_ne_zero w

/-- A token is a word, or `gettoken` returns something else. -/
theorem Token.Valid.word_or {tok : Token} (h : tok.Valid) :
    (∃ v, tok = .word v) ∨ tok.code ≠ 'a'.toUInt8 := by
  cases tok with
  | sym c =>
    have ha : 'a'.toUInt8 ∉ symbols := by decide
    exact .inr (ne_of_mem_of_not_mem (show c ∈ symbols from h) ha)
  | append => exact .inr (by decide)
  | word w => exact .inl ⟨w, rfl⟩

/-- The first token starts with one of the characters. -/
def starts (toks : List UInt8) : List Token → Bool
  | .sym c :: _ => toks.contains c
  | .append :: _ => toks.contains '>'.toUInt8
  | _ => false

@[simp] theorem starts_nil (toks : List UInt8) : starts toks [] = false := rfl

@[simp] theorem starts_word (toks w : List UInt8) (ts : List Token) :
    starts toks (.word w :: ts) = false := rfl

@[simp] theorem starts_sym (toks : List UInt8) (c : UInt8) (ts : List Token) :
    starts toks (.sym c :: ts) = toks.contains c := rfl

section Tokens

variable {text : List UInt8} {s : ℕ} {E : Stop → Prop}

/-- What a loop of `gettoken` stops at. -/
theorem scan_spec (p : UInt8 → Bool) (hs : s ≤ text.length) :
    s ≤ scan text p s ∧ scan text p s ≤ text.length ∧
      text.drop (scan text p s) = (text.drop s).dropWhile p ∧
      textOf text (s, scan text p s) = (text.drop s).takeWhile p := by
  induction s using scan.induct text p with
  | case1 s c hc hp ih =>
    obtain ⟨hlt, rfl⟩ := List.getElem?_eq_some_iff.mp hc
    have hscan : scan text p s = scan text p (s + 1) := by
      rw [scan]
      split
      · next d hd =>
        rw [hc, Option.some.injEq] at hd
        rw [← hd, if_pos hp]
      · next hd => rw [hc] at hd; cases hd
    obtain ⟨hle, hend, hdrop, htake⟩ := ih hlt
    have hcons := List.drop_eq_getElem_cons hlt
    refine ⟨by omega, hscan ▸ hend, ?_, ?_⟩
    · rw [hscan, hdrop, hcons, List.dropWhile_cons_of_pos hp]
    · rw [textOf] at htake ⊢
      rw [hscan, hcons, List.takeWhile_cons_of_pos hp, ← htake,
        show scan text p (s + 1) - s = scan text p (s + 1) - (s + 1) + 1 by omega,
        List.take_succ_cons]
  | case2 s c hc hp =>
    obtain ⟨hlt, rfl⟩ := List.getElem?_eq_some_iff.mp hc
    have hscan : scan text p s = s := by
      rw [scan]
      split
      · next d hd =>
        rw [hc, Option.some.injEq] at hd
        rw [← hd, if_neg hp]
      · rfl
    have hcons := List.drop_eq_getElem_cons hlt
    rw [hscan, textOf, hcons, List.dropWhile_cons_of_neg hp, List.takeWhile_cons_of_neg hp,
      Nat.sub_self]
    exact ⟨le_rfl, hs, rfl, rfl⟩
  | case3 s hnone =>
    have hlen := List.getElem?_eq_none_iff.mp hnone
    have hscan : scan text p s = s := by
      rw [scan]
      split
      · next d hd => rw [hnone] at hd; cases hd
      · rfl
    rw [hscan, textOf, List.drop_eq_nil_of_le hlen]
    exact ⟨le_rfl, hs, rfl, by simp⟩

/-- Where a loop stops. -/
theorem scan_stop (p : UInt8 → Bool) (hs : s ≤ text.length) :
    ∀ c, text[scan text p s]? = some c → p c = false := by
  intro c hc
  obtain ⟨hlt, rfl⟩ := List.getElem?_eq_some_iff.mp hc
  have hdrop := (scan_spec p hs).2.2.1
  rw [List.drop_eq_getElem_cons hlt] at hdrop
  have hnot := List.head?_dropWhile_not p (text.drop s)
  rw [← hdrop] at hnot
  exact hnot

theorem lex_scan (hs : s ≤ text.length) :
    lex (text.drop (scan text isSpace s)) = lex (text.drop s) := by
  rw [(scan_spec isSpace hs).2.2.1, lex_dropWhile]

theorem scan_length (p : UInt8 → Bool) : scan text p text.length = text.length :=
  le_antisymm (scan_spec p le_rfl).2.1 (scan_spec p le_rfl).1

theorem read_eq (hs : s ≤ text.length) : read text s = pure (text[s]?.getD 0) := by
  rw [read]
  rcases Nat.lt_or_ge s text.length with hlt | hge
  · rw [List.getElem?_append_left hlt, List.getElem?_eq_getElem hlt, Option.getD_some]
  · obtain rfl := le_antisymm hs hge
    rw [List.getElem?_append_right le_rfl, Nat.sub_self, List.getElem?_eq_none le_rfl,
      Option.getD_none]
    rfl

/-- The character behind white space: the NUL, or the first one of a token. -/
theorem wp_read_scan {Q : UInt8 → ℕ → Prop} {t : ℕ} (hzero : 0 ∉ text) (hs : s ≤ text.length)
    (hend : scan text isSpace s = text.length → lex (text.drop s) = [] → Q 0 t)
    (hchar : ∀ c, scan text isSpace s < text.length → isSpace c = false → c ≠ 0 →
      text.drop (scan text isSpace s) = c :: text.drop (scan text isSpace s + 1) → Q c t) :
    wp (read text (scan text isSpace s)) E Q t := by
  obtain ⟨-, hle, -, -⟩ := scan_spec isSpace hs
  have hlex := lex_scan hs
  have hstop := scan_stop isSpace hs
  generalize scan text isSpace s = q at hle hlex hstop hend hchar ⊢
  rw [read_eq hle, wp_pure]
  rcases Nat.lt_or_ge q text.length with hlt | hge
  · rw [List.getElem?_eq_getElem hlt]
    exact hchar _ hlt (hstop _ (List.getElem?_eq_getElem hlt))
      (ne_of_mem_of_not_mem (List.getElem_mem hlt) hzero) (List.drop_eq_getElem_cons hlt)
  · obtain rfl := le_antisymm hle hge
    rw [List.getElem?_eq_none le_rfl]
    refine hend rfl ?_
    rw [← hlex, List.drop_length, lex_nil]

theorem starts_singleton {c : UInt8} {ts : List Token} (hc : c ≠ '>'.toUInt8) :
    starts [c] ts = true ↔ ∃ ts', ts = .sym c :: ts' := by
  constructor
  · intro h
    match ts, h with
    | .sym d :: ts, h =>
      rw [starts, List.contains_eq_mem, decide_eq_true_eq, List.mem_singleton] at h
      exact ⟨ts, by rw [h]⟩
    | .append :: ts, h =>
      rw [starts, List.contains_eq_mem, decide_eq_true_eq, List.mem_singleton] at h
      exact absurd h.symm hc
  · rintro ⟨ts, rfl⟩
    simp [starts]

/-- An operator of a redirection is next. -/
theorem isOp_of_starts {ts : List Token} (h : starts ['<'.toUInt8, '>'.toUInt8] ts = true) :
    ∃ op mode fd ts', ts = op :: ts' ∧ IsOp op mode fd := by
  match ts, h with
  | .sym d :: ts, h =>
    rw [starts, List.contains_eq_mem, decide_eq_true_eq, List.mem_pair] at h
    rcases h with rfl | rfl
    · exact ⟨_, _, _, ts, rfl, .lt⟩
    · exact ⟨_, _, _, ts, rfl, .gt⟩
  | .append :: ts, _ => exact ⟨_, _, _, ts, rfl, .append⟩

theorem redircmd_code {op : Token} {mode fd : ℕ} (h : IsOp op mode fd) (cmd : Cmd Span) (w : Span) :
    redircmd cmd op.code w = .redir cmd w mode fd := by
  cases h with
  | lt => rw [redircmd, Token.code, if_pos rfl]
  | gt => rw [redircmd, Token.code, if_neg (by decide), if_pos rfl]
  | append => rw [redircmd, Token.code, if_neg (by decide), if_neg (by decide), if_pos rfl]

/-- **The rule of `peek`.** -/
theorem wp_peek {toks : List UInt8} {Q : Bool → ℕ → Prop} (hzero : 0 ∉ text)
    (htoks : ∀ c ∈ toks, c ∈ symbols) (hs : s ≤ text.length)
    (hQ : ∀ s', s ≤ s' → s' ≤ text.length → lex (text.drop s') = lex (text.drop s) →
      (s' = text.length ↔ lex (text.drop s) = []) → Q (starts toks (lex (text.drop s))) s') :
    wp (peek text toks) E Q s := by
  obtain ⟨hle, hlen, -, -⟩ := scan_spec isSpace hs
  have hlex := lex_scan hs
  rw [peek, wp_bind, wp_get, wp_bind, wp_set, wp_bind]
  refine wp_read_scan hzero hs (fun hq hnil => ?_) fun c hlt hspace hne hdrop => ?_
  · have hres := hQ _ hle hlen hlex (iff_of_true hq hnil)
    rw [hnil] at hres
    rw [wp_pure]
    exact hres
  · have hres := hQ _ hle hlen hlex
    rw [hdrop] at hlex
    rw [← hlex] at hres
    rw [wp_pure, decide_eq_true hne, Bool.true_and]
    rcases lex_cases (text.drop (scan text isSpace s + 1)) hspace with
      ⟨hw, hcons⟩ | ⟨rfl, cs', hcs, hcons⟩ | ⟨-, -, hcons⟩
    · have hnot : toks.contains c = false := by
        rw [List.contains_eq_mem, decide_eq_false_iff_not]
        intro hmem
        have hsym := (of_mem_symbols (htoks c hmem)).2.1
        rw [hw] at hsym
        cases hsym
      rw [hnot]
      rw [hcons] at hres
      exact hres (iff_of_false (by omega) (List.cons_ne_nil _ _))
    · rw [hcons] at hres
      exact hres (iff_of_false (by omega) (List.cons_ne_nil _ _))
    · rw [hcons] at hres
      exact hres (iff_of_false (by omega) (List.cons_ne_nil _ _))

/-- **The rule of `gettoken`.** -/
theorem wp_gettoken {Q : UInt8 × Span → ℕ → Prop} (hzero : 0 ∉ text) (hs : s ≤ text.length)
    (hend : ∀ w, lex (text.drop s) = [] → Q (0, w) text.length)
    (htok : ∀ tok w s', lex (text.drop s) = tok :: lex (text.drop s') → s < s' →
      s' ≤ text.length → tok.Valid → (∀ v, tok = .word v → WordAt text w ∧ textOf text w = v) →
        Q (tok.code, w) s') : wp (gettoken text) E Q s := by
  obtain ⟨hle, hlen, -, -⟩ := scan_spec isSpace hs
  have hlex := lex_scan hs
  have hvalid := valid_of_mem_lex (text.drop s) fun h => hzero (List.mem_of_mem_drop h)
  rw [gettoken, wp_bind, wp_get, wp_bind]
  refine wp_read_scan hzero hs (fun hq hnil => ?_) fun c hlt hspace hne hdrop => ?_
  · rw [if_pos rfl, wp_bind, wp_pure, wp_bind, wp_set, hq, scan_length]
    exact hend _ hnil
  · rw [hdrop] at hlex
    generalize scan text isSpace s = q at hle hlen hlt hdrop hlex
    -- behind the token
    have hrest : ∀ (tok : Token) (w : Span), q < w.2 → w.2 ≤ text.length →
        lex (c :: text.drop (q + 1)) = tok :: lex (text.drop w.2) →
        (∀ v, tok = .word v → WordAt text w ∧ textOf text w = v) →
          Q (tok.code, w) (scan text isSpace w.2) := by
      intro tok w hqw hw hcons hword
      have hscan := scan_spec isSpace hw
      have hmem : tok ∈ lex (text.drop s) := by
        rw [← hlex, hcons]
        exact List.mem_cons_self
      refine htok tok w _ ?_ (by omega) hscan.2.1 (hvalid tok hmem) hword
      rw [lex_scan hw, ← hlex, hcons]
    rw [if_neg hne]
    rcases lex_cases (text.drop (q + 1)) hspace with
      ⟨hw, hcons⟩ | ⟨rfl, cs', hcs, hcons⟩ | ⟨hsym, hgt, hcons⟩
    · have hnot : c ∉ symbols := fun hc => by
        rw [(of_mem_symbols hc).2.1] at hw
        cases hw
      simp only [symbols, List.mem_cons, List.not_mem_nil, or_false, not_or] at hnot
      obtain ⟨hq₁, hq₂, hq₃, hq₄⟩ := scan_spec isWord hlt.le
      rw [hdrop, List.dropWhile_cons_of_pos hw] at hq₃
      rw [hdrop, List.takeWhile_cons_of_pos hw] at hq₄
      have hstop := scan_stop isWord hlt.le
      rw [← hq₃, ← hq₄] at hcons
      have hword : Word (textOf text (q, scan text isWord q)) := by
        refine hvalid (.word _) ?_
        rw [← hlex, hcons]
        exact List.mem_cons_self
      have hqq : q < scan text isWord q := by
        by_contra hge
        refine hword.1 ?_
        rw [textOf, Nat.sub_eq_zero_of_le (not_lt.mp hge), List.take_zero]
      rw [if_neg (by tauto), if_neg hnot.2.2.1, wp_bind, wp_pure, wp_bind, wp_set, wp_pure]
      exact hrest (.word _) (q, scan text isWord q) hqq hq₂ hcons fun v hv =>
        ⟨⟨hq₂, hword, hstop⟩, Token.word.inj hv⟩
    · have hlt' : q + 1 < text.length := by
        have hlength := congrArg List.length hcs
        rw [List.length_drop, List.length_cons] at hlength
        omega
      have hd : text[q + 1]? = some '>'.toUInt8 := by
        rw [← List.head?_drop, hcs, List.head?_cons]
      have hdrop' : text.drop (q + 2) = cs' := by
        rw [show q + 2 = q + 1 + 1 from rfl, ← List.tail_drop, hcs, List.tail_cons]
      rw [if_neg (by decide), if_pos rfl, read_eq hlt'.le, wp_bind, wp_pure, hd,
        Option.getD_some, if_pos rfl, wp_bind, wp_pure, wp_bind, wp_set, wp_pure]
      exact hrest .append (q, q + 2) (by dsimp only; omega) hlt' (by rw [hcons, hdrop'])
        fun v hv => by cases hv
    · by_cases hc : c = '>'.toUInt8
      · -- what follows is not another one
        have hd : ¬text[q + 1]?.getD 0 = '>'.toUInt8 := fun hd => by
          refine hgt ⟨hc, ?_⟩
          rw [List.head?_drop]
          cases hq : text[q + 1]? with
          | none =>
            rw [hq, Option.getD_none] at hd
            exact absurd hd (by decide)
          | some d =>
            rw [hq, Option.getD_some] at hd
            rw [hd]
        rw [if_neg (by rw [hc]; decide), if_pos hc, read_eq hlt, wp_bind, wp_pure,
          if_neg hd, wp_bind, wp_pure, wp_bind, wp_set, wp_pure]
        exact hrest (.sym c) (q, q + 1) (Nat.lt_succ_self q) hlt hcons fun v hv => by cases hv
      · simp only [symbols, List.mem_cons, List.not_mem_nil, or_false] at hsym
        rw [if_pos (by tauto), wp_bind, wp_pure, wp_bind, wp_set, wp_pure]
        exact hrest (.sym c) (q, q + 1) (Nat.lt_succ_self q) hlt hcons fun v hv => by cases hv

/-- A symbol that is next is read, or something else is done. -/
theorem wp_eat {α : Type} {c : UInt8} {x y : Parser α} {Q : α → ℕ → Prop} (hzero : 0 ∉ text)
    (hc : c ∈ symbols) (hgt : c ≠ '>'.toUInt8) (hs : s ≤ text.length)
    (hyes : ∀ s', lex (text.drop s) = .sym c :: lex (text.drop s') → s < s' → s' ≤ text.length →
      wp x E Q s')
    (hno : ∀ s', starts [c] (lex (text.drop s)) = false → lex (text.drop s') = lex (text.drop s) →
      s ≤ s' → s' ≤ text.length → wp y E Q s') :
    wp (do
      if ← peek text [c] then
        let _ ← gettoken text
        x
      else y) E Q s := by
  rw [wp_bind]
  refine wp_peek hzero (fun d hd => by rw [List.mem_singleton.mp hd]; exact hc) hs
    fun s' hle hlen hlex _ => ?_
  cases hst : starts [c] (lex (text.drop s)) with
  | false =>
    rw [if_neg (by decide)]
    exact hno s' hst hlex hle hlen
  | true =>
    obtain ⟨ts, hts⟩ := (starts_singleton hgt).mp hst
    rw [if_pos rfl, wp_bind]
    refine wp_gettoken hzero hlen (fun w hnil => ?_) fun tok w s'' htok hlt hlen' _ _ => ?_
    · rw [hlex, hts] at hnil
      cases hnil
    · rw [hlex] at htok
      obtain ⟨rfl, -⟩ := List.cons.inj (hts.symm.trans htok)
      exact hyes s'' htok (by omega) hlen'

end Tokens

/-! ### Strings in commands -/

/-- All strings of the command. -/
def Cmd.All {W : Type} (P : W → Prop) : Cmd W → Prop
  | exec argv => ∀ w ∈ argv, P w
  | redir cmd file _ _ => cmd.All P ∧ P file
  | pipe left right => left.All P ∧ right.All P
  | list left right => left.All P ∧ right.All P
  | back cmd => cmd.All P

def Redir.map {V W : Type} (f : V → W) (r : Redir V) : Redir W := ⟨f r.file, r.mode, r.fd⟩

section Strings

variable {V W : Type} {P : W → Prop}

theorem Cmd.map_redirect (f : V → W) (rs : List (Redir V)) : ∀ cmd : Cmd V,
    (cmd.redirect rs).map f = (cmd.map f).redirect (rs.map (Redir.map f)) := by
  induction rs with
  | nil => exact fun _ => rfl
  | cons r rs ih => exact fun cmd => ih _

theorem Cmd.all_redirect (rs : List (Redir W)) : ∀ cmd : Cmd W, cmd.All P →
    (∀ r ∈ rs, P r.file) → (cmd.redirect rs).All P := by
  induction rs with
  | nil => exact fun _ h _ => h
  | cons r rs ih =>
    intro cmd h hrs
    rw [List.forall_mem_cons] at hrs
    exact ih _ ⟨h, hrs.1⟩ hrs.2

theorem Cmd.addArg_redirect (w : W) (rs : List (Redir W)) : ∀ cmd : Cmd W,
    (cmd.redirect rs).addArg w = (cmd.addArg w).redirect rs := by
  induction rs with
  | nil => exact fun _ => rfl
  | cons r rs ih => exact fun cmd => ih _

theorem Cmd.redirect_append (rs rs' : List (Redir W)) (cmd : Cmd W) :
    cmd.redirect (rs ++ rs') = (cmd.redirect rs).redirect rs' := List.foldl_append

theorem Cmd.map_backs (f : V → W) (k : ℕ) : ∀ cmd : Cmd V,
    (cmd.backs k).map f = (cmd.map f).backs k := by
  induction k with
  | zero => exact fun _ => rfl
  | succ k ih => exact fun cmd => ih _

theorem Cmd.all_backs (k : ℕ) : ∀ cmd : Cmd W, cmd.All P → (cmd.backs k).All P := by
  induction k with
  | zero => exact fun _ h => h
  | succ k ih => exact fun cmd h => ih (.back cmd) h

end Strings

/-! ### What is read is a line -/

/-- The parser has panicked. -/
def Panics (e : Stop) : Prop := ∃ msg, e = .panic msg

/-- From `s` to `s'` the parser has read what is in `L` for the command. -/
structure Reads (text : List UInt8) (L : List Token → Tree → Prop) (s : ℕ) (cmd : Cmd Span)
    (s' : ℕ) : Prop where
  le : s ≤ s'
  end_le : s' ≤ text.length
  read : ∃ ts, lex (text.drop s) = ts ++ lex (text.drop s') ∧ L ts (cmd.map (textOf text))
  words : cmd.All (WordAt text)

section Sound

variable {text : List UInt8} {s : ℕ}

/-- `parseredirs` -/
theorem sound_parseredirs (hzero : 0 ∉ text) (n : ℕ) : ∀ {s : ℕ} {cmd : Cmd Span},
    s ≤ text.length → text.length - s < n →
      wp (parseredirs text n cmd) Panics (fun c s' => s ≤ s' ∧ s' ≤ text.length ∧
        ∃ ts rs, lex (text.drop s) = ts ++ lex (text.drop s') ∧
          IsRedirs ts (rs.map (Redir.map (textOf text))) ∧ (∀ r ∈ rs, WordAt text r.file) ∧
            c = cmd.redirect rs) s := by
  induction n with
  | zero => exact fun _ h => absurd h (Nat.not_lt_zero _)
  | succ n ih =>
    intro s cmd hs hn
    rw [parseredirs, wp_bind]
    refine wp_peek hzero (by simp [symbols]) hs fun s₁ hle hlen hlex _ => ?_
    cases hst : starts ['<'.toUInt8, '>'.toUInt8] (lex (text.drop s)) with
    | false =>
      rw [if_neg (by decide)]
      exact ⟨hle, hlen, [], [], hlex.symm, .nil, fun r hr => (by cases hr), rfl⟩
    | true =>
      obtain ⟨op, mode, fd, ts, hts, hop⟩ := isOp_of_starts hst
      rw [if_pos rfl, wp_bind]
      refine wp_gettoken hzero hlen (fun w hnil => ?_) fun tok w s₂ htok hlt₂ hlen₂ _ _ => ?_
      · rw [hlex, hts] at hnil
        cases hnil
      rw [hlex] at htok
      obtain ⟨rfl, -⟩ := List.cons.inj (hts.symm.trans htok)
      dsimp only
      rw [wp_bind]
      refine wp_gettoken hzero hlen₂ (fun w _ => ?_) fun tok' w' s₃ htok' hlt₃ hlen₃ hv hword => ?_
      · dsimp only
        rw [if_pos (by decide)]
        exact ⟨_, rfl⟩
      dsimp only
      rcases hv.word_or with ⟨v, rfl⟩ | hcode
      · obtain ⟨hat, htext⟩ := hword v rfl
        rw [if_neg (code_word v), redircmd_code hop]
        refine wp_imp (ih hlen₃ (by omega)) ?_
        rintro c s' ⟨hle', hlen', ts', rs, hlex', hr, hrs, rfl⟩
        refine ⟨by omega, hlen', op :: .word v :: ts', ⟨w', mode, fd⟩ :: rs, ?_, ?_, ?_, rfl⟩
        · rw [htok, htok', hlex', List.cons_append, List.cons_append]
        · rw [← htext]
          exact .cons hop hr
        · exact List.forall_mem_cons.mpr ⟨hat, hrs⟩
      · rw [if_pos hcode]
        exact ⟨_, rfl⟩

/-- The loop of `parseexec`. -/
theorem sound_parseargs (hzero : 0 ∉ text) (n : ℕ) : ∀ {s argc : ℕ} {ws : List Span}
    {rs : List (Redir Span)}, s ≤ text.length → text.length - s < n → argc = ws.length →
      argc < maxargs → wp (parseargs text n argc (Cmd.redirect (.exec ws) rs)) Panics
        (fun c s' => s ≤ s' ∧ s' ≤ text.length ∧ ∃ ts ws' rs',
          lex (text.drop s) = ts ++ lex (text.drop s') ∧
          IsArgs ts (ws'.map (textOf text)) (rs'.map (Redir.map (textOf text))) ∧
          (∀ w ∈ ws', WordAt text w) ∧ (∀ r ∈ rs', WordAt text r.file) ∧
          (ws ++ ws').length < maxargs ∧ c = Cmd.redirect (.exec (ws ++ ws')) (rs ++ rs')) s := by
  induction n with
  | zero => exact fun _ h => absurd h (Nat.not_lt_zero _)
  | succ n ih =>
    intro s argc ws rs hs hn hargc hmax
    have hstay : ∀ s', s ≤ s' → s' ≤ text.length → lex (text.drop s') = lex (text.drop s) →
        s ≤ s' ∧ s' ≤ text.length ∧ ∃ ts ws' rs',
          lex (text.drop s) = ts ++ lex (text.drop s') ∧
          IsArgs ts (ws'.map (textOf text)) (rs'.map (Redir.map (textOf text))) ∧
          (∀ w ∈ ws', WordAt text w) ∧ (∀ r ∈ rs', WordAt text r.file) ∧
          (ws ++ ws').length < maxargs ∧
          Cmd.redirect (.exec ws) rs = Cmd.redirect (.exec (ws ++ ws')) (rs ++ rs') :=
      fun s' hle hlen hlex => ⟨hle, hlen, [], [], [], hlex.symm, .nil, nofun, nofun,
        by rw [List.append_nil, ← hargc]; exact hmax, by rw [List.append_nil, List.append_nil]⟩
    rw [parseargs, wp_bind]
    refine wp_peek hzero (by simp [symbols]) hs fun s₁ hle hlen hlex _ => ?_
    cases hst : starts ['|'.toUInt8, ')'.toUInt8, '&'.toUInt8, ';'.toUInt8] (lex (text.drop s)) with
    | true =>
      rw [if_pos rfl]
      exact hstay s₁ hle hlen hlex
    | false =>
      rw [if_neg (by decide), wp_bind]
      refine wp_gettoken hzero hlen (fun w hnil => ?_) fun tok w s₂ htok hlt₂ hlen₂ hv hword => ?_
      · dsimp only
        rw [if_pos rfl]
        exact hstay _ hs le_rfl (by rw [List.drop_length, lex_nil, ← hnil, hlex])
      dsimp only
      rw [if_neg hv.code_ne_zero]
      rcases hv.word_or with ⟨v, rfl⟩ | hcode
      · obtain ⟨hat, htext⟩ := hword v rfl
        rw [if_neg (code_word v), wp_ite]
        refine ⟨fun _ => ⟨_, rfl⟩, fun hargs => ?_⟩
        have hadd : (Cmd.redirect (.exec ws) rs).addArg w = Cmd.redirect (.exec (ws ++ [w])) rs :=
          Cmd.addArg_redirect w rs _
        rw [hadd, wp_bind]
        refine wp_imp (sound_parseredirs hzero n hlen₂ (by omega)) ?_
        rintro c s₃ ⟨hle₃, hlen₃, ts₁, rs₁, hlex₁, hr₁, hrs₁, rfl⟩
        rw [← Cmd.redirect_append]
        refine wp_imp (ih hlen₃ (by omega) (by rw [List.length_append, hargc]; rfl)
          (not_le.mp hargs)) ?_
        rintro c s' ⟨hle', hlen', ts', ws', rs', hlex', ha, hws, hrs, hlength, rfl⟩
        rw [List.append_assoc, List.singleton_append] at hlength
        rw [List.append_assoc, List.append_assoc, List.singleton_append]
        refine ⟨by omega, hlen', .word v :: ts₁ ++ ts', w :: ws', rs₁ ++ rs', ?_, ?_,
          List.forall_mem_cons.mpr ⟨hat, hws⟩, List.forall_mem_append.mpr ⟨hrs₁, hrs⟩, hlength,
          rfl⟩
        · rw [← hlex, htok, hlex₁, hlex']
          simp
        · rw [List.map_append, List.map_cons, htext]
          exact .cons hr₁ ha
      · rw [if_pos hcode]
        exact ⟨_, rfl⟩

/-- The loop of `parseline`. -/
theorem sound_parseback (hzero : 0 ∉ text) (n : ℕ) : ∀ {s : ℕ} {cmd : Cmd Span},
    s ≤ text.length → text.length - s < n →
      wp (parseback text n cmd) Panics (fun c s' => s ≤ s' ∧ s' ≤ text.length ∧
        ∃ k, lex (text.drop s) = amps k ++ lex (text.drop s') ∧ c = cmd.backs k) s := by
  induction n with
  | zero => exact fun _ h => absurd h (Nat.not_lt_zero _)
  | succ n ih =>
    intro s cmd hs hn
    rw [parseback]
    refine wp_eat hzero (by decide) (by decide) hs (fun s₁ hlex hlt hlen => ?_)
      fun s₁ _ hlex hle hlen => ⟨hle, hlen, 0, hlex.symm, rfl⟩
    refine wp_imp (ih hlen (by omega)) ?_
    rintro c s' ⟨hle', hlen', k, hlex', rfl⟩
    exact ⟨by omega, hlen', k + 1, by rw [hlex, hlex']; rfl, rfl⟩

/-- **The parser returns or panics, and what it has read is a line.** -/
theorem sound_parse (hzero : 0 ∉ text) (n : ℕ) : ∀ s ≤ text.length,
    (4 * (text.length - s) + 4 ≤ n → wp (parseline text n) Panics (Reads text IsLine s) s) ∧
    (4 * (text.length - s) + 3 ≤ n → wp (parsepipe text n) Panics (Reads text IsPipe s) s) ∧
    (4 * (text.length - s) + 2 ≤ n → wp (parseexec text n) Panics (Reads text IsCommand s) s) ∧
    (4 * (text.length - s) + 1 ≤ n →
      wp (parseblock text n) Panics (Reads text IsCommand s) s) := by
  induction n with
  | zero => exact fun _ _ => ⟨by omega, by omega, by omega, by omega⟩
  | succ n ih =>
    intro s hs
    refine ⟨fun hn => ?_, fun hn => ?_, fun hn => ?_, fun hn => ?_⟩
    · rw [parseline, wp_bind]
      refine wp_imp ((ih s hs).2.1 (by omega)) fun c s₁ h₁ => ?_
      obtain ⟨ts₁, hlex₁, hpipe⟩ := h₁.read
      have hle₁ := h₁.le
      rw [wp_bind]
      refine wp_imp (sound_parseback hzero n h₁.end_le (by omega)) ?_
      rintro c' s₂ ⟨hle₂, hlen₂, k, hlex₂, rfl⟩
      have hwords := Cmd.all_backs k c h₁.words
      refine wp_eat hzero (by decide) (by decide) hlen₂ (fun s₃ hlex₃ hlt₃ hlen₃ => ?_)
        fun s₃ _ hlex₃ hle₃ hlen₃ => ?_
      · rw [wp_bind]
        refine wp_imp ((ih s₃ hlen₃).1 (by omega)) fun c' s' h' => ?_
        obtain ⟨ts', hlex', hline⟩ := h'.read
        have hle' := h'.le
        refine ⟨by omega, h'.end_le, ⟨ts₁ ++ amps k ++ .sym ';'.toUInt8 :: ts', ?_, ?_⟩, hwords,
          h'.words⟩
        · rw [hlex₁, hlex₂, hlex₃, hlex']
          simp
        · rw [Cmd.map, Cmd.map_backs]
          exact .list k hpipe hline
      · refine ⟨by omega, hlen₃, ⟨ts₁ ++ amps k, ?_, ?_⟩, hwords⟩
        · rw [hlex₁, hlex₂, hlex₃, List.append_assoc]
        · rw [Cmd.map_backs]
          exact .last k hpipe
    · rw [parsepipe, wp_bind]
      refine wp_imp ((ih s hs).2.2.1 (by omega)) fun c s₁ h₁ => ?_
      obtain ⟨ts₁, hlex₁, hcmd⟩ := h₁.read
      have hle₁ := h₁.le
      refine wp_eat hzero (by decide) (by decide) h₁.end_le (fun s₂ hlex₂ hlt₂ hlen₂ => ?_)
        fun s₂ _ hlex₂ hle₂ hlen₂ => ?_
      · rw [wp_bind]
        refine wp_imp ((ih s₂ hlen₂).2.1 (by omega)) fun c' s' h' => ?_
        obtain ⟨ts', hlex', hpipe⟩ := h'.read
        have hle' := h'.le
        refine ⟨by omega, h'.end_le, ⟨ts₁ ++ .sym '|'.toUInt8 :: ts', ?_, .pipe hcmd hpipe⟩,
          h₁.words, h'.words⟩
        rw [hlex₁, hlex₂, hlex']
        simp
      · exact ⟨by omega, hlen₂, ⟨ts₁, by rw [hlex₁, hlex₂], .last hcmd⟩, h₁.words⟩
    · rw [parseexec, wp_bind]
      refine wp_peek hzero (by simp [symbols]) hs fun s₁ hle₁ hlen₁ hlex₁ _ => ?_
      cases hst : starts ['('.toUInt8] (lex (text.drop s)) with
      | true =>
        rw [if_pos rfl]
        refine wp_imp ((ih s₁ hlen₁).2.2.2 (by omega)) fun c s' h' => ?_
        have hle' := h'.le
        exact ⟨by omega, h'.end_le, hlex₁ ▸ h'.read, h'.words⟩
      | false =>
        rw [if_neg (by decide), wp_bind]
        refine wp_imp (sound_parseredirs hzero n hlen₁ (by omega)) ?_
        rintro c s₂ ⟨hle₂, hlen₂, ts₁, rs₁, hlex₂, hr, hrs, rfl⟩
        refine wp_imp (sound_parseargs hzero n hlen₂ (by omega) rfl (by decide)) ?_
        rintro c s' ⟨hle', hlen', ts', ws, rs, hlex', ha, hws, hrs', hlength, rfl⟩
        rw [List.nil_append] at hlength ⊢
        refine ⟨by omega, hlen', ⟨ts₁ ++ ts', ?_, ?_⟩, Cmd.all_redirect _ _ hws
          (List.forall_mem_append.mpr ⟨hrs, hrs'⟩)⟩
        · rw [← hlex₁, hlex₂, hlex', List.append_assoc]
        · rw [Cmd.map_redirect, List.map_append]
          exact .exec hr ha (by rw [List.length_map]; exact hlength)
    · rw [parseblock]
      refine wp_eat hzero (by decide) (by decide) hs (fun s₁ hlex₁ hlt₁ hlen₁ => ?_)
        fun s₁ _ _ _ _ => ⟨_, rfl⟩
      rw [wp_bind]
      refine wp_imp ((ih s₁ hlen₁).1 (by omega)) fun c s₂ h₂ => ?_
      obtain ⟨ts₂, hlex₂, hline⟩ := h₂.read
      have hle₂ := h₂.le
      refine wp_eat hzero (by decide) (by decide) h₂.end_le (fun s₃ hlex₃ hlt₃ hlen₃ => ?_)
        fun s₃ _ _ _ _ => ⟨_, rfl⟩
      refine wp_imp (sound_parseredirs hzero n hlen₃ (by omega)) ?_
      rintro c' s' ⟨hle', hlen', ts', rs, hlex', hr, hrs, rfl⟩
      refine ⟨by omega, hlen', ⟨.sym '('.toUInt8 :: ts₂ ++ .sym ')'.toUInt8 :: ts', ?_, ?_⟩,
        Cmd.all_redirect _ _ h₂.words hrs⟩
      · rw [hlex₁, hlex₂, hlex₃, hlex']
        simp
      · rw [Cmd.map_redirect]
        exact .block hline hr

end Sound

/-! ### Every line is read -/

/-- What follows is nothing, or one of the symbols. -/
def Follows (toks : List UInt8) (ts : List Token) : Prop :=
  ts = [] ∨ ∃ c ∈ toks, ∃ ts', ts = .sym c :: ts'

theorem Follows.mono {toks toks' : List UInt8} {ts : List Token} (h : Follows toks ts)
    (hsub : toks ⊆ toks') : Follows toks' ts :=
  h.imp_right fun ⟨c, hc, hts⟩ => ⟨c, hsub hc, hts⟩

theorem Follows.starts_eq_false {toks toks' : List UInt8} {ts : List Token} (h : Follows toks ts)
    (hdisj : ∀ c ∈ toks, c ∉ toks') : starts toks' ts = false := by
  rcases h with rfl | ⟨c, hc, ts', rfl⟩
  · rfl
  · rw [starts, List.contains_eq_mem, decide_eq_false_iff_not]
    exact hdisj c hc

theorem follows_disjoint : ∀ c ∈ ['|'.toUInt8, ')'.toUInt8, '&'.toUInt8, ';'.toUInt8],
    c ∉ ['<'.toUInt8, '>'.toUInt8] := by
  decide +kernel

theorem Follows.amps {toks : List UInt8} {ts : List Token} (h : Follows toks ts)
    (hamp : '&'.toUInt8 ∈ toks) (k : ℕ) : Follows toks (Shell.amps k ++ ts) := by
  cases k with
  | zero => exact h
  | succ k => exact .inr ⟨_, hamp, Shell.amps k ++ ts, rfl⟩

/-- The parser has gone from `s` to `s'`, where `rest` is next, and has read the command `t`. -/
structure Done (text : List UInt8) (s : ℕ) (rest : List Token) (t : Tree) (cmd : Cmd Span)
    (s' : ℕ) : Prop where
  le : s ≤ s'
  end_le : s' ≤ text.length
  rest : lex (text.drop s') = rest
  tree : cmd.map (textOf text) = t

section Complete

variable {text : List UInt8} {s : ℕ} {rest : List Token}

/-- The rule of `gettoken`, for a token that is known. -/
theorem wp_gettoken_cons {E : Stop → Prop} {Q : UInt8 × Span → ℕ → Prop} {tok : Token}
    {ts : List Token} (hzero : 0 ∉ text) (hs : s ≤ text.length)
    (h : lex (text.drop s) = tok :: ts)
    (hQ : ∀ w s', s < s' → s' ≤ text.length → lex (text.drop s') = ts →
      (∀ v, tok = .word v → textOf text w = v) → Q (tok.code, w) s') :
    wp (gettoken text) E Q s := by
  refine wp_gettoken hzero hs (fun w hnil => ?_) fun tok' w s' htok hlt hlen _ hword => ?_
  · rw [h] at hnil
    cases hnil
  · obtain ⟨rfl, hts⟩ := List.cons.inj (h.symm.trans htok)
    exact hQ w s' hlt hlen hts.symm fun v hv => (hword v hv).2

theorem IsRedirs.starts_eq_false {ts ts' : List Token} {rs : List (Redir (List UInt8))}
    {toks : List UInt8} (h : IsRedirs ts rs) (hlt : '<'.toUInt8 ∉ toks) (hgt : '>'.toUInt8 ∉ toks)
    (hrest : starts toks ts' = false) : starts toks (ts ++ ts') = false := by
  cases h with
  | nil => exact hrest
  | cons hop _ =>
    cases hop with
    | lt => simpa [starts] using hlt
    | gt => simpa [starts] using hgt
    | append => simpa [starts] using hgt

theorem IsArgs.starts_eq_false {ts ts' : List Token} {ws : List (List UInt8)}
    {rs : List (Redir (List UInt8))} {toks : List UInt8} (h : IsArgs ts ws rs)
    (hrest : starts toks ts' = false) : starts toks (ts ++ ts') = false := by
  cases h with
  | nil => exact hrest
  | cons _ _ => rfl

theorem complete_parseredirs (hzero : 0 ∉ text) (n : ℕ) : ∀ {s : ℕ} {cmd : Cmd Span}
    {ts : List Token} {rs : List (Redir (List UInt8))}, s ≤ text.length → text.length - s < n →
      IsRedirs ts rs → lex (text.drop s) = ts ++ rest →
      starts ['<'.toUInt8, '>'.toUInt8] rest = false →
      wp (parseredirs text n cmd) (fun _ => False) (fun c s' => s ≤ s' ∧ s' ≤ text.length ∧
        lex (text.drop s') = rest ∧ ∃ rs', rs'.map (Redir.map (textOf text)) = rs ∧
          c = cmd.redirect rs') s := by
  induction n with
  | zero => exact fun _ h => absurd h (Nat.not_lt_zero _)
  | succ n ih =>
    intro s cmd ts rs hs hn hr hlex hrest
    rw [parseredirs, wp_bind]
    refine wp_peek hzero (by simp [symbols]) hs fun s₁ hle hlen hlex₁ _ => ?_
    rw [hlex] at hlex₁ ⊢
    cases hr with
    | nil =>
      rw [List.nil_append, hrest, if_neg (by decide)]
      exact ⟨hle, hlen, hlex₁, [], rfl, rfl⟩
    | @cons op mode fd w ts rs hop hr =>
      have hst : starts ['<'.toUInt8, '>'.toUInt8] (op :: .word w :: ts ++ rest) = true := by
        cases hop <;> rfl
      rw [hst, if_pos rfl, wp_bind]
      refine wp_gettoken_cons hzero hlen hlex₁ fun w₂ s₂ hlt₂ hlen₂ hlex₂ _ => ?_
      dsimp only
      rw [wp_bind]
      refine wp_gettoken_cons hzero hlen₂ hlex₂ fun w₃ s₃ hlt₃ hlen₃ hlex₃ hword => ?_
      dsimp only
      rw [if_neg (code_word w), redircmd_code hop]
      refine wp_imp (ih hlen₃ (by omega) hr hlex₃ hrest) ?_
      rintro c s' ⟨hle', hlen', hlex', rs', rfl, rfl⟩
      refine ⟨by omega, hlen', hlex', ⟨w₃, mode, fd⟩ :: rs', ?_, rfl⟩
      rw [List.map_cons, Redir.map, hword w rfl]

theorem complete_parseargs (hzero : 0 ∉ text) (n : ℕ) : ∀ {s : ℕ} (ws : List Span)
    (rs : List (Redir Span)) {ts : List Token} {ws' : List (List UInt8)}
    {rs' : List (Redir (List UInt8))}, s ≤ text.length → text.length - s < n →
      IsArgs ts ws' rs' → ws.length + ws'.length < maxargs → lex (text.drop s) = ts ++ rest →
      Follows ['|'.toUInt8, ')'.toUInt8, '&'.toUInt8, ';'.toUInt8] rest →
      wp (parseargs text n ws.length (Cmd.redirect (.exec ws) rs)) (fun _ => False)
        (Done text s rest (Cmd.redirect (.exec (ws.map (textOf text) ++ ws'))
          (rs.map (Redir.map (textOf text)) ++ rs'))) s := by
  induction n with
  | zero =>
    intro s ws rs ts ws' rs' _ hn
    exact absurd hn (Nat.not_lt_zero _)
  | succ n ih =>
    intro s ws rs ts ws' rs' hs hn ha hmax hlex hrest
    have htree : (Cmd.redirect (.exec ws) rs).map (textOf text) =
        Cmd.redirect (.exec (ws.map (textOf text))) (rs.map (Redir.map (textOf text))) :=
      Cmd.map_redirect _ _ _
    rw [parseargs, wp_bind]
    refine wp_peek hzero (by simp [symbols]) hs fun s₁ hle hlen hlex₁ _ => ?_
    rw [hlex] at hlex₁ ⊢
    cases ha with
    | nil =>
      rw [List.nil_append] at hlex₁ ⊢
      rw [List.append_nil, List.append_nil]
      rcases hrest with rfl | ⟨c, hc, ts', rfl⟩
      · rw [starts_nil, if_neg (by decide), wp_bind]
        refine wp_gettoken hzero hlen (fun w _ => ?_) fun tok w s₂ htok _ _ _ _ => ?_
        · dsimp only
          rw [if_pos rfl]
          exact ⟨hs, le_rfl, by rw [List.drop_length, lex_nil], htree⟩
        · rw [hlex₁] at htok
          cases htok
      · rw [starts_sym, List.contains_eq_mem, decide_eq_true hc, if_pos rfl]
        exact ⟨hle, hlen, hlex₁, htree⟩
    | @cons v ts₁ ts₂ ws' rs₁ rs₂ hr ha =>
      rw [List.cons_append, List.cons_append] at hlex₁ ⊢
      rw [List.length_cons] at hmax
      rw [starts_word, if_neg (by decide), wp_bind]
      refine wp_gettoken_cons hzero hlen hlex₁ fun w s₂ hlt₂ hlen₂ hlex₂ hword => ?_
      have hadd : (Cmd.redirect (.exec ws) rs).addArg w = Cmd.redirect (.exec (ws ++ [w])) rs :=
        Cmd.addArg_redirect w rs _
      rw [List.append_assoc] at hlex₂
      dsimp only
      rw [if_neg (code_word_ne_zero v), if_neg (code_word v), if_neg (by omega), hadd, wp_bind]
      refine wp_imp (complete_parseredirs hzero n hlen₂ (by omega) hr hlex₂
        (ha.starts_eq_false (hrest.starts_eq_false follows_disjoint))) ?_
      rintro c s₃ ⟨hle₃, hlen₃, hlex₃, rs', rfl, rfl⟩
      have hlength : ws.length + 1 = (ws ++ [w]).length := by rw [List.length_append]; rfl
      rw [← Cmd.redirect_append, hlength]
      refine wp_imp (ih _ _ hlen₃ (by omega) ha (by omega) hlex₃ hrest) fun c s' h => ?_
      have hle' := h.le
      refine ⟨by omega, h.end_le, h.rest, ?_⟩
      rw [h.tree]
      simp [hword v rfl]

theorem complete_parseback (hzero : 0 ∉ text) (n : ℕ) : ∀ {s k : ℕ} {cmd : Cmd Span},
    s ≤ text.length → text.length - s < n → lex (text.drop s) = amps k ++ rest →
      starts ['&'.toUInt8] rest = false →
      wp (parseback text n cmd) (fun _ => False) (fun c s' => s ≤ s' ∧ s' ≤ text.length ∧
        lex (text.drop s') = rest ∧ c = cmd.backs k) s := by
  induction n with
  | zero => exact fun _ h => absurd h (Nat.not_lt_zero _)
  | succ n ih =>
    intro s k cmd hs hn hlex hrest
    rw [parseback]
    refine wp_eat hzero (by decide) (by decide) hs (fun s₁ hlex₁ hlt hlen => ?_)
      fun s₁ hst hlex₁ hle hlen => ?_
    · cases k with
      | zero =>
        rw [hlex₁, amps, List.replicate_zero, List.nil_append] at hlex
        rw [← hlex, starts_sym] at hrest
        exact absurd hrest (by decide)
      | succ k =>
        have hlex₂ : lex (text.drop s₁) = amps k ++ rest :=
          List.tail_eq_of_cons_eq (hlex₁.symm.trans hlex)
        refine wp_imp (ih hlen (by omega) hlex₂ hrest) ?_
        rintro c s' ⟨hle', hlen', hlex', rfl⟩
        exact ⟨by omega, hlen', hlex', rfl⟩
    · cases k with
      | zero => exact ⟨hle, hlen, hlex₁.trans hlex, rfl⟩
      | succ k =>
        rw [hlex, amps, List.replicate_succ, List.cons_append, starts_sym] at hst
        exact absurd hst (by decide)

/-- **The parser reads every line** that only `)` follows. -/
theorem complete_parse (hzero : 0 ∉ text) (n : ℕ) : ∀ s ≤ text.length, ∀ rest,
    (4 * (text.length - s) + 4 ≤ n → ∀ ts t, IsLine ts t → lex (text.drop s) = ts ++ rest →
      Follows [')'.toUInt8] rest →
        wp (parseline text n) (fun _ => False) (Done text s rest t) s) ∧
    (4 * (text.length - s) + 3 ≤ n → ∀ ts t, IsPipe ts t → lex (text.drop s) = ts ++ rest →
      Follows [')'.toUInt8, '&'.toUInt8, ';'.toUInt8] rest →
        wp (parsepipe text n) (fun _ => False) (Done text s rest t) s) ∧
    (4 * (text.length - s) + 2 ≤ n → ∀ ts t, IsCommand ts t → lex (text.drop s) = ts ++ rest →
      Follows ['|'.toUInt8, ')'.toUInt8, '&'.toUInt8, ';'.toUInt8] rest →
        wp (parseexec text n) (fun _ => False) (Done text s rest t) s) ∧
    (4 * (text.length - s) + 1 ≤ n → ∀ ts ts' t rs, IsLine ts t → IsRedirs ts' rs →
      lex (text.drop s) = .sym '('.toUInt8 :: ts ++ .sym ')'.toUInt8 :: ts' ++ rest →
      Follows ['|'.toUInt8, ')'.toUInt8, '&'.toUInt8, ';'.toUInt8] rest →
        wp (parseblock text n) (fun _ => False) (Done text s rest (t.redirect rs)) s) := by
  induction n with
  | zero => exact fun _ _ _ => ⟨by omega, by omega, by omega, by omega⟩
  | succ n ih =>
    intro s hs rest
    refine ⟨fun hn ts t hl hlex hrest => ?_, fun hn ts t hp hlex hrest => ?_,
      fun hn ts t hc hlex hrest => ?_, fun hn ts ts' t rs hl hr hlex hrest => ?_⟩
    · rw [parseline, wp_bind]
      cases hl with
      | @last ts₁ t₁ k hp =>
        rw [List.append_assoc] at hlex
        have hrest₁ : Follows [')'.toUInt8, '&'.toUInt8, ';'.toUInt8] (amps k ++ rest) :=
          (hrest.mono (by simp)).amps (by simp) k
        refine wp_imp ((ih s hs _).2.1 (by omega) _ _ hp hlex hrest₁) fun c s₁ h₁ => ?_
        have hle₁ := h₁.le
        rw [wp_bind]
        refine wp_imp (complete_parseback hzero n h₁.end_le (by omega) h₁.rest
          (hrest.starts_eq_false (by decide +kernel))) ?_
        rintro c' s₂ ⟨hle₂, hlen₂, hlex₂, rfl⟩
        refine wp_eat hzero (by decide) (by decide) hlen₂ (fun s₃ hlex₃ _ _ => ?_)
          fun s₃ _ hlex₃ hle₃ hlen₃ => ?_
        · have hst : starts [';'.toUInt8] rest = false := hrest.starts_eq_false (by decide +kernel)
          rw [← hlex₂, hlex₃, starts_sym] at hst
          exact absurd hst (by decide)
        · exact ⟨by omega, hlen₃, hlex₃.trans hlex₂, by rw [Cmd.map_backs, h₁.tree]⟩
      | @list ts₁ ts₂ t₁ t₂ k hp hl =>
        rw [List.append_assoc, List.append_assoc, List.cons_append] at hlex
        have hrest₁ : Follows [')'.toUInt8, '&'.toUInt8, ';'.toUInt8]
            (amps k ++ .sym ';'.toUInt8 :: (ts₂ ++ rest)) :=
          Follows.amps (.inr ⟨_, by simp, _, rfl⟩) (by simp) k
        refine wp_imp ((ih s hs _).2.1 (by omega) _ _ hp hlex hrest₁) fun c s₁ h₁ => ?_
        have hle₁ := h₁.le
        rw [wp_bind]
        refine wp_imp (complete_parseback hzero n h₁.end_le (by omega) h₁.rest
          (by rw [starts_sym]; decide)) ?_
        rintro c' s₂ ⟨hle₂, hlen₂, hlex₂, rfl⟩
        refine wp_eat hzero (by decide) (by decide) hlen₂ (fun s₃ hlex₃ hlt₃ hlen₃ => ?_)
          fun s₃ hst _ _ _ => ?_
        · have hlex' : lex (text.drop s₃) = ts₂ ++ rest :=
            List.tail_eq_of_cons_eq (hlex₃.symm.trans hlex₂)
          rw [wp_bind]
          refine wp_imp ((ih s₃ hlen₃ rest).1 (by omega) _ _ hl hlex' hrest) fun c' s' h' => ?_
          have hle' := h'.le
          refine ⟨by omega, h'.end_le, h'.rest, ?_⟩
          rw [Cmd.map, Cmd.map_backs, h₁.tree, h'.tree]
        · rw [hlex₂, starts_sym] at hst
          exact absurd hst (by decide)
    · rw [parsepipe, wp_bind]
      cases hp with
      | last hc =>
        refine wp_imp ((ih s hs rest).2.2.1 (by omega) _ _ hc hlex (hrest.mono (by simp)))
          fun c s₁ h₁ => ?_
        have hle₁ := h₁.le
        refine wp_eat hzero (by decide) (by decide) h₁.end_le (fun s₂ hlex₂ _ _ => ?_)
          fun s₂ _ hlex₂ hle₂ hlen₂ => ?_
        · have hst : starts ['|'.toUInt8] rest = false := hrest.starts_eq_false (by decide +kernel)
          rw [← h₁.rest, hlex₂, starts_sym] at hst
          exact absurd hst (by decide)
        · exact ⟨by omega, hlen₂, hlex₂.trans h₁.rest, h₁.tree⟩
      | @pipe ts₁ ts₂ t₁ t₂ hc hp =>
        rw [List.append_assoc, List.cons_append] at hlex
        refine wp_imp ((ih s hs _).2.2.1 (by omega) _ _ hc hlex (.inr ⟨_, by simp, _, rfl⟩))
          fun c s₁ h₁ => ?_
        have hle₁ := h₁.le
        refine wp_eat hzero (by decide) (by decide) h₁.end_le (fun s₂ hlex₂ hlt₂ hlen₂ => ?_)
          fun s₂ hst _ _ _ => ?_
        · have hlex' : lex (text.drop s₂) = ts₂ ++ rest :=
            List.tail_eq_of_cons_eq (hlex₂.symm.trans h₁.rest)
          rw [wp_bind]
          refine wp_imp ((ih s₂ hlen₂ rest).2.1 (by omega) _ _ hp hlex' hrest) fun c' s' h' => ?_
          have hle' := h'.le
          refine ⟨by omega, h'.end_le, h'.rest, ?_⟩
          rw [Cmd.map, h₁.tree, h'.tree]
        · rw [h₁.rest, starts_sym] at hst
          exact absurd hst (by decide)
    · rw [parseexec, wp_bind]
      refine wp_peek hzero (by simp [symbols]) hs fun s₁ hle₁ hlen₁ hlex₁ _ => ?_
      rw [hlex] at hlex₁ ⊢
      cases hc with
      | block hl hr =>
        rw [List.cons_append, List.cons_append, starts_sym, if_pos (by decide)]
        refine wp_imp ((ih s₁ hlen₁ rest).2.2.2 (by omega) _ _ _ _ hl hr hlex₁ hrest)
          fun c s' h' => ?_
        have hle' := h'.le
        exact ⟨by omega, h'.end_le, h'.rest, h'.tree⟩
      | @exec ts₁ ts₂ ws rs₁ rs₂ hr ha hws =>
        rw [List.append_assoc] at hlex₁ ⊢
        have hparen : starts ['('.toUInt8] (ts₂ ++ rest) = false :=
          ha.starts_eq_false (hrest.starts_eq_false (by decide +kernel))
        rw [hr.starts_eq_false (by decide) (by decide) hparen, if_neg (by decide), wp_bind]
        refine wp_imp (complete_parseredirs hzero n hlen₁ (by omega) hr hlex₁
          (ha.starts_eq_false (hrest.starts_eq_false follows_disjoint))) ?_
        rintro c s₂ ⟨hle₂, hlen₂, hlex₂, rs, rfl, rfl⟩
        have hargs := complete_parseargs hzero n [] rs hlen₂ (by omega) ha
          (by rw [List.length_nil]; omega) hlex₂ hrest
        refine wp_imp hargs fun c s' h' => ?_
        have hle' := h'.le
        exact ⟨by omega, h'.end_le, h'.rest, h'.tree⟩
    · rw [parseblock]
      rw [List.append_assoc, List.cons_append, List.cons_append] at hlex
      refine wp_eat hzero (by decide) (by decide) hs (fun s₁ hlex₁ hlt₁ hlen₁ => ?_)
        fun s₁ hst _ _ _ => ?_
      · have hlex₂ := List.tail_eq_of_cons_eq (hlex₁.symm.trans hlex)
        rw [wp_bind]
        refine wp_imp ((ih s₁ hlen₁ _).1 (by omega) _ _ hl hlex₂ (.inr ⟨_, by simp, _, rfl⟩))
          fun c s₂ h₂ => ?_
        have hle₂ := h₂.le
        refine wp_eat hzero (by decide) (by decide) h₂.end_le (fun s₃ hlex₃ hlt₃ hlen₃ => ?_)
          fun s₃ hst _ _ _ => ?_
        · have hlex₄ : lex (text.drop s₃) = ts' ++ rest :=
            List.tail_eq_of_cons_eq (hlex₃.symm.trans h₂.rest)
          refine wp_imp (complete_parseredirs hzero n hlen₃ (by omega) hr hlex₄
            (hrest.starts_eq_false follows_disjoint)) ?_
          rintro c' s' ⟨hle', hlen', hlex', rs', rfl, rfl⟩
          exact ⟨by omega, hlen', hlex', by rw [Cmd.map_redirect, h₂.tree]⟩
        · rw [h₂.rest, starts_sym] at hst
          exact absurd hst (by decide)
      · rw [hlex, starts_sym] at hst
        exact absurd hst (by decide)

end Complete

/-! ### The whole line -/

section Parsetree

variable {text : List UInt8}

/-- **Only lines are accepted**, and otherwise the parser panics. -/
theorem sound_parsetree (hzero : 0 ∉ text) :
    wp (parsetree text) Panics (fun c _ => IsLine (lex text) (c.map (textOf text)) ∧
      c.All (WordAt text)) 0 := by
  rw [parsetree, wp_bind]
  refine wp_imp ((sound_parse hzero (fuel text) 0 (Nat.zero_le _)).1 (by rw [fuel]; omega))
    fun c s₁ h₁ => ?_
  obtain ⟨ts, hlex, hline⟩ := h₁.read
  rw [wp_bind]
  refine wp_peek hzero nofun h₁.end_le fun s₂ _ _ _ hend => ?_
  rw [wp_bind, wp_get, wp_ite]
  refine ⟨fun _ => ⟨_, rfl⟩, fun hne => ?_⟩
  rw [hend.mp (not_not.mp hne), List.append_nil, List.drop_zero] at hlex
  rw [hlex]
  exact ⟨hline, h₁.words⟩

/-- **Every line is accepted.** -/
theorem complete_parsetree (hzero : 0 ∉ text) {t : Tree} (ht : IsLine (lex text) t) :
    wp (parsetree text) (fun _ => False) (fun c _ => c.map (textOf text) = t) 0 := by
  rw [parsetree, wp_bind]
  refine wp_imp ((complete_parse hzero (fuel text) 0 (Nat.zero_le _) []).1 (by rw [fuel]; omega)
    _ _ ht (by rw [List.drop_zero, List.append_nil]) (.inl rfl)) fun c s₁ h₁ => ?_
  rw [wp_bind]
  refine wp_peek hzero nofun h₁.end_le fun s₂ _ _ _ hend => ?_
  rw [wp_bind, wp_get, if_neg (not_not.mpr (hend.mpr h₁.rest))]
  exact h₁.tree

end Parsetree

end Shell
end Xv6
