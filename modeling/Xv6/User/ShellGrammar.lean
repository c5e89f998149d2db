import Xv6.User.Shell

/-!
# The grammar of the shell

What a line is, as a list of tokens, and the command that it stands for.

    line    ::=  pipe {'&'} [';' line]
    pipe    ::=  command ['|' pipe]
    command ::=  '(' line ')' redirs  |  redirs {word redirs}
    redirs  ::=  {('<' | '>' | '>>') word}

## Main definitions

* `Token`, `lex` — the tokens of a line, each as long as can be.
* `IsLine`, `IsPipe`, `IsCommand` — the grammar.
* `print`, `unlex` — a line for a command.

## Main results

* `lex_unlex` — the tokens are those that were printed.
* `IsLine.valid`, `isLine_print` — **the commands that lines stand for are those that `print`
  prints.**
-/

namespace Xv6
namespace Shell

/-! ### Tokens -/

inductive Token
  | sym (c : UInt8)
  /-- `>>` -/
  | append
  | word (w : List UInt8)
  deriving DecidableEq

/-- The tokens of a text. -/
def lex : List UInt8 → List Token
  | [] => []
  | c :: cs =>
      if isSpace c then lex cs
      else if isWord c then .word (c :: cs.takeWhile isWord) :: lex (cs.dropWhile isWord)
      else if c = '>'.toUInt8 ∧ cs.head? = some '>'.toUInt8 then .append :: lex cs.tail
      else .sym c :: lex cs
termination_by l => l.length
decreasing_by
  · exact Nat.lt_succ_self _
  · exact Nat.lt_succ_of_le (List.length_dropWhile_le _ _)
  · exact Nat.lt_succ_of_le (by rw [List.length_tail]; exact Nat.sub_le _ _)
  · exact Nat.lt_succ_self _

/-- The text of the tokens, with a space behind each. -/
def unlex : List Token → List UInt8
  | [] => []
  | .sym c :: ts => c :: 0x20 :: unlex ts
  | .append :: ts => '>'.toUInt8 :: '>'.toUInt8 :: 0x20 :: unlex ts
  | .word w :: ts => w ++ 0x20 :: unlex ts

/-- A word is not empty, and has no other characters. -/
def Word (w : List UInt8) : Prop := w ≠ [] ∧ ∀ c ∈ w, isWord c = true ∧ c ≠ 0

def Token.Valid : Token → Prop
  | sym c => c ∈ symbols
  | append => True
  | word w => Word w

variable {c : UInt8} {cs l w : List UInt8}

@[simp] theorem lex_nil : lex [] = [] := by rw [lex]

theorem lex_space (h : isSpace c = true) : lex (c :: cs) = lex cs := by rw [lex, if_pos h]

theorem isSpace_of_isWord (h : isWord c = true) : isSpace c = false := by
  rw [isWord, Bool.and_eq_true, Bool.not_eq_true'] at h
  exact h.1

theorem lex_word (h : isWord c = true) :
    lex (c :: cs) = .word (c :: cs.takeWhile isWord) :: lex (cs.dropWhile isWord) := by
  rw [lex, if_neg (by rw [isSpace_of_isWord h]; decide), if_pos h]

/-- A character is white space, one of a word, or a symbol. -/
theorem mem_symbols (hs : isSpace c = false) (hw : isWord c = false) : c ∈ symbols := by
  rw [isWord, ← isSpace, hs] at hw
  simpa using hw

theorem of_mem_symbols (h : c ∈ symbols) : isSpace c = false ∧ isWord c = false ∧ c ≠ 0 := by
  revert h
  simp only [symbols, List.mem_cons, List.not_mem_nil, or_false]
  rintro (rfl | rfl | rfl | rfl | rfl | rfl | rfl) <;> decide

theorem lex_append : lex ('>'.toUInt8 :: '>'.toUInt8 :: cs) = .append :: lex cs := by
  rw [lex, if_neg (by decide), if_neg (by decide), if_pos ⟨rfl, rfl⟩, List.tail_cons]

theorem lex_sym (h : c ∈ symbols) (hnot : ¬(c = '>'.toUInt8 ∧ cs.head? = some '>'.toUInt8)) :
    lex (c :: cs) = .sym c :: lex cs := by
  obtain ⟨hs, hw, -⟩ := of_mem_symbols h
  rw [lex, hs, hw, if_neg (by decide), if_neg (by decide), if_neg hnot]

/-- The token that begins with a character. -/
theorem lex_cases (cs : List UInt8) (h : isSpace c = false) :
    (isWord c = true ∧
      lex (c :: cs) = .word (c :: cs.takeWhile isWord) :: lex (cs.dropWhile isWord)) ∨
    (c = '>'.toUInt8 ∧ ∃ cs', cs = '>'.toUInt8 :: cs' ∧ lex (c :: cs) = .append :: lex cs') ∨
    (c ∈ symbols ∧ ¬(c = '>'.toUInt8 ∧ cs.head? = some '>'.toUInt8) ∧
      lex (c :: cs) = .sym c :: lex cs) := by
  cases hw : isWord c with
  | true => exact .inl ⟨rfl, lex_word hw⟩
  | false =>
    have hc := mem_symbols h hw
    by_cases hgt : c = '>'.toUInt8 ∧ cs.head? = some '>'.toUInt8
    · obtain ⟨rfl, hhead⟩ := hgt
      obtain ⟨cs', rfl⟩ := List.head?_eq_some_iff.mp hhead
      exact .inr (.inl ⟨rfl, cs', rfl, lex_append⟩)
    · exact .inr (.inr ⟨hc, hgt, lex_sym hc hgt⟩)

/-- White space before the first token. -/
theorem lex_dropWhile (l : List UInt8) : lex (l.dropWhile isSpace) = lex l := by
  induction l with
  | nil => rfl
  | cons c cs ih =>
    rw [List.dropWhile_cons]
    split
    · next h => rw [ih, lex_space h]
    · rfl

/-- The tokens of a line are words, `>>` and symbols. -/
theorem valid_of_mem_lex (l : List UInt8) : 0 ∉ l → ∀ t ∈ lex l, t.Valid := by
  induction l using lex.induct with
  | case1 => rw [lex_nil]; exact fun _ => nofun
  | case2 c cs hs ih =>
    rw [lex_space hs]
    exact fun h => ih (List.not_mem_of_not_mem_cons h)
  | case3 c cs hs hw ih =>
    intro h
    rw [lex_word hw, List.forall_mem_cons]
    have htake : ∀ d ∈ cs.takeWhile isWord, isWord d = true ∧ d ≠ 0 := fun d hd =>
      ⟨List.mem_takeWhile_imp hd, ne_of_mem_of_not_mem
        (List.mem_cons_of_mem c ((List.takeWhile_sublist _).subset hd)) h⟩
    refine ⟨⟨List.cons_ne_nil _ _, List.forall_mem_cons.mpr ⟨⟨hw, ?_⟩, htake⟩⟩, ih fun hd => ?_⟩
    · exact ne_of_mem_of_not_mem List.mem_cons_self h
    · exact h (List.mem_cons_of_mem c ((List.dropWhile_sublist _).subset hd))
  | case4 c cs hs hw hgt ih =>
    intro h
    rw [lex, if_neg hs, if_neg hw, if_pos hgt, List.forall_mem_cons]
    exact ⟨trivial, ih fun hd => h (List.mem_cons_of_mem c (List.mem_of_mem_tail hd))⟩
  | case5 c cs hs hw hgt ih =>
    intro h
    have hc := mem_symbols (Bool.not_eq_true _ ▸ hs) (Bool.not_eq_true _ ▸ hw)
    rw [lex_sym hc hgt, List.forall_mem_cons]
    exact ⟨hc, ih (List.not_mem_of_not_mem_cons h)⟩

/-- **The tokens are those that were printed.** -/
theorem lex_unlex : ∀ ts : List Token, (∀ t ∈ ts, t.Valid) → lex (unlex ts) = ts := by
  intro ts
  induction ts with
  | nil => intro _; rw [unlex, lex_nil]
  | cons t ts ih =>
    intro h
    obtain ⟨ht, hts⟩ := List.forall_mem_cons.mp h
    have hspace : lex (0x20 :: unlex ts) = ts := (lex_space (by decide)).trans (ih hts)
    cases t with
    | sym c =>
      have hgt : (0x20 : UInt8) ≠ '>'.toUInt8 := by decide
      have hlex : lex (c :: 0x20 :: unlex ts) = .sym c :: lex (0x20 :: unlex ts) :=
        lex_sym ht fun h => hgt (Option.some.inj h.2)
      rw [unlex, hlex, hspace]
    | append => rw [unlex, lex_append, hspace]
    | word w =>
      obtain ⟨hne, hall⟩ := ht
      obtain ⟨c, cs, rfl⟩ := List.exists_cons_of_ne_nil hne
      obtain ⟨⟨hc, -⟩, hcs⟩ := List.forall_mem_cons.mp hall
      have hend : isWord 0x20 = false := by decide
      rw [unlex, List.cons_append, lex_word hc,
        List.takeWhile_append_of_pos fun d hd => (hcs d hd).1,
        List.dropWhile_append_of_pos fun d hd => (hcs d hd).1, List.takeWhile_cons_of_neg
          (by rw [hend]; decide), List.dropWhile_cons_of_neg (by rw [hend]; decide), hspace,
        List.append_nil]

theorem notMem_unlex : ∀ ts : List Token, (∀ t ∈ ts, t.Valid) → 0 ∉ unlex ts := by
  intro ts
  induction ts with
  | nil => intro _; exact List.not_mem_nil
  | cons t ts ih =>
    intro h
    obtain ⟨ht, hts⟩ := List.forall_mem_cons.mp h
    have hrest := ih hts
    cases t with
    | sym c =>
      have hc := (of_mem_symbols ht).2.2
      simp [unlex, hrest, hc.symm]
    | append =>
      simp only [unlex, List.mem_cons, not_or]
      exact ⟨by decide, by decide, by decide, hrest⟩
    | word w =>
      rw [unlex, List.mem_append, List.mem_cons, not_or, not_or]
      exact ⟨fun hmem => (ht.2 0 hmem).2 rfl, by decide, hrest⟩

/-! ### The grammar -/

/-- A command with its strings. -/
abbrev Tree := Cmd (List UInt8)

/-- What a redirection puts around a command. -/
structure Redir (W : Type) where
  file : W
  mode : ℕ
  fd : ℕ

/-- Later redirections are outermost. -/
def Cmd.redirect {W : Type} (cmd : Cmd W) (rs : List (Redir W)) : Cmd W :=
  rs.foldl (fun cmd r => .redir cmd r.file r.mode r.fd) cmd

/-- The operators of redirections. -/
inductive IsOp : Token → ℕ → ℕ → Prop
  | lt : IsOp (.sym '<'.toUInt8) oRdonly 0
  | gt : IsOp (.sym '>'.toUInt8) (oWronly ||| oCreate) 1
  | append : IsOp .append (oWronly ||| oCreate) 1

/-- `{('<' | '>' | '>>') word}` -/
inductive IsRedirs : List Token → List (Redir (List UInt8)) → Prop
  | nil : IsRedirs [] []
  | cons {op : Token} {mode fd : ℕ} {w : List UInt8} {ts : List Token}
      {rs : List (Redir (List UInt8))} :
      IsOp op mode fd → IsRedirs ts rs → IsRedirs (op :: .word w :: ts) (⟨w, mode, fd⟩ :: rs)

/-- `{word redirs}` -/
inductive IsArgs : List Token → List (List UInt8) → List (Redir (List UInt8)) → Prop
  | nil : IsArgs [] [] []
  | cons {w : List UInt8} {ts ts' : List Token} {ws : List (List UInt8)}
      {rs rs' : List (Redir (List UInt8))} :
      IsRedirs ts rs → IsArgs ts' ws rs' →
        IsArgs (.word w :: ts ++ ts') (w :: ws) (rs ++ rs')

/-- `{'&'}` -/
def amps (k : ℕ) : List Token := List.replicate k (.sym '&'.toUInt8)

/-- The command with `k` times `&` behind it. -/
def Cmd.backs {W : Type} (k : ℕ) (cmd : Cmd W) : Cmd W := Cmd.back^[k] cmd

mutual

/-- `pipe {'&'} [';' line]` -/
inductive IsLine : List Token → Tree → Prop
  | last {ts : List Token} {t : Tree} (k : ℕ) : IsPipe ts t → IsLine (ts ++ amps k) (t.backs k)
  | list {ts ts' : List Token} {t t' : Tree} (k : ℕ) : IsPipe ts t → IsLine ts' t' →
      IsLine (ts ++ amps k ++ .sym ';'.toUInt8 :: ts') (.list (t.backs k) t')

/-- `command ['|' pipe]` -/
inductive IsPipe : List Token → Tree → Prop
  | last {ts : List Token} {t : Tree} : IsCommand ts t → IsPipe ts t
  | pipe {ts ts' : List Token} {t t' : Tree} : IsCommand ts t → IsPipe ts' t' →
      IsPipe (ts ++ .sym '|'.toUInt8 :: ts') (.pipe t t')

/-- `'(' line ')' redirs`, or `redirs {word redirs}` with at most nine words -/
inductive IsCommand : List Token → Tree → Prop
  | block {ts ts' : List Token} {t : Tree} {rs : List (Redir (List UInt8))} : IsLine ts t →
      IsRedirs ts' rs →
        IsCommand (.sym '('.toUInt8 :: ts ++ .sym ')'.toUInt8 :: ts') (t.redirect rs)
  | exec {ts ts' : List Token} {ws : List (List UInt8)} {rs rs' : List (Redir (List UInt8))} :
      IsRedirs ts rs → IsArgs ts' ws rs' → ws.length < maxargs →
        IsCommand (ts ++ ts') (Cmd.redirect (.exec ws) (rs ++ rs'))

end

/-! ### Printing -/

/-- The commands that a line can stand for. -/
def Cmd.Valid : Tree → Prop
  | exec argv => argv.length < maxargs ∧ ∀ w ∈ argv, Word w
  | redir cmd file mode fd => cmd.Valid ∧ Word file ∧
      (mode = oRdonly ∧ fd = 0 ∨ mode = oWronly ||| oCreate ∧ fd = 1)
  | pipe left right => left.Valid ∧ right.Valid
  | list left right => left.Valid ∧ right.Valid
  | back cmd => cmd.Valid

/-- Parentheses, if they are needed. -/
def paren (need : Bool) (ts : List Token) : List Token :=
  if need then .sym '('.toUInt8 :: ts ++ [.sym ')'.toUInt8] else ts

/-- A list of tokens that stands for the command: a line if `n` is 0, a pipe with `&` behind it if
it is 1, a pipe if it is 2, and else a command. -/
def print : ℕ → Tree → List Token
  | _, .exec argv => argv.map .word
  | _, .redir cmd file _ fd =>
      print 3 cmd ++ [.sym (if fd = 0 then '<'.toUInt8 else '>'.toUInt8), .word file]
  | n, .pipe left right =>
      paren (2 < n) (print 3 left ++ .sym '|'.toUInt8 :: print 2 right)
  | n, .list left right =>
      paren (0 < n) (print 1 left ++ .sym ';'.toUInt8 :: print 0 right)
  | n, .back cmd => paren (1 < n) (print 1 cmd ++ [.sym '&'.toUInt8])

/-- What `print n` prints. -/
def Prints : ℕ → List Token → Tree → Prop
  | 0, ts, t => IsLine ts t
  | 1, ts, t => ∃ k ts' t', IsPipe ts' t' ∧ ts = ts' ++ amps k ∧ t = t'.backs k
  | 2, ts, t => IsPipe ts t
  | _, ts, t => IsCommand ts t

variable {ts ts' : List Token} {t : Tree} {rs rs' : List (Redir (List UInt8))}
  {ws : List (List UInt8)} {op : Token} {mode fd n : ℕ}

/-- A command is a pipe, and a pipe is a line. -/
theorem Prints.le {m : ℕ} (hle : n ≤ m) (h : Prints m ts t) : Prints n ts t := by
  have hamps : ts ++ amps 0 = ts := List.append_nil ts
  have hpipe : ∀ {n}, n ≤ 2 → IsPipe ts t → Prints n ts t := by
    intro n hn hp
    match n with
    | 0 => exact hamps ▸ IsLine.last 0 hp
    | 1 => exact ⟨0, ts, t, hp, hamps.symm, rfl⟩
    | 2 => exact hp
  match m, n with
  | 0, 0 => exact h
  | 1, 0 =>
    obtain ⟨k, ts', t', hp, rfl, rfl⟩ := h
    exact .last k hp
  | 1, 1 => exact h
  | 2, n => exact hpipe hle h
  | _ + 3, _ + 3 => exact h
  | _ + 3, 0 => exact hpipe (by omega) (.last h)
  | _ + 3, 1 => exact hpipe (by omega) (.last h)
  | _ + 3, 2 => exact .last h

/-- In parentheses, if a line may not stand there. -/
theorem Prints.paren {m : ℕ} (h : Prints m ts t) : Prints n (paren (m < n) ts) t := by
  rw [Shell.paren]
  split
  · have hblock : IsCommand _ t := .block (h.le (Nat.zero_le m)) .nil
    exact Prints.le (m := n + 3) (by omega) hblock
  · next hnot => exact h.le (by simpa using hnot)

theorem IsRedirs.append (h : IsRedirs ts rs) (h' : IsRedirs ts' rs') :
    IsRedirs (ts ++ ts') (rs ++ rs') := by
  induction h with
  | nil => exact h'
  | cons hop _ ih => exact .cons hop ih

theorem IsArgs.redirs (h : IsArgs ts ws rs) (hne : ts ≠ []) (h' : IsRedirs ts' rs') :
    IsArgs (ts ++ ts') ws (rs ++ rs') := by
  induction h with
  | nil => exact absurd rfl hne
  | @cons w ts₁ ts₂ ws rs₁ rs₂ hr ha ih =>
    cases ha with
    | nil =>
      have hargs := IsArgs.cons (w := w) (hr.append h') .nil
      simpa using hargs
    | cons =>
      have hargs := IsArgs.cons (w := w) hr (ih (by simp))
      simpa using hargs

/-- A redirection behind a command. -/
theorem IsCommand.redir (h : IsCommand ts t) (h' : IsRedirs ts' rs') :
    IsCommand (ts ++ ts') (t.redirect rs') := by
  cases h with
  | @block ts₁ ts₂ t rs hline hr =>
    have hblock := IsCommand.block hline (hr.append h')
    simpa [Cmd.redirect] using hblock
  | @exec ts₁ ts₂ ws rs₁ rs₂ hr ha hws =>
    cases ha with
    | nil =>
      have hexec := IsCommand.exec (hr.append h') .nil hws
      simpa [Cmd.redirect] using hexec
    | cons hr' ha' =>
      have hexec := IsCommand.exec hr ((IsArgs.cons hr' ha').redirs (by simp) h') hws
      simpa [Cmd.redirect] using hexec

theorem isArgs_words (ws : List (List UInt8)) : IsArgs (ws.map .word) ws [] := by
  induction ws with
  | nil => exact .nil
  | cons w ws ih => exact .cons .nil ih

/-- **What is printed stands for the command.** -/
theorem prints_print : ∀ (t : Tree) (n : ℕ), t.Valid → Prints n (print n t) t := by
  intro t
  induction t with
  | exec argv =>
    intro n hv
    have hexec : IsCommand (argv.map .word) (.exec argv) := .exec .nil (isArgs_words argv) hv.1
    exact Prints.le (m := n + 3) (by omega) hexec
  | redir cmd file mode fd ih =>
    rintro n ⟨hcmd, -, hop⟩
    have hr : IsRedirs [.sym (if fd = 0 then '<'.toUInt8 else '>'.toUInt8), .word file]
        [⟨file, mode, fd⟩] := by
      rcases hop with ⟨rfl, rfl⟩ | ⟨rfl, rfl⟩
      · exact .cons .lt .nil
      · exact .cons .gt .nil
    have hredir := IsCommand.redir (ih 3 hcmd) hr
    exact Prints.le (m := n + 3) (by omega) hredir
  | pipe left right ihl ihr =>
    rintro n ⟨hl, hr⟩
    have hpipe := IsPipe.pipe (ihl 3 hl) (ihr 2 hr)
    exact Prints.paren (m := 2) hpipe
  | list left right ihl ihr =>
    rintro n ⟨hl, hr⟩
    obtain ⟨k, ts, t, hp, hts, rfl⟩ := ihl 1 hl
    have hlist := IsLine.list k hp (ihr 0 hr)
    rw [← hts] at hlist
    exact Prints.paren (m := 0) hlist
  | back cmd ih =>
    intro n hv
    obtain ⟨k, ts, t, hp, hts, rfl⟩ := ih 1 hv
    refine Prints.paren (m := 1) ⟨k + 1, ts, t, hp, ?_, ?_⟩
    · rw [hts, List.append_assoc, amps, amps, List.replicate_succ']
    · exact (Function.iterate_succ_apply' _ _ _).symm

theorem forall_mem_paren {P : Token → Prop} {need : Bool} (hl : P (.sym '('.toUInt8))
    (hr : P (.sym ')'.toUInt8)) (h : ∀ tok ∈ ts, P tok) : ∀ tok ∈ paren need ts, P tok := by
  rw [paren]
  split
  · simp only [List.cons_append, List.forall_mem_cons, List.forall_mem_append]
    exact ⟨hl, h, hr, nofun⟩
  · exact h

/-- The tokens that are printed. -/
theorem valid_of_mem_print : ∀ (t : Tree) (n : ℕ), t.Valid → ∀ tok ∈ print n t, tok.Valid := by
  have hsym : ∀ c ∈ symbols, (Token.sym c).Valid := fun c hc => hc
  have hl : (Token.sym '('.toUInt8).Valid := hsym _ (by decide)
  have hr : (Token.sym ')'.toUInt8).Valid := hsym _ (by decide)
  intro t
  induction t with
  | exec argv =>
    intro n hv tok htok
    obtain ⟨w, hw, rfl⟩ := List.mem_map.mp htok
    exact hv.2 w hw
  | redir cmd file mode fd ih =>
    rintro n ⟨hcmd, hfile, -⟩
    rw [print, List.forall_mem_append, List.forall_mem_cons, List.forall_mem_singleton]
    refine ⟨ih 3 hcmd, hsym _ ?_, hfile⟩
    split <;> decide
  | pipe left right ihl ihr =>
    rintro n ⟨hleft, hright⟩
    refine forall_mem_paren hl hr ?_
    rw [List.forall_mem_append, List.forall_mem_cons]
    exact ⟨ihl 3 hleft, hsym _ (by decide), ihr 2 hright⟩
  | list left right ihl ihr =>
    rintro n ⟨hleft, hright⟩
    refine forall_mem_paren hl hr ?_
    rw [List.forall_mem_append, List.forall_mem_cons]
    exact ⟨ihl 1 hleft, hsym _ (by decide), ihr 0 hright⟩
  | back cmd ih =>
    intro n hv
    refine forall_mem_paren hl hr ?_
    rw [List.forall_mem_append, List.forall_mem_singleton]
    exact ⟨ih 1 hv, hsym _ (by decide)⟩

/-! ### What lines stand for -/

theorem Cmd.Valid.redirect (h : t.Valid) (hr : IsRedirs ts rs) (hts : ∀ tok ∈ ts, tok.Valid) :
    (t.redirect rs).Valid := by
  induction hr generalizing t with
  | nil => exact h
  | cons hop _ ih =>
    rw [List.forall_mem_cons, List.forall_mem_cons] at hts
    refine ih ⟨h, hts.2.1, ?_⟩ hts.2.2
    cases hop with
    | lt => exact .inl ⟨rfl, rfl⟩
    | gt => exact .inr ⟨rfl, rfl⟩
    | append => exact .inr ⟨rfl, rfl⟩

theorem Cmd.Valid.backs (h : t.Valid) (k : ℕ) : (t.backs k).Valid := by
  induction k with
  | zero => exact h
  | succ k ih =>
    rw [Cmd.backs, Function.iterate_succ_apply']
    exact ih

theorem IsArgs.valid (h : IsArgs ts ws rs) (hts : ∀ tok ∈ ts, tok.Valid) :
    (∀ w ∈ ws, Word w) ∧ ∃ ts', IsRedirs ts' rs ∧ ∀ tok ∈ ts', tok.Valid := by
  induction h with
  | nil => exact ⟨nofun, [], .nil, nofun⟩
  | @cons w ts₁ ts₂ ws rs₁ rs₂ hr _ ih =>
    rw [List.cons_append, List.forall_mem_cons, List.forall_mem_append] at hts
    obtain ⟨hws, ts', hr', hts'⟩ := ih hts.2.2
    exact ⟨List.forall_mem_cons.mpr ⟨hts.1, hws⟩, ts₁ ++ ts', hr.append hr',
      List.forall_mem_append.mpr ⟨hts.2.1, hts'⟩⟩

mutual

/-- **Lines stand for commands that can be printed.** -/
theorem IsLine.valid : ∀ {ts : List Token} {t : Tree}, IsLine ts t →
    (∀ tok ∈ ts, tok.Valid) → t.Valid
  | _, _, .last k hp, hts => (hp.valid (List.forall_mem_append.mp hts).1).backs k
  | _, _, .list k hp hl, hts => by
    rw [List.forall_mem_append, List.forall_mem_append, List.forall_mem_cons] at hts
    exact ⟨(hp.valid hts.1.1).backs k, hl.valid hts.2.2⟩

theorem IsPipe.valid : ∀ {ts : List Token} {t : Tree}, IsPipe ts t →
    (∀ tok ∈ ts, tok.Valid) → t.Valid
  | _, _, .last hc, hts => hc.valid hts
  | _, _, .pipe hc hp, hts => by
    rw [List.forall_mem_append, List.forall_mem_cons] at hts
    exact ⟨hc.valid hts.1, hp.valid hts.2.2⟩

theorem IsCommand.valid : ∀ {ts : List Token} {t : Tree}, IsCommand ts t →
    (∀ tok ∈ ts, tok.Valid) → t.Valid
  | _, _, .block hl hr, hts => by
    rw [List.cons_append, List.forall_mem_cons, List.forall_mem_append, List.forall_mem_cons] at hts
    exact (hl.valid hts.2.1).redirect hr hts.2.2.2
  | _, _, .exec hr ha hws, hts => by
    rw [List.forall_mem_append] at hts
    obtain ⟨hwords, ts', hr', hts'⟩ := ha.valid hts.2
    exact Cmd.Valid.redirect ⟨hws, hwords⟩ (hr.append hr')
      (List.forall_mem_append.mpr ⟨hts.1, hts'⟩)

end

end Shell
end Xv6
