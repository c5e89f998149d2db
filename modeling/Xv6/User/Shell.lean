import Xv6.Basic
import Xv6.Lib.Wp

/-!
# The parser of the shell

`gettoken` and `peek`, the functions that parse a line, and `nulterminate`, of `sh.c`.  A pointer
into the line is its offset, and the cursor `*ps` is the state of the parser.

## Main definitions

* `gettoken`, `peek` — the tokens.
* `parseline`, `parsepipe`, `parseexec`, `parseblock` — the recursive descent.
* `nulterminate`, `parsecmd` — the strings are ended in the line itself.
-/

namespace Xv6
namespace Shell

open Prog

/-! ### Commands -/

/-- `struct cmd`, with strings of the type `W`. -/
inductive Cmd (W : Type)
  | exec (argv : List W)
  | redir (cmd : Cmd W) (file : W) (mode fd : ℕ)
  | pipe (left right : Cmd W)
  | list (left right : Cmd W)
  | back (cmd : Cmd W)
  deriving DecidableEq

/-- The command with its strings changed. -/
def Cmd.map {V W : Type} (f : V → W) : Cmd V → Cmd W
  | exec argv => exec (argv.map f)
  | redir cmd file mode fd => redir (cmd.map f) (f file) mode fd
  | pipe left right => pipe (left.map f) (right.map f)
  | list left right => list (left.map f) (right.map f)
  | back cmd => back (cmd.map f)

/-- One more argument for the `struct execcmd` that is inside the redirections. -/
def Cmd.addArg {W : Type} (w : W) : Cmd W → Cmd W
  | exec argv => exec (argv ++ [w])
  | redir cmd file mode fd => redir (cmd.addArg w) file mode fd
  | cmd => cmd

def maxargs : ℕ := 10

def oRdonly : ℕ := 0

def oWronly : ℕ := 1

def oCreate : ℕ := 0x200

/-- Why the parser does not return. -/
inductive Stop
  | panic (msg : String)
  /-- It reads or writes outside of the buffer. -/
  | fault
  /-- It needs more steps. -/
  | fuel
  deriving DecidableEq

/-- A program that moves the cursor. -/
abbrev Parser (α : Type) := Prog ℕ Stop α

/-- The two ends of a string in the line. -/
abbrev Span := ℕ × ℕ

/-! ### Tokens -/

def whitespace : List UInt8 := [0x20, 0x09, 0x0d, 0x0a, 0x0b]

def symbols : List UInt8 :=
  ['<'.toUInt8, '|'.toUInt8, '>'.toUInt8, '&'.toUInt8, ';'.toUInt8, '('.toUInt8, ')'.toUInt8]

/-- `strchr(whitespace, c)` -/
def isSpace (c : UInt8) : Bool := whitespace.contains c

/-- `!strchr(whitespace, c) && !strchr(symbols, c)` -/
def isWord (c : UInt8) : Bool := !whitespace.contains c && !symbols.contains c

/-- `while(s < es && …) s++` -/
def scan (text : List UInt8) (p : UInt8 → Bool) (s : ℕ) : ℕ :=
  match h : text[s]? with
  | some c => if p c then scan text p (s + 1) else s
  | none => s
termination_by text.length - s
decreasing_by
  have hs := (List.getElem?_eq_some_iff.mp h).1
  omega

/-- The character at `s`, where the line ends in a NUL. -/
def read (text : List UInt8) (s : ℕ) : Parser UInt8 :=
  match (text ++ [0])[s]? with
  | some c => return c
  | none => stop .fault

/-- `gettoken`: the token, and what it sets `q` and `eq` to. -/
def gettoken (text : List UInt8) : Parser (UInt8 × Span) := do
  let q := scan text isSpace (← get)
  let c ← read text q
  let (ret, eq) ←
    if c = 0 then
      pure (c, q)
    else if c = '|'.toUInt8 ∨ c = '('.toUInt8 ∨ c = ')'.toUInt8 ∨ c = ';'.toUInt8 ∨
        c = '&'.toUInt8 ∨ c = '<'.toUInt8 then
      pure (c, q + 1)
    else if c = '>'.toUInt8 then do
      let d ← read text (q + 1)
      if d = '>'.toUInt8 then pure ('+'.toUInt8, q + 2) else pure (c, q + 1)
    else
      pure ('a'.toUInt8, scan text isWord q)
  set (scan text isSpace eq)
  return (ret, q, eq)

/-- `peek` -/
def peek (text toks : List UInt8) : Parser Bool := do
  let s := scan text isSpace (← get)
  set s
  let c ← read text s
  return c ≠ 0 && toks.contains c

/-! ### Parsing -/

/-- The command that the operator `tok` makes. -/
def redircmd (cmd : Cmd Span) (tok : UInt8) (w : Span) : Cmd Span :=
  if tok = '<'.toUInt8 then .redir cmd w oRdonly 0
  else if tok = '>'.toUInt8 then .redir cmd w (oWronly ||| oCreate) 1
  else if tok = '+'.toUInt8 then .redir cmd w (oWronly ||| oCreate) 1
  else cmd

/-- `parseredirs` -/
def parseredirs (text : List UInt8) : ℕ → Cmd Span → Parser (Cmd Span)
  | 0, _ => stop .fuel
  | n + 1, cmd => do
      if ← peek text ['<'.toUInt8, '>'.toUInt8] then
        let (tok, _) ← gettoken text
        let (t, w) ← gettoken text
        if t ≠ 'a'.toUInt8 then stop (.panic "missing file for redirection")
        else parseredirs text n (redircmd cmd tok w)
      else return cmd

/-- The loop of `parseexec`. -/
def parseargs (text : List UInt8) : ℕ → ℕ → Cmd Span → Parser (Cmd Span)
  | 0, _, _ => stop .fuel
  | n + 1, argc, ret => do
      if ← peek text ['|'.toUInt8, ')'.toUInt8, '&'.toUInt8, ';'.toUInt8] then return ret
      else
        let (tok, w) ← gettoken text
        if tok = 0 then return ret
        else if tok ≠ 'a'.toUInt8 then stop (.panic "syntax")
        else if maxargs ≤ argc + 1 then stop (.panic "too many args")
        else
          let ret ← parseredirs text n (ret.addArg w)
          parseargs text n (argc + 1) ret

/-- The loop of `parseline`. -/
def parseback (text : List UInt8) : ℕ → Cmd Span → Parser (Cmd Span)
  | 0, _ => stop .fuel
  | n + 1, cmd => do
      if ← peek text ['&'.toUInt8] then
        let _ ← gettoken text
        parseback text n (.back cmd)
      else return cmd

mutual

/-- `parseline` -/
def parseline (text : List UInt8) : ℕ → Parser (Cmd Span)
  | 0 => stop .fuel
  | n + 1 => do
      let cmd ← parsepipe text n
      let cmd ← parseback text n cmd
      if ← peek text [';'.toUInt8] then
        let _ ← gettoken text
        let right ← parseline text n
        return .list cmd right
      else return cmd

/-- `parsepipe` -/
def parsepipe (text : List UInt8) : ℕ → Parser (Cmd Span)
  | 0 => stop .fuel
  | n + 1 => do
      let cmd ← parseexec text n
      if ← peek text ['|'.toUInt8] then
        let _ ← gettoken text
        let right ← parsepipe text n
        return .pipe cmd right
      else return cmd

/-- `parseblock` -/
def parseblock (text : List UInt8) : ℕ → Parser (Cmd Span)
  | 0 => stop .fuel
  | n + 1 => do
      if ← peek text ['('.toUInt8] then
        let _ ← gettoken text
        let cmd ← parseline text n
        if ← peek text [')'.toUInt8] then
          let _ ← gettoken text
          parseredirs text n cmd
        else stop (.panic "syntax - missing )")
      else stop (.panic "parseblock")

/-- `parseexec` -/
def parseexec (text : List UInt8) : ℕ → Parser (Cmd Span)
  | 0 => stop .fuel
  | n + 1 => do
      if ← peek text ['('.toUInt8] then parseblock text n
      else
        let ret ← parseredirs text n (.exec [])
        parseargs text n 0 ret

end

/-! ### The ends of the strings -/

/-- `*s = 0` -/
def poke (s : ℕ) : Prog (List UInt8) Stop Unit := do
  let buf ← get
  if s < buf.length then set (buf.set s 0) else stop .fault

/-- `nulterminate` -/
def nulterminate : Cmd Span → Prog (List UInt8) Stop Unit
  | .exec argv => argv.forM fun w => poke w.2
  | .redir cmd file _ _ => do
      nulterminate cmd
      poke file.2
  | .pipe left right => do
      nulterminate left
      nulterminate right
  | .list left right => do
      nulterminate left
      nulterminate right
  | .back cmd => nulterminate cmd

/-- More steps than parsing the line takes. -/
def fuel (text : List UInt8) : ℕ := 4 * text.length + 4

/-- `parseline`, and the test that nothing is left over. -/
def parsetree (text : List UInt8) : Parser (Cmd Span) := do
  let cmd ← parseline text (fuel text)
  let _ ← peek text []
  if (← get) ≠ text.length then stop (.panic "syntax") else return cmd

/-- `parsecmd`: the command, and the line with its NUL after it. -/
def parsecmd (text : List UInt8) : Except Stop (Cmd Span × List UInt8) := do
  let (cmd, _) ← parsetree text 0
  let (_, buf) ← nulterminate cmd (text ++ [0])
  return (cmd, buf)

end Shell
end Xv6
