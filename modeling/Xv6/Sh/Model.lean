import Mathlib.Data.List.Basic
import Xv6.Ulib.Str

/-!
# The parser of `sh` (`user/sh.c`)

A pointer into the line is what the line has from it on, and `es` is the empty text.  The line is a
C string, so that no character of it is a NUL.  `*ps` is the state of the functions that parse; the
recursion and the loops run on fuel, and `parsecmd` has enough of it (`Sh.parsecmd_ends`).  That
`malloc` fails and that a deep nesting fills the page of the user stack is not modelled.
-/

namespace Sh
open Ulib (Str cstr)

/-! ## tokens -/

def whitespace : Str := [' ', '\t', '\r', '\n', '\x0b']

def symbols : Str := ['<', '|', '>', '&', ';', '(', ')']

def letter (c : Char) : Bool := c ∉ whitespace && c ∉ symbols

def skip (s : Str) : Str := s.dropWhile (· ∈ whitespace)

/-- a counted string: where it starts, and where it ends -/
structure Word where
  q : Str
  eq : Str
  deriving DecidableEq, Repr

def Word.text (w : Word) : Str := w.q.take (w.q.length - w.eq.length)

structure Token where
  ret : Char
  word : Word
  rest : Str

/-- `gettoken`: what it returns, `q` and `eq`, and `*ps` -/
def gettoken (ps : Str) : Token :=
  let s := skip ps
  match s with
  | [] => ⟨'\x00', ⟨[], []⟩, []⟩
  | '>' :: '>' :: t => ⟨'+', ⟨s, t⟩, skip t⟩
  | c :: t =>
    if c ∈ symbols then ⟨c, ⟨s, t⟩, skip t⟩
    else ⟨'a', ⟨s, s.dropWhile letter⟩, skip (s.dropWhile letter)⟩

def peek (ps : Str) (toks : Str) : Bool × Str :=
  let s := skip ps
  match s with
  | [] => (false, s)
  | c :: _ => (c ∈ toks, s)

/-! ## commands -/

section
variable {α β : Type}

/-- a parsed command; `α` is what it has for a string -/
inductive Cmd (α : Type) where
  | exec (argv : List α)
  | redir (cmd : Cmd α) (file : α) (mode fd : Nat)
  | pipe (left right : Cmd α)
  | list (left right : Cmd α)
  | back (cmd : Cmd α)
  deriving DecidableEq, Repr

/-- `cmd->argv[argc] = q`, for the `exec` command below the redirections -/
def Cmd.push (w : α) : Cmd α → Cmd α
  | .exec argv => .exec (argv ++ [w])
  | .redir cmd file mode fd => .redir (cmd.push w) file mode fd
  | cmd => cmd

def Cmd.map (f : α → β) : Cmd α → Cmd β
  | .exec argv => .exec (argv.map f)
  | .redir cmd file mode fd => .redir (cmd.map f) (f file) mode fd
  | .pipe left right => .pipe (left.map f) (right.map f)
  | .list left right => .list (left.map f) (right.map f)
  | .back cmd => .back (cmd.map f)

/-- the strings of a command, in the order of `nulterminate` -/
def Cmd.words : Cmd α → List α
  | .exec argv => argv
  | .redir cmd file _ _ => cmd.words ++ [file]
  | .pipe left right => left.words ++ right.words
  | .list left right => left.words ++ right.words
  | .back cmd => cmd.words

end

/-! ## parsing -/

abbrev maxargs : Nat := 10

abbrev rdonly : Nat := 0x000

/-- `O_WRONLY|O_CREATE|O_TRUNC` -/
abbrev truncating : Nat := 0x601

/-- `O_WRONLY|O_CREATE` -/
abbrev creating : Nat := 0x201

inductive Panic where
  | leftovers (s : Str)
  | token
  | missingFile
  | parseblock
  | missingParen
  | tooManyArgs
  deriving DecidableEq, Repr

def Panic.message : Panic → Str
  | .leftovers s => "leftovers: ".toList ++ s ++ "\nsyntax\n".toList
  | .token => "syntax\n".toList
  | .missingFile => "missing file for redirection\n".toList
  | .parseblock => "parseblock\n".toList
  | .missingParen => "syntax - missing )\n".toList
  | .tooManyArgs => "too many args\n".toList

inductive Stop where
  | panic (p : Panic)
  | fuel
  deriving DecidableEq, Repr

/-- the state is `*ps` -/
abbrev Parser (α : Type) := StateT Str (Except Stop) α

def token : Parser Token := fun ps => .ok (gettoken ps, (gettoken ps).rest)

def sees (toks : Str) : Parser Bool := fun ps => .ok (peek ps toks)

def redir (tok : Char) (cmd : Cmd Word) (file : Word) : Cmd Word :=
  if tok = '<' then .redir cmd file rdonly 0
  else if tok = '>' then .redir cmd file truncating 1
  else if tok = '+' then .redir cmd file creating 1
  else cmd

def parseredirs : Nat → Cmd Word → Parser (Cmd Word)
  | 0, _ => throw .fuel
  | fuel + 1, cmd => do
    if ← sees ['<', '>'] then
      let tok ← token
      let file ← token
      if file.ret ≠ 'a' then throw (.panic .missingFile)
      else parseredirs fuel (redir tok.ret cmd file.word)
    else pure cmd

/-- the loop of `parseexec` -/
def parseargs : Nat → Nat → Cmd Word → Parser (Cmd Word)
  | 0, _, _ => throw .fuel
  | fuel + 1, argc, ret => do
    if ← sees ['|', ')', '&', ';'] then pure ret
    else
      let tok ← token
      if tok.ret = '\x00' then pure ret
      else if tok.ret ≠ 'a' then throw (.panic .token)
      else if argc + 1 ≥ maxargs then throw (.panic .tooManyArgs)
      else
        let ret ← parseredirs fuel (ret.push tok.word)
        parseargs fuel (argc + 1) ret

/-- the loop of `parseline` -/
def parseback : Nat → Cmd Word → Parser (Cmd Word)
  | 0, _ => throw .fuel
  | fuel + 1, cmd => do
    if ← sees ['&'] then
      let _ ← token
      parseback fuel (.back cmd)
    else pure cmd

mutual

def parseline : Nat → Parser (Cmd Word)
  | 0 => throw .fuel
  | fuel + 1 => do
    let cmd ← parsepipe fuel
    let cmd ← parseback fuel cmd
    if ← sees [';'] then
      let _ ← token
      let right ← parseline fuel
      pure (.list cmd right)
    else pure cmd

def parsepipe : Nat → Parser (Cmd Word)
  | 0 => throw .fuel
  | fuel + 1 => do
    let cmd ← parseexec fuel
    if ← sees ['|'] then
      let _ ← token
      let right ← parsepipe fuel
      pure (.pipe cmd right)
    else pure cmd

def parseblock : Nat → Parser (Cmd Word)
  | 0 => throw .fuel
  | fuel + 1 => do
    if ← sees ['('] then
      let _ ← token
      let cmd ← parseline fuel
      if ← sees [')'] then
        let _ ← token
        parseredirs fuel cmd
      else throw (.panic .missingParen)
    else throw (.panic .parseblock)

def parseexec : Nat → Parser (Cmd Word)
  | 0 => throw .fuel
  | fuel + 1 => do
    if ← sees ['('] then parseblock fuel
    else
      let ret ← parseredirs fuel (.exec [])
      parseargs fuel 0 ret

end

/-! ## strings -/

/-- where a pointer into the line is in the buffer -/
def offset (line : Str) (p : Str) : Nat := line.length - p.length

/-- `nulterminate`, on the buffer -/
def nulterminate (line : Str) (cmd : Cmd Word) (buf : Str) : Str :=
  cmd.words.foldl (fun buf w => buf.set (offset line w.eq) '\x00') buf

/-- `parsecmd`: the command, and what the buffer is then -/
def parsecmd (buf : Str) : Except Stop (Cmd Word × Str) := do
  let line := cstr buf
  let (cmd, ps) ← parseline (4 * line.length + 4) line
  let s := (peek ps []).2
  if s ≠ [] then .error (.panic (.leftovers s))
  else .ok (cmd, nulterminate line cmd buf)

/-- the string that a pointer of the command leads to -/
def string (line buf : Str) (w : Word) : Str := cstr (buf.drop (offset line w.q))

/-- the command as `runcmd` reads it, with its strings -/
def parse (buf : Str) : Except Stop (Cmd Str) := do
  let (cmd, buf') ← parsecmd buf
  .ok (cmd.map (string (cstr buf) buf'))

end Sh
