import Mathlib.Data.List.Basic

/-!
# The shell's parser

`parsecmd` of `sh.c` and the functions under it.  They share one pointer into the line,
which is here what is left of the text.  `gettoken` and `peek` skip the blanks, and the
five others call each other with the pointer handed on; a call that runs out of fuel
answers `none`, and `panic` ends the shell's child with a message.

The tree that is returned holds pointers to the first character of each word and to the
character after its last.  What `nulterminate` then writes there is in `Nulterminate`.
-/

namespace Xv6.Sh

/-- A pointer into the text, as what is left of it. -/
abbrev Ptr := List Char

/-- The text of a NUL-terminated buffer. -/
def cstring (buf : List Char) : Ptr := buf.takeWhile (· ≠ '\x00')

def whitespace : List Char := [' ', '\t', '\r', '\n', '\x0b']

def symbols : List Char := ['<', '|', '>', '&', ';', '(', ')']

def MAXARGS : ℕ := 10

def O_RDONLY : ℕ := 0

def O_WRONLY : ℕ := 1

def O_CREATE : ℕ := 0x200

/-- The trees of the parser.  A word is its first character and the one after its last. -/
inductive Cmd where
  | exec (argv : List (Ptr × Ptr))
  | redir (cmd : Cmd) (file efile : Ptr) (mode fd : ℕ)
  | pipe (left right : Cmd)
  | list (left right : Cmd)
  | back (cmd : Cmd)
  deriving DecidableEq

/-! ## Tokens -/

def skip (ps : Ptr) : Ptr := ps.dropWhile (· ∈ whitespace)

/-- What `gettoken` returns, and what it writes through its pointers. -/
structure Scanned where
  ret : Char
  q : Ptr
  eq : Ptr
  ps : Ptr

def gettoken (ps : Ptr) : Scanned :=
  let s := skip ps
  let (ret, eq) : Char × Ptr := match s with
    | [] => ('\x00', [])
    | c :: t =>
        if c ∈ ['|', '(', ')', ';', '&', '<'] then (c, t)
        else if c = '>' then
          if t.head? = some '>' then ('+', t.tail) else ('>', t)
        else ('a', s.dropWhile fun c => c ∉ whitespace ∧ c ∉ symbols)
  { ret, q := s, eq, ps := skip eq }

def peek (ps : Ptr) (toks : List Char) : Bool × Ptr :=
  let s := skip ps
  (s.head?.any (· ∈ toks), s)

/-! ## Commands -/

/-- A call of the parser: out of fuel, a message of `panic`, or a result. -/
abbrev Parse := ExceptT String Option

def panic {α : Type} (msg : String) : Parse α := throw msg

def more {α : Type} : Parse α := ExceptT.mk none

/-- The loop of `parseredirs`. -/
def parseredirs : ℕ → Cmd → Ptr → Parse (Cmd × Ptr)
  | 0, _, _ => more
  | fuel + 1, cmd, ps =>
      let (found, ps) := peek ps ['<', '>']
      if found then
        let tok := gettoken ps
        let file := gettoken tok.ps
        if file.ret ≠ 'a' then panic "missing file for redirection"
        else
          let cmd :=
            if tok.ret = '<' then .redir cmd file.q file.eq O_RDONLY 0
            else if tok.ret = '>' then .redir cmd file.q file.eq (O_WRONLY ||| O_CREATE) 1
            else if tok.ret = '+' then .redir cmd file.q file.eq (O_WRONLY ||| O_CREATE) 1
            else cmd
          parseredirs fuel cmd file.ps
      else pure (cmd, ps)

/-- `parseexec` keeps a pointer to the command inside the redirections, and stores the
arguments there. -/
def addArg (a : Ptr × Ptr) : Cmd → Cmd
  | .exec argv => .exec (argv ++ [a])
  | .redir cmd file efile mode fd => .redir (addArg a cmd) file efile mode fd
  | cmd => cmd

/-- The loop of `parseexec`. -/
def parseargs : ℕ → Cmd → ℕ → Ptr → Parse (Cmd × Ptr)
  | 0, _, _, _ => more
  | fuel + 1, ret, argc, ps =>
      let (found, ps) := peek ps ['|', ')', '&', ';']
      if found then pure (ret, ps)
      else
        let tok := gettoken ps
        if tok.ret = '\x00' then pure (ret, tok.ps)
        else if tok.ret ≠ 'a' then panic "syntax"
        else
          let ret := addArg (tok.q, tok.eq) ret
          if argc + 1 ≥ MAXARGS then panic "too many args"
          else do
            let (ret, ps) ← parseredirs fuel ret tok.ps
            parseargs fuel ret (argc + 1) ps

/-- The loop of `parseline` over `&`. -/
def backs : ℕ → Cmd → Ptr → Parse (Cmd × Ptr)
  | 0, _, _ => more
  | fuel + 1, cmd, ps =>
      let (found, ps) := peek ps ['&']
      if found then backs fuel (.back cmd) (gettoken ps).ps
      else pure (cmd, ps)

mutual

def parseline : ℕ → Ptr → Parse (Cmd × Ptr)
  | 0, _ => more
  | fuel + 1, ps => do
      let (cmd, ps) ← parsepipe fuel ps
      let (cmd, ps) ← backs fuel cmd ps
      let (found, ps) := peek ps [';']
      if found then
        let (right, ps) ← parseline fuel (gettoken ps).ps
        pure (.list cmd right, ps)
      else pure (cmd, ps)

def parsepipe : ℕ → Ptr → Parse (Cmd × Ptr)
  | 0, _ => more
  | fuel + 1, ps => do
      let (cmd, ps) ← parseexec fuel ps
      let (found, ps) := peek ps ['|']
      if found then
        let (right, ps) ← parsepipe fuel (gettoken ps).ps
        pure (.pipe cmd right, ps)
      else pure (cmd, ps)

def parseblock : ℕ → Ptr → Parse (Cmd × Ptr)
  | 0, _ => more
  | fuel + 1, ps =>
      let (found, ps) := peek ps ['(']
      if !found then panic "parseblock"
      else do
        let (cmd, ps) ← parseline fuel (gettoken ps).ps
        let (found, ps) := peek ps [')']
        if !found then panic "syntax - missing )"
        else parseredirs fuel cmd (gettoken ps).ps

def parseexec : ℕ → Ptr → Parse (Cmd × Ptr)
  | 0, _ => more
  | fuel + 1, ps =>
      let (found, ps) := peek ps ['(']
      if found then parseblock fuel ps
      else do
        let (ret, ps) ← parseredirs fuel (.exec []) ps
        parseargs fuel ret 0 ps

end

def parsecmd (fuel : ℕ) (buf : List Char) : Parse Cmd := do
  let (cmd, ps) ← parseline fuel (cstring buf)
  let (_, ps) := peek ps []
  if ps ≠ [] then panic "syntax"
  else pure cmd

end Xv6.Sh
