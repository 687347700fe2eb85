import Xv6.Lib.Hoare

/-!
# The shell's parser

`sh.c` parses a command line by recursive descent: `peek` looks at the next character that is not white
space and `gettoken` consumes a token. A word is a pair of pointers into the buffer; `nulterminate` then
writes a zero over the second.

Pointers are positions in the buffer. The functions from `parseline` on are written over any `Lexer` that
offers `peek` and `gettoken`. Recursion and loops take a bound `fuel`, which `parsecmd` gets from the length
of the line.
-/

namespace Xv6.Sh

/-- The character that ends a string. -/
def NUL : Char := Char.ofNat 0

def MAXARGS : Nat := 10

def O_RDONLY : Nat := 0x000
def O_WRONLY : Nat := 0x001
def O_CREATE : Nat := 0x200

/-- A command, with `ω` for what its words are given by. An `exec` node has the entries of `argv` and
`eargv` before the null pointer. -/
inductive Cmd (ω : Type) where
  | exec (argv : List ω)
  | redir (cmd : Cmd ω) (file : ω) (mode fd : Nat)
  | pipe (left right : Cmd ω)
  | list (left right : Cmd ω)
  | back (cmd : Cmd ω)
deriving DecidableEq, Repr

/-- Why the parser does not come back. -/
inductive Stop where
  | panic (msg : String)
  /-- The bound on calls and rounds was used up: the source would still be running. -/
  | outOfFuel
deriving DecidableEq, Repr

/-- `peek` says whether the next character is one of `toks`; `gettoken` returns the token's kind and where
it stands. -/
structure Lexer (σ ω : Type) where
  peek : List Char → EStateM Stop σ Bool
  gettoken : EStateM Stop σ (Char × ω)

namespace Cmd

variable {ω : Type}

/-- The `switch` of `parseredirs` on the token read before the file. -/
def redirect (cmd : Cmd ω) (tok : Char) (file : ω) : Cmd ω :=
  if tok = '<' then .redir cmd file O_RDONLY 0
  else if tok = '>' then .redir cmd file (O_WRONLY ||| O_CREATE) 1
  else if tok = '+' then .redir cmd file (O_WRONLY ||| O_CREATE) 1 -- >>
  else cmd

/-- Store the next argument in the `exec` node. `parseexec` keeps a pointer to that node in `cmd`,
while `ret` points to the redirections around it. -/
def pushArg : Cmd ω → ω → Cmd ω
  | .exec argv, w => .exec (argv ++ [w])
  | .redir cmd file mode fd, w => .redir (cmd.pushArg w) file mode fd
  | cmd, _ => cmd

end Cmd

section Parser
variable {σ ω : Type} (lx : Lexer σ ω)

def parseredirs : Nat → Cmd ω → EStateM Stop σ (Cmd ω)
  | 0, _ => throw .outOfFuel
  | fuel + 1, cmd => do
    if ← lx.peek ['<', '>'] then
      let tok ← lx.gettoken
      let file ← lx.gettoken
      if file.1 ≠ 'a' then
        throw (.panic "missing file for redirection")
      else
        parseredirs fuel (cmd.redirect tok.1 file.2)
    else
      pure cmd

/-- The loop of `parseexec` over the arguments, of which `argc` have been stored. -/
def parseargs : Nat → Nat → Cmd ω → EStateM Stop σ (Cmd ω)
  | 0, _, _ => throw .outOfFuel
  | fuel + 1, argc, ret => do
    if ← lx.peek ['|', ')', '&', ';'] then
      pure ret
    else
      let tok ← lx.gettoken
      if tok.1 = NUL then
        pure ret
      else if tok.1 ≠ 'a' then
        throw (.panic "syntax")
      else if argc + 1 ≥ MAXARGS then
        throw (.panic "too many args")
      else
        let ret ← parseredirs lx fuel (ret.pushArg tok.2)
        parseargs fuel (argc + 1) ret

/-- The loop of `parseline` over the `&` after a pipe. -/
def parsebacks : Nat → Cmd ω → EStateM Stop σ (Cmd ω)
  | 0, _ => throw .outOfFuel
  | fuel + 1, cmd => do
    if ← lx.peek ['&'] then
      let _ ← lx.gettoken
      parsebacks fuel (.back cmd)
    else
      pure cmd

mutual

def parseline : Nat → EStateM Stop σ (Cmd ω)
  | 0 => throw .outOfFuel
  | fuel + 1 => do
    let cmd ← parsepipe fuel
    let cmd ← parsebacks lx fuel cmd
    if ← lx.peek [';'] then
      let _ ← lx.gettoken
      let right ← parseline fuel
      pure (.list cmd right)
    else
      pure cmd

def parsepipe : Nat → EStateM Stop σ (Cmd ω)
  | 0 => throw .outOfFuel
  | fuel + 1 => do
    let cmd ← parseexec fuel
    if ← lx.peek ['|'] then
      let _ ← lx.gettoken
      let right ← parsepipe fuel
      pure (.pipe cmd right)
    else
      pure cmd

def parseblock : Nat → EStateM Stop σ (Cmd ω)
  | 0 => throw .outOfFuel
  | fuel + 1 => do
    if ← lx.peek ['('] then
      let _ ← lx.gettoken
      let cmd ← parseline fuel
      if ← lx.peek [')'] then
        let _ ← lx.gettoken
        parseredirs lx fuel cmd
      else
        throw (.panic "syntax - missing )")
    else
      throw (.panic "parseblock")

def parseexec : Nat → EStateM Stop σ (Cmd ω)
  | 0 => throw .outOfFuel
  | fuel + 1 => do
    if ← lx.peek ['('] then
      parseblock fuel
    else
      let ret ← parseredirs lx fuel (.exec [])
      parseargs lx fuel 0 ret

end

end Parser

/-! ## The buffer -/

/-- The space, `\t`, `\r`, `\n` and `\v`. -/
def whitespace : List Char := [' ', '\t', '\r', '\n', Char.ofNat 11]

def symbols : List Char := ['<', '|', '>', '&', ';', '(', ')']

/-- A character of white space. -/
def isSpace (c : Char) : Bool := whitespace.contains c

/-- A character of a word. -/
def isWord (c : Char) : Bool := !whitespace.contains c && !symbols.contains c

/-- The character at a position. A buffer that has no zero ends in one. -/
def charAt (buf : List Char) (s : Nat) : Char := buf.getD s NUL

def strlen (buf : List Char) : Nat := (buf.takeWhile (· ≠ NUL)).length

/-- `while(s < es && p(*s)) s++`, with `n` for `es - s`. -/
def scan (p : Char → Bool) (buf : List Char) : Nat → Nat → Nat
  | 0, s => s
  | n + 1, s => if p (charAt buf s) then scan p buf n (s + 1) else s

/-- Skip white space. -/
def skip (buf : List Char) (es s : Nat) : Nat := scan isSpace buf (es - s) s

/-- The `switch` of `gettoken` on the character at `s`: the kind of the token and where it ends. -/
def token (buf : List Char) (es s : Nat) : Char × Nat :=
  let c := charAt buf s
  if c = NUL then (NUL, s)
  else if c = '|' ∨ c = '(' ∨ c = ')' ∨ c = ';' ∨ c = '&' ∨ c = '<' then (c, s + 1)
  else if c = '>' then
    if charAt buf (s + 1) = '>' then ('+', s + 2) else ('>', s + 1)
  else ('a', scan isWord buf (es - s) s)

def gettoken (buf : List Char) (es : Nat) : EStateM Stop Nat (Char × (Nat × Nat)) := do
  let s ← get
  let q := skip buf es s
  let (ret, eq) := token buf es q
  set (skip buf es eq)
  pure (ret, (q, eq))

def peek (buf : List Char) (es : Nat) (toks : List Char) : EStateM Stop Nat Bool := do
  modify (skip buf es)
  let s ← get
  pure (charAt buf s ≠ NUL && toks.contains (charAt buf s))

/-- The shell's own tokens, over the buffer up to `es`. -/
def lexer (buf : List Char) (es : Nat) : Lexer Nat (Nat × Nat) where
  peek := peek buf es
  gettoken := gettoken buf es

/-- NUL-terminate all the counted strings. -/
def nulterminate : Cmd (Nat × Nat) → List Char → List Char
  | .exec argv, buf => argv.foldl (fun buf w => buf.set w.2 NUL) buf
  | .redir cmd file _ _, buf => (nulterminate cmd buf).set file.2 NUL
  | .pipe left right, buf => nulterminate right (nulterminate left buf)
  | .list left right, buf => nulterminate right (nulterminate left buf)
  | .back cmd, buf => nulterminate cmd buf

/-- Parse the line in the buffer; the result comes with the buffer the words point into. -/
def parsecmd (buf : List Char) : Except Stop (Cmd (Nat × Nat) × List Char) :=
  let es := strlen buf
  let body : EStateM Stop Nat (Cmd (Nat × Nat)) := do
    let cmd ← parseline (lexer buf es) (4 * es + 4)
    let _ ← peek buf es []
    if (← get) ≠ es then throw (.panic "syntax") else pure cmd
  match body 0 with
  | .ok cmd _ => .ok (cmd, nulterminate cmd buf)
  | .error e _ => .error e

example : (parsecmd "ls -l>f&".toList).toOption.map (·.1) =
    some (.back (.redir (.exec [(0, 2), (3, 5)]) (6, 7) (O_WRONLY ||| O_CREATE) 1)) := by
  decide +kernel

end Xv6.Sh
