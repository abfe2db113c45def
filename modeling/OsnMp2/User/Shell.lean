import Mathlib.Data.List.Basic
import Mathlib.Logic.Function.Basic

/-!
# The shell

`sh.c`: the parser of the command line, and what becomes of a command when it is run.

A pointer into the line is the text from it to `es`, where the NUL stands. The parser leaves
words as pairs of such pointers, into the line as it was typed, and `nulterminate` then writes a
NUL behind every word. The parser's functions call each other around a loop, so they have a bound
on the depth of the calls.

A command that runs is a tree of processes, and each has its own table of open files; calls of the
kernel fail where `Env` says so.

## Main definitions

* `Cmd W`: commands with words `W`
* `gettoken`, `peek`, `parseline`, `parsepipe`, `parseexec`, `parseblock`, `parsecmd`: the parser
* `nulterminate`: the NULs
* `runcmd`: the programs that are started, and their open files
-/

namespace Xv6.Sh

/-! ## Commands -/

/-- `MAXARGS`. -/
def maxargs : Nat := 10

def oRdonly : Nat := 0x000

def oWronly : Nat := 0x001

def oRdwr : Nat := 0x002

def oCreate : Nat := 0x200

def oTrunc : Nat := 0x400

/-- `struct cmd`. -/
inductive Cmd (W : Type)
  | exec (argv : List W)
  | redir (cmd : Cmd W) (file : W) (mode fd : Nat)
  | pipe (left right : Cmd W)
  | list (left right : Cmd W)
  | back (cmd : Cmd W)
deriving DecidableEq

namespace Cmd

variable {W V : Type}

/-- The same command with other words. -/
def map (f : W → V) : Cmd W → Cmd V
  | .exec argv => .exec (argv.map f)
  | .redir cmd file mode fd => .redir (cmd.map f) (f file) mode fd
  | .pipe left right => .pipe (left.map f) (right.map f)
  | .list left right => .list (left.map f) (right.map f)
  | .back cmd => .back (cmd.map f)

/-- The words of a command. -/
def words : Cmd W → List W
  | .exec argv => argv
  | .redir cmd file _ _ => cmd.words ++ [file]
  | .pipe left right => left.words ++ right.words
  | .list left right => left.words ++ right.words
  | .back cmd => cmd.words

/-- One more argument for the `execcmd` inside the redirections. -/
def addArg : Cmd W → W → Cmd W
  | .exec argv, w => .exec (argv ++ [w])
  | .redir cmd file mode fd, w => .redir (cmd.addArg w) file mode fd
  | cmd, _ => cmd

end Cmd

/-! ## Tokens -/

/-- `whitespace`. -/
def whitespace : List Char := [' ', '\t', '\r', '\n', '\x0b']

/-- `symbols`. -/
def symbols : List Char := ['<', '|', '>', '&', ';', '(', ')']

/-- `*s`. -/
def deref (s : List Char) : Char := s.headD '\x00'

/-- Past the blanks. -/
def skip (s : List Char) : List Char := s.dropWhile (· ∈ whitespace)

/-- May stand in a word. -/
def wordChar (c : Char) : Bool := c ∉ whitespace ∧ c ∉ symbols

/-- A counted string: what stands from `q` to `eq`. -/
structure Word where
  q : List Char
  eq : List Char

/-- The text of a counted string. -/
def Word.text (w : Word) : List Char := w.q.take (w.q.length - w.eq.length)

/-- `gettoken(ps, es, q, eq)`: what it returns, the pointers `q` and `eq`, and the new `*ps`. -/
def gettoken (ps : List Char) : Char × Word × List Char :=
  let q := skip ps
  let tok : Char × List Char :=
    match q with
    | [] => ('\x00', [])
    | c :: s =>
      if c = '|' ∨ c = '(' ∨ c = ')' ∨ c = ';' ∨ c = '&' ∨ c = '<' then (c, s)
      else if c = '>' then
        if deref s = '>' then ('+', s.tail) else ('>', s)
      -- A word goes on up to a blank or a symbol.
      else ('a', q.dropWhile wordChar)
  (tok.1, ⟨q, tok.2⟩, skip tok.2)

/-- `peek(ps, es, toks)`: what it returns, and the new `*ps`. -/
def peek (ps toks : List Char) : Bool × List Char :=
  (deref (skip ps) ≠ '\x00' ∧ deref (skip ps) ∈ toks, skip ps)

/-! ## The parser -/

/-- The calls of `panic`, and the bound on the depth. -/
inductive Panic
  /-- `"leftovers: %s\n"`, then `panic("syntax")` -/
  | leftovers (s : List Char)
  /-- `panic("missing file for redirection")` -/
  | missingFile
  /-- `panic("parseblock")` -/
  | parseblock
  /-- `panic("syntax - missing )")` -/
  | missingParen
  /-- `panic("syntax")` -/
  | badWord
  /-- `panic("too many args")` -/
  | tooManyArgs
  /-- the bound is too small -/
  | depth
deriving DecidableEq

/-- The `switch` of `parseredirs`. -/
def redirect (cmd : Cmd Word) (tok : Char) (file : Word) : Cmd Word :=
  if tok = '<' then .redir cmd file oRdonly 0
  else if tok = '>' then .redir cmd file (oWronly ||| oCreate ||| oTrunc) 1
  else if tok = '+' then .redir cmd file (oWronly ||| oCreate) 1
  else cmd

/-- `parseredirs(cmd, ps, es)`. -/
def parseredirs : Nat → Cmd Word → List Char → Except Panic (Cmd Word × List Char)
  | 0, _, _ => .error .depth
  | n + 1, cmd, ps =>
    -- `parseredirs` is also called behind each argument.
    let p := peek ps ['<', '>']
    if p.1 then
      let t := gettoken p.2
      let f := gettoken t.2.2
      if f.1 ≠ 'a' then .error .missingFile else parseredirs n (redirect cmd t.1 f.2.1) f.2.2
    else .ok (cmd, p.2)

/-- The loop of `parseexec`. -/
def parseargs : Nat → Cmd Word → Nat → List Char → Except Panic (Cmd Word × List Char)
  | 0, _, _, _ => .error .depth
  | n + 1, ret, argc, ps =>
    let p := peek ps ['|', ')', '&', ';']
    -- The symbols that may follow a command; any other one is an error.
    if p.1 then .ok (ret, p.2)
    else
      let t := gettoken p.2
      if t.1 = '\x00' then .ok (ret, t.2.2)
      else if t.1 ≠ 'a' then .error .badWord
      -- `argc` goes up before the test, and the last entry of `argv` is for the null pointer.
      else if maxargs ≤ argc + 1 then .error .tooManyArgs
      else (parseredirs n (ret.addArg t.2.1) t.2.2).bind fun r => parseargs n r.1 (argc + 1) r.2

/-- The loop of `parseline`. -/
def parsebacks : Nat → Cmd Word → List Char → Except Panic (Cmd Word × List Char)
  | 0, _, _ => .error .depth
  | n + 1, cmd, ps =>
    let p := peek ps ['&']
    if p.1 then parsebacks n (.back cmd) (gettoken p.2).2.2 else .ok (cmd, p.2)

mutual

/-- `parseline(ps, es)`. -/
def parseline : Nat → List Char → Except Panic (Cmd Word × List Char)
  | 0, _ => .error .depth
  | n + 1, ps =>
    (parsepipe n ps).bind fun r => (parsebacks n r.1 r.2).bind fun r =>
      let p := peek r.2 [';']
      -- To the right: the rest of the line is the right command, also when it is empty.
      if p.1 then (parseline n (gettoken p.2).2.2).bind fun t => .ok (.list r.1 t.1, t.2)
        else .ok (r.1, p.2)

/-- `parsepipe(ps, es)`. -/
def parsepipe : Nat → List Char → Except Panic (Cmd Word × List Char)
  | 0, _ => .error .depth
  | n + 1, ps =>
    (parseexec n ps).bind fun r =>
      let p := peek r.2 ['|']
      if p.1 then (parsepipe n (gettoken p.2).2.2).bind fun t => .ok (.pipe r.1 t.1, t.2)
        else .ok (r.1, p.2)

/-- `parseblock(ps, es)`. -/
def parseblock : Nat → List Char → Except Panic (Cmd Word × List Char)
  | 0, _ => .error .depth
  | n + 1, ps =>
    let p := peek ps ['(']
    if p.1 then
      (parseline n (gettoken p.2).2.2).bind fun r =>
        let p := peek r.2 [')']
        -- Redirections behind the parenthesis are those of the whole block.
        if p.1 then parseredirs n r.1 (gettoken p.2).2.2 else .error .missingParen
    else .error .parseblock

/-- `parseexec(ps, es)`. -/
def parseexec : Nat → List Char → Except Panic (Cmd Word × List Char)
  | 0, _ => .error .depth
  | n + 1, ps =>
    let p := peek ps ['(']
    -- A block is not followed by arguments.
    if p.1 then parseblock n p.2
    else (parseredirs n (.exec []) p.2).bind fun r => parseargs n r.1 0 r.2

end

/-- The string at the start of a buffer. -/
def cstr (buf : List Char) : List Char := buf.takeWhile (· ≠ '\x00')

/-- `*eq = 0`, in a buffer whose line has `len` characters. -/
def zero (len : Nat) (buf : List Char) (w : Word) : List Char := buf.set (len - w.eq.length) '\x00'

/-- `nulterminate(cmd)`: the buffer after it. -/
def nulterminate (len : Nat) : Cmd Word → List Char → List Char
  | .exec argv, buf => argv.foldl (zero len) buf
  -- The words of the command first, then the file.
  | .redir cmd file _ _, buf => zero len (nulterminate len cmd buf) file
  | .pipe left right, buf => nulterminate len right (nulterminate len left buf)
  | .list left right, buf => nulterminate len right (nulterminate len left buf)
  | .back cmd, buf => nulterminate len cmd buf

/-- `parsecmd(s)`, for the buffer at `s`: the command, and the buffer that its words point into. -/
def parsecmd (buf : List Char) : Except Panic (Cmd Word × List Char) :=
  let line := cstr buf
  (parseline (4 * line.length + 4) line).bind fun r =>
    -- Blanks behind the last token are skipped.
    let p := peek r.2 []
    if p.2 ≠ [] then .error (.leftovers p.2) else .ok (r.1, nulterminate line.length r.1 buf)

/-- The string that the pointer `w.q` points to, in a buffer whose line has `len` characters. -/
def readWord (len : Nat) (buf : List Char) (w : Word) :
    List Char := cstr (buf.drop (len - w.q.length))

/-! ## Running a command -/

/-- `NOFILE`. -/
def nofile : Nat := 16

/-- A call of `runcmd`, by the way to it in the tree of calls; a pipe is known by the call that
makes it. -/
abbrev Path := List Nat

/-- What a descriptor stands for. -/
inductive File
  /-- what the shell was started with -/
  | start (n : Nat)
  | opened (name : List Char) (mode : Nat)
  | pipeRead (p : Path)
  | pipeWrite (p : Path)
deriving DecidableEq

/-- `p->ofile`. -/
abbrev Fds := Nat → Option File

/-- `fdalloc(f)`. -/
def fdalloc (fds : Fds) (f : File) : Option (Nat × Fds) :=
  ((List.range nofile).find? fun fd => (fds fd).isNone).map fun fd =>
    (fd, Function.update fds fd (some f))

/-- `close(fd)`. -/
def close (fds : Fds) (fd : Nat) : Fds := Function.update fds fd none

/-- `dup(fd)`: the new table, unchanged when it fails. -/
def dup (fds : Fds) (fd : Nat) : Fds :=
  match fds fd with
  | none => fds
  | some f => ((fdalloc fds f).map Prod.snd).getD fds

/-- `pipe(p)`: the two descriptors and the new table. -/
def pipe (fds : Fds) (p : Path) : Option (Nat × Nat × Fds) :=
  (fdalloc fds (.pipeRead p)).bind fun r => (fdalloc r.2 (.pipeWrite p)).map fun w =>
    (r.1, w.1, w.2)

/-- The loop at the start of `main`, for at most `n` rounds, of which the first `k` find the
console. -/
def openConsole (k : Nat) : Nat → Fds → Fds
  | 0, fds => fds
  | n + 1, fds =>
    match k with
    | 0 => fds
    | k + 1 =>
      match fdalloc fds (.opened ['c', 'o', 'n', 's', 'o', 'l', 'e'] oRdwr) with
      | none => fds
      -- Descriptors 0, 1 and 2 are open now.
      | some (fd, fds) => if 3 ≤ fd then close fds fd else openConsole k n fds

/-- Which system calls of a call of `runcmd` succeed. -/
structure Env where
  fork : Path → Bool
  fork2 : Path → Bool
  pipe : Path → Bool
  opens : Path → List Char → Nat → Bool

/-- A call `exec(argv[0], argv)`, and the open files of its process. -/
structure Launch where
  argv : List (List Char)
  fds : Fds

/-- `open(file, mode)`. -/
def openFile (env : Env) (p : Path) (fds : Fds) (file : List Char) (mode : Nat) : Option Fds :=
  if env.opens p file mode then (fdalloc fds (.opened file mode)).map Prod.snd else none

/-- The call `p` of `runcmd(cmd)`, in a process with the open files `fds`: the programs that the
process and its children start. -/
def runcmd (env : Env) : Cmd (List Char) → Path → Fds → List Launch
  -- A program that is started does not come back.
  | .exec argv, _, fds => if argv = [] then [] else [⟨argv, fds⟩]
  | .redir cmd file mode fd, p, fds =>
    -- The file gets the lowest free descriptor, which is `fd` when those below it are open.
    match openFile env p (close fds fd) file mode with
    | none => []
    | some fds => runcmd env cmd (p ++ [0]) fds
  | .list left right, p, fds =>
    -- The shell waits for the left command before it goes on with the right one.
    if env.fork p then runcmd env left (p ++ [0]) fds ++ runcmd env right (p ++ [1]) fds else []
  | .pipe left right, p, fds =>
    match (if env.pipe p then pipe fds p else none) with
    | none => []
    | some (p0, p1, fds) =>
      if env.fork p then
        -- `close(1); dup(p[1])`, and the child closes both ends.
        runcmd env left (p ++ [0]) (close (close (dup (close fds 1) p1) p0) p1) ++
          if env.fork2 p then
            runcmd env right (p ++ [1]) (close (close (dup (close fds 0) p0) p0) p1) else []
      else []
  | .back cmd, p, fds => if env.fork p then runcmd env cmd (p ++ [0]) fds else []

end Xv6.Sh
