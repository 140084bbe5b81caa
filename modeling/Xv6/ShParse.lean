import Xv6.ShLex
import Xv6.Inode

/-!
# The shell's parser

The recursive descent of `sh.c`: `parseline`, `parsepipe`, `parseexec`,
`parseblock` and `parseredirs`, sharing the cursor `*ps` through `peek` and
`gettoken`, then `nulterminate`, which writes a NUL at the end of every word
the tree points at.  A node points into the line by positions: an argument
or a file name is the pair `(q, eq)`.

`parseexec` wraps the redirections it reads around its `execcmd` and goes on
writing arguments into that node through the pointer it kept; here the node
at the bottom of the wrapped command is given its arguments when the loop
ends (`Cmd.setArgv`).  The recursion carries a fuel bound; `parsecmd` gives
it four rounds per byte of the line and a few more, which no parse needs
all of (`Xv6.ShGrammar`).
-/

namespace Xv6.Sh

/-- `MAXARGS`. -/
def maxargs : Nat := 10

/-- `struct cmd` and its five kinds. -/
inductive Cmd
  | exec (argv : List (Nat × Nat))
  | redir (cmd : Cmd) (file : Nat × Nat) (mode : Int32) (fd : Int32)
  | pipe (left right : Cmd)
  | list (left right : Cmd)
  | back (cmd : Cmd)
  deriving DecidableEq, Repr

/-- `cmd->argv` written through the `execcmd` at the bottom of the
redirections around it. -/
def Cmd.setArgv : Cmd → List (Nat × Nat) → Cmd
  | .exec _, argv => .exec argv
  | .redir cmd file mode fd, argv => .redir (cmd.setArgv argv) file mode fd
  | cmd, _ => cmd

/-- The `switch(tok)` of `parseredirs`: `redircmd` with the mode and the fd
of `<`, `>` or `>>`. -/
def redirFor (tok : Tok) (cmd : Cmd) (file : Nat × Nat) : Cmd :=
  match tok with
  | .lt => .redir cmd file oRdonly 0
  | .gt => .redir cmd file (oWronly ||| oCreate) 1
  | .append => .redir cmd file (oWronly ||| oCreate) 1
  | _ => cmd

section Parse

variable (l : List UInt8) (es : Nat)

/-- `parseredirs(cmd, ps, es)`. -/
def parseredirs : Nat → Cmd → Nat → Except Fault (Cmd × Nat)
  | 0, _, _ => .error .hang
  | fuel + 1, cmd, p =>
    let (more, p) := peek l es p ['<'.toUInt8, '>'.toUInt8]
    if more then
      let (tok, _, _, p) := gettoken l es p
      let (tok', q, eq, p) := gettoken l es p
      if tok' ≠ .word then .error (.panic "missing file for redirection")
      else parseredirs fuel (redirFor tok cmd (q, eq)) p
    else .ok (cmd, p)

/-- The `while(peek(ps, es, "&"))` loop of `parseline`. -/
def parselineBacks : Nat → Cmd → Nat → Except Fault (Cmd × Nat)
  | 0, _, _ => .error .hang
  | fuel + 1, cmd, p =>
    let (more, p) := peek l es p ['&'.toUInt8]
    if more then parselineBacks fuel (.back cmd) (gettoken l es p).2.2.2
    else .ok (cmd, p)

/-- The argument loop of `parseexec`: the command with its redirections so
far, and the arguments so far. -/
def parseexecArgs : Nat → Cmd → List (Nat × Nat) → Nat →
    Except Fault (Cmd × List (Nat × Nat) × Nat)
  | 0, _, _, _ => .error .hang
  | fuel + 1, ret, argv, p =>
    let (stop, p) := peek l es p ['|'.toUInt8, ')'.toUInt8, '&'.toUInt8, ';'.toUInt8]
    if stop then .ok (ret, argv, p)
    else
      let (tok, q, eq, p) := gettoken l es p
      if tok = .eof then .ok (ret, argv, p)
      else if tok ≠ .word then .error (.panic "syntax")
      else
        let argv := argv ++ [(q, eq)]
        if maxargs ≤ argv.length then .error (.panic "too many args")
        else do
          let (ret, p) ← parseredirs l es fuel ret p
          parseexecArgs fuel ret argv p

mutual

/-- `parseline(ps, es)`. -/
def parseline : Nat → Nat → Except Fault (Cmd × Nat)
  | 0, _ => .error .hang
  | fuel + 1, p => do
    let (cmd, p) ← parsepipe fuel p
    let (cmd, p) ← parselineBacks l es fuel cmd p
    let (more, p) := peek l es p [';'.toUInt8]
    if more then do
      let (rest, p) ← parseline fuel (gettoken l es p).2.2.2
      .ok (.list cmd rest, p)
    else .ok (cmd, p)
termination_by structural fuel => fuel

/-- `parsepipe(ps, es)`. -/
def parsepipe : Nat → Nat → Except Fault (Cmd × Nat)
  | 0, _ => .error .hang
  | fuel + 1, p => do
    let (cmd, p) ← parseexec fuel p
    let (more, p) := peek l es p ['|'.toUInt8]
    if more then do
      let (right, p) ← parsepipe fuel (gettoken l es p).2.2.2
      .ok (.pipe cmd right, p)
    else .ok (cmd, p)
termination_by structural fuel => fuel

/-- `parseblock(ps, es)`. -/
def parseblock : Nat → Nat → Except Fault (Cmd × Nat)
  | 0, _ => .error .hang
  | fuel + 1, p =>
    let (open_, p) := peek l es p ['('.toUInt8]
    if !open_ then .error (.panic "parseblock")
    else do
      let (cmd, p) ← parseline fuel (gettoken l es p).2.2.2
      let (close, p) := peek l es p [')'.toUInt8]
      if !close then .error (.panic "syntax - missing )")
      else parseredirs l es fuel cmd (gettoken l es p).2.2.2
termination_by structural fuel => fuel

/-- `parseexec(ps, es)`. -/
def parseexec : Nat → Nat → Except Fault (Cmd × Nat)
  | 0, _ => .error .hang
  | fuel + 1, p =>
    let (block, p) := peek l es p ['('.toUInt8]
    if block then parseblock fuel p
    else do
      let (ret, p) ← parseredirs l es fuel (.exec []) p
      let (ret, argv, p) ← parseexecArgs l es fuel ret [] p
      .ok (ret.setArgv argv, p)
termination_by structural fuel => fuel

end

end Parse

/-- `nulterminate(cmd)`: a NUL at the end of every argument and file name. -/
def nulterminate : Cmd → List UInt8 → List UInt8
  | .exec argv, b => argv.foldl (fun b a => b.set a.2 0) b
  | .redir cmd file _ _, b => (nulterminate cmd b).set file.2 0
  | .pipe left right, b => nulterminate right (nulterminate left b)
  | .list left right, b => nulterminate right (nulterminate left b)
  | .back cmd, b => nulterminate cmd b

/-- `parsecmd(s)`: the tree and the line after `nulterminate`; leftovers
after the line panic with `"syntax"`. -/
def parsecmd (l : List UInt8) : Except Fault (Cmd × List UInt8) := do
  let es := strlen l
  let (cmd, p) ← parseline l es (4 * es + 8) 0
  let (_, p) := peek l es p []
  if p ≠ es then .error (.panic "syntax")
  else .ok (cmd, nulterminate cmd l)

end Xv6.Sh
