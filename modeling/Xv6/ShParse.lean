import Xv6.BlockList

/-! The parser of the shell, `sh.c`. A `char *` into the command line is the rest of the line
from there on, and its distance from the start where it is stored in a command; `*s` is 0 at
the end. The loops and the recursion carry fuel. -/
namespace Xv6.Sh

def MAXARGS : Nat := 10

def O_RDONLY : Nat := 0
def O_WRONLY : Nat := 1
def O_CREATE : Nat := 0x200
def O_TRUNC : Nat := 0x400

def whitespace : List UInt8 := [32, 9, 13, 10, 11]

def symbols : List UInt8 := [60, 124, 62, 38, 59, 40, 41]

/-- `strchr`, which does not find the 0 at the end. -/
def strchr (t : List UInt8) (c : UInt8) : Bool := t.contains c

def isWhite (c : UInt8) : Bool := strchr whitespace c

def isWord (c : UInt8) : Bool := !strchr whitespace c && !strchr symbols c

/-- What `gettoken` returns: 0, a symbol, `+` for `>>` and `a` for a word. -/
inductive Tok
  | nul | bar | lparen | rparen | semi | amp | lt | gt | gtgt | word
deriving DecidableEq, Repr

/-- A token with the bounds that `gettoken` stores through `q` and `eq`. -/
structure Token where
  tok : Tok
  q : Nat
  eq : Nat
deriving DecidableEq, Repr

/-- The `switch` of `gettoken`: the token at `s` and where it ends. -/
def tokenAt (s : List UInt8) : Tok × List UInt8 :=
  if s.headD 0 = 0 then (.nul, s)
  else if s.headD 0 = 124 then (.bar, s.tail)
  else if s.headD 0 = 40 then (.lparen, s.tail)
  else if s.headD 0 = 41 then (.rparen, s.tail)
  else if s.headD 0 = 59 then (.semi, s.tail)
  else if s.headD 0 = 38 then (.amp, s.tail)
  else if s.headD 0 = 60 then (.lt, s.tail)
  else if s.headD 0 = 62 then
    if s.tail.headD 0 = 62 then (.gtgt, s.tail.tail) else (.gt, s.tail)
  else (.word, s.dropWhile isWord)

def gettoken (es : Nat) (s : List UInt8) : Token × List UInt8 :=
  let s := s.dropWhile isWhite
  let r := tokenAt s
  (⟨r.1, es - s.length, es - r.2.length⟩, r.2.dropWhile isWhite)

def peek (s toks : List UInt8) : Bool × List UInt8 :=
  let s := s.dropWhile isWhite
  (s.headD 0 != 0 && strchr toks (s.headD 0), s)

/-- `struct cmd`; a word is the pair of pointers to its start and its end. -/
inductive Cmd
  | exec (argv : List (Nat × Nat))
  | redir (cmd : Cmd) (file : Nat × Nat) (mode fd : Nat)
  | pipe (left right : Cmd)
  | list (left right : Cmd)
  | back (cmd : Cmd)
deriving DecidableEq, Repr

/-- A `panic`, or a loop that has not ended. -/
inductive Fail
  | panic (msg : String)
  | fuel
deriving DecidableEq, Repr

def redirect (cmd : Cmd) (tok : Tok) (w : Token) : Cmd :=
  match tok with
  | .lt => .redir cmd (w.q, w.eq) O_RDONLY 0
  | .gt => .redir cmd (w.q, w.eq) (O_WRONLY ||| O_CREATE ||| O_TRUNC) 1
  | .gtgt => .redir cmd (w.q, w.eq) (O_WRONLY ||| O_CREATE) 1
  | _ => cmd

def parseredirs (es : Nat) : Nat → Cmd → List UInt8 → Except Fail (Cmd × List UInt8)
  | 0, _, _ => .error .fuel
  | fuel+1, cmd, s =>
    let (more, s) := peek s [60, 62]
    if more then
      let (op, s) := gettoken es s
      let (w, s) := gettoken es s
      if w.tok ≠ .word then .error (.panic "missing file for redirection")
      else parseredirs es fuel (redirect cmd op.tok w) s
    else .ok (cmd, s)

/-- `cmd->argv[argc] = q`, where `cmd` is the `execcmd` inside the redirections `ret`. -/
def addArg : Cmd → Nat × Nat → Cmd
  | .exec argv, w => .exec (argv ++ [w])
  | .redir cmd file mode fd, w => .redir (addArg cmd w) file mode fd
  | cmd, _ => cmd

def argsLoop (es : Nat) : Nat → Nat → Cmd → List UInt8 → Except Fail (Cmd × List UInt8)
  | 0, _, _, _ => .error .fuel
  | fuel+1, argc, ret, s =>
    let (stop, s) := peek s [124, 41, 38, 59]
    if stop then .ok (ret, s)
    else
      let (t, s) := gettoken es s
      if t.tok = .nul then .ok (ret, s)
      else if t.tok ≠ .word then .error (.panic "syntax")
      else if argc + 1 ≥ MAXARGS then .error (.panic "too many args")
      else do
        let (ret, s) ← parseredirs es fuel (addArg ret (t.q, t.eq)) s
        argsLoop es fuel (argc + 1) ret s

def backLoop (es : Nat) : Nat → Cmd → List UInt8 → Except Fail (Cmd × List UInt8)
  | 0, _, _ => .error .fuel
  | fuel+1, cmd, s =>
    let (more, s) := peek s [38]
    if more then backLoop es fuel (.back cmd) (gettoken es s).2
    else .ok (cmd, s)

mutual

def parseline (es : Nat) : Nat → List UInt8 → Except Fail (Cmd × List UInt8)
  | 0, _ => .error .fuel
  | fuel+1, s => do
    let (cmd, s) ← parsepipe es fuel s
    let (cmd, s) ← backLoop es fuel cmd s
    let (more, s) := peek s [59]
    if more then
      let (right, s) ← parseline es fuel (gettoken es s).2
      .ok (.list cmd right, s)
    else .ok (cmd, s)

def parsepipe (es : Nat) : Nat → List UInt8 → Except Fail (Cmd × List UInt8)
  | 0, _ => .error .fuel
  | fuel+1, s => do
    let (cmd, s) ← parseexec es fuel s
    let (more, s) := peek s [124]
    if more then
      let (right, s) ← parsepipe es fuel (gettoken es s).2
      .ok (.pipe cmd right, s)
    else .ok (cmd, s)

def parseexec (es : Nat) : Nat → List UInt8 → Except Fail (Cmd × List UInt8)
  | 0, _ => .error .fuel
  | fuel+1, s =>
    let (block, s) := peek s [40]
    if block then parseblock es fuel s
    else do
      let (ret, s) ← parseredirs es fuel (.exec []) s
      argsLoop es fuel 0 ret s

def parseblock (es : Nat) : Nat → List UInt8 → Except Fail (Cmd × List UInt8)
  | 0, _ => .error .fuel
  | fuel+1, s =>
    let (opens, s) := peek s [40]
    if !opens then .error (.panic "parseblock")
    else do
      let (cmd, s) ← parseline es fuel (gettoken es s).2
      let (closes, s) := peek s [41]
      if !closes then .error (.panic "syntax - missing )")
      else parseredirs es fuel cmd (gettoken es s).2

end

def nulterminate : Cmd → List UInt8 → List UInt8
  | .exec argv, buf => argv.foldl (fun b w => b.set w.2 0) buf
  | .redir cmd file _ _, buf => (nulterminate cmd buf).set file.2 0
  | .pipe left right, buf => nulterminate right (nulterminate left buf)
  | .list left right, buf => nulterminate right (nulterminate left buf)
  | .back cmd, buf => nulterminate cmd buf

def cstring (buf : List UInt8) : List UInt8 := buf.takeWhile (· != 0)

def parsecmd (fuel : Nat) (buf : List UInt8) : Except Fail (Cmd × List UInt8) := do
  let s := cstring buf
  let (cmd, s) ← parseline s.length fuel s
  let (_, s) := peek s []
  if s ≠ [] then .error (.panic "syntax")
  else .ok (cmd, nulterminate cmd buf)

end Xv6.Sh
