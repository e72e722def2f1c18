/-
**The parser of the shell: `parsecmd` of `sh.c`.**

The commands are the structures of `sh.c`, with a word told by the positions where it starts and
ends. The functions move the position `s` that the source passes as `*ps`. Each call that can repeat
or recurse takes `fuel`; `parsecmd` gives `4 * (strlen(s) + 1)`, which is never used up.

`parseexec` keeps a pointer to the `execcmd` it has made while `parseredirs` puts redirections
around it; `addArg` stores an argument through that pointer.
-/

import Xv6.Shell.Lexer

namespace Xv6.Shell

def MAXARGS : Nat := 10

/-! ### Commands -/

/-- `struct cmd`, where a word is a `Word`: two pointers into the line, or the string itself. -/
inductive Cmd (Word : Type) where
  | exec (argv : List Word)
  | redir (cmd : Cmd Word) (file : Word) (mode : BitVec 32) (fd : Nat)
  | pipe (left right : Cmd Word)
  | list (left right : Cmd Word)
  | back (cmd : Cmd Word)
deriving DecidableEq, Repr

/-- `argv[i]` and `eargv[i]`, or `file` and `efile`. -/
structure Span where
  q : Nat
  eq : Nat
deriving DecidableEq, Repr

namespace Cmd

variable {Word Other : Type}

def map (f : Word → Other) : Cmd Word → Cmd Other
  | exec argv => exec (argv.map f)
  | redir cmd file mode fd => redir (cmd.map f) (f file) mode fd
  | pipe left right => pipe (left.map f) (right.map f)
  | list left right => list (left.map f) (right.map f)
  | back cmd => back (cmd.map f)

/-- The words of a command. -/
def words : Cmd Word → List Word
  | exec argv => argv
  | redir cmd file _ _ => cmd.words ++ [file]
  | pipe left right => left.words ++ right.words
  | list left right => left.words ++ right.words
  | back cmd => cmd.words

/-- `cmd->argv[argc] = q; cmd->eargv[argc] = eq;`, where `cmd` is the `execcmd` that redirections
were put around. -/
def addArg (word : Word) : Cmd Word → Cmd Word
  | exec argv => exec (argv ++ [word])
  | redir cmd file mode fd => redir (cmd.addArg word) file mode fd
  | cmd => cmd

end Cmd

/-- Why a call does not return. -/
inductive Stop where
  | panic (message : String)
  | fuel
deriving DecidableEq, Repr

/-! ### The functions of `sh.c` -/

/-- The `switch` of `parseredirs`. -/
def redircmd (tok : UInt8) (cmd : Cmd Span) (file : Span) : Cmd Span :=
  if tok = '<'.toUInt8 then .redir cmd file O_RDONLY 0
  else if tok = '>'.toUInt8 then .redir cmd file (O_WRONLY ||| O_CREATE) 1
  else if tok = '+'.toUInt8 then .redir cmd file (O_WRONLY ||| O_CREATE) 1
  else cmd

def parseredirs (line : List UInt8) : Nat → Cmd Span → Nat → Except Stop (Cmd Span × Nat)
  | 0, _, _ => .error .fuel
  | fuel + 1, cmd, s =>
    let p := peek line s (bytes ['<', '>'])
    if p.found then
      let tok := gettoken line p.next
      let file := gettoken line tok.next
      if file.ret ≠ 'a'.toUInt8 then .error (.panic "missing file for redirection")
      else parseredirs line fuel (redircmd tok.ret cmd ⟨file.q, file.eq⟩) file.next
    else .ok (cmd, p.next)

/-- The loop of `parseexec`. -/
def parseargs (line : List UInt8) : Nat → Nat → Cmd Span → Nat → Except Stop (Cmd Span × Nat)
  | 0, _, _, _ => .error .fuel
  | fuel + 1, argc, ret, s =>
    let p := peek line s (bytes ['|', ')', '&', ';'])
    if p.found then .ok (ret, p.next)
    else
      let tok := gettoken line p.next
      if tok.ret = 0 then .ok (ret, tok.next)
      else if tok.ret ≠ 'a'.toUInt8 then .error (.panic "syntax")
      else if argc + 1 ≥ MAXARGS then .error (.panic "too many args")
      else do
        let (ret, s) ← parseredirs line fuel (ret.addArg ⟨tok.q, tok.eq⟩) tok.next
        parseargs line fuel (argc + 1) ret s

/-- The loop of `parseline`. -/
def parseback (line : List UInt8) : Nat → Cmd Span → Nat → Except Stop (Cmd Span × Nat)
  | 0, _, _ => .error .fuel
  | fuel + 1, cmd, s =>
    let p := peek line s (bytes ['&'])
    if p.found then parseback line fuel (.back cmd) (gettoken line p.next).next
    else .ok (cmd, p.next)

mutual

def parseline (line : List UInt8) : Nat → Nat → Except Stop (Cmd Span × Nat)
  | 0, _ => .error .fuel
  | fuel + 1, s => do
    let (cmd, s) ← parsepipe line fuel s
    let (cmd, s) ← parseback line fuel cmd s
    let p := peek line s (bytes [';'])
    if p.found then do
      let (right, s) ← parseline line fuel (gettoken line p.next).next
      return (.list cmd right, s)
    else return (cmd, p.next)

def parsepipe (line : List UInt8) : Nat → Nat → Except Stop (Cmd Span × Nat)
  | 0, _ => .error .fuel
  | fuel + 1, s => do
    let (cmd, s) ← parseexec line fuel s
    let p := peek line s (bytes ['|'])
    if p.found then do
      let (right, s) ← parsepipe line fuel (gettoken line p.next).next
      return (.pipe cmd right, s)
    else return (cmd, p.next)

def parseexec (line : List UInt8) : Nat → Nat → Except Stop (Cmd Span × Nat)
  | 0, _ => .error .fuel
  | fuel + 1, s =>
    let p := peek line s (bytes ['('])
    if p.found then parseblock line fuel p.next
    else do
      let (ret, s) ← parseredirs line fuel (.exec []) p.next
      parseargs line fuel 0 ret s

def parseblock (line : List UInt8) : Nat → Nat → Except Stop (Cmd Span × Nat)
  | 0, _ => .error .fuel
  | fuel + 1, s =>
    let p := peek line s (bytes ['('])
    if p.found then do
      let (cmd, s) ← parseline line fuel (gettoken line p.next).next
      let p := peek line s (bytes [')'])
      if p.found then parseredirs line fuel cmd (gettoken line p.next).next
      else .error (.panic "syntax - missing )")
    else .error (.panic "parseblock")

end

/-- `nulterminate`, on the memory that holds the line and its NUL. -/
def nulterminate : Cmd Span → List UInt8 → List UInt8
  | .exec argv, buf => argv.foldl (fun buf word => buf.set word.eq 0) buf
  | .redir cmd file _ _, buf => (nulterminate cmd buf).set file.eq 0
  | .pipe left right, buf => nulterminate right (nulterminate left buf)
  | .list left right, buf => nulterminate right (nulterminate left buf)
  | .back cmd, buf => nulterminate cmd buf

/-- `parsecmd`: the command and the memory of the line after the call. -/
def parsecmd (line : List UInt8) : Except Stop (Cmd Span × List UInt8) := do
  let (cmd, s) ← parseline line (4 * (line.length + 1)) 0
  if (peek line s []).next ≠ line.length then .error (.panic "syntax")
  else return (cmd, nulterminate cmd (line ++ [0]))

/-- The string that a pointer into `buf` is. -/
def stringAt (buf : List UInt8) (s : Nat) : List UInt8 := (buf.drop s).takeWhile (· ≠ 0)

/-- The command as `runcmd` reads it: its words are the strings in the memory. -/
def Cmd.strings (buf : List UInt8) (cmd : Cmd Span) : Cmd (List UInt8) :=
  cmd.map fun word => stringAt buf word.q

end Xv6.Shell
