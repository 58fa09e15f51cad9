import PbsCow.Lib.Hoare

namespace PbsCow.Shell
set_option autoImplicit true

def MAXARGS : Nat := 10

def O_RDONLY : Nat := 0x000
def O_WRONLY : Nat := 0x001
def O_CREATE : Nat := 0x200
def O_TRUNC : Nat := 0x400

/-- A string of a command is given by the positions of its first byte and of its end in the line. -/
inductive Cmd where
  | execcmd (argv : List (Nat × Nat))
  | redircmd (cmd : Cmd) (file efile mode fd : Nat)
  | pipecmd (left right : Cmd)
  | listcmd (left right : Cmd)
  | backcmd (cmd : Cmd)
  deriving DecidableEq

/-- `panic`: what the shell has written when it exits. `endless`: the fuel of a loop is used up. -/
inductive Stop where
  | panic (stderr : String)
  | endless

abbrev Parser := StateT Nat (Except Stop)

def panic (s : String) : Parser α := throw (.panic (s ++ "\n"))

def nul : Char := Char.ofNat 0

/-- The byte at position `i` of the memory that holds the line: a zero follows it. -/
def char (buf : List Char) (i : Nat) : Char := buf.getD i nul

def strlen (buf : List Char) : Nat := (buf.takeWhile (· ≠ nul)).length

def whitespace : List Char := [' ', '\t', '\r', '\n', Char.ofNat 11]

def symbols : List Char := ['<', '|', '>', '&', ';', '(', ')']

def isWord (c : Char) : Bool := !whitespace.contains c && !symbols.contains c

/-- A loop that moves `s` on while `p` holds of its byte, `n` bytes at most. -/
def scan (buf : List Char) (p : Char → Bool) : Nat → Nat → Nat
  | 0, s => s
  | n + 1, s => if p (char buf s) then scan buf p n (s + 1) else s

def skip (buf : List Char) (es s : Nat) : Nat := scan buf whitespace.contains (es - s) s

/-- What `gettoken` returns, and what it stores in `q` and `eq`. -/
structure Token where
  ret : Char
  q : Nat
  eq : Nat
  deriving DecidableEq

/-- The `switch` of `gettoken`. -/
def tokenAt (buf : List Char) (es s : Nat) : Token :=
  let c := char buf s
  if c = nul then ⟨nul, s, s⟩
  else if c ∈ ['|', '(', ')', ';', '&', '<'] then ⟨c, s, s + 1⟩
  else if c = '>' then if char buf (s + 1) = '>' then ⟨'+', s, s + 2⟩ else ⟨'>', s, s + 1⟩
  else ⟨'a', s, scan buf isWord (es - s) s⟩

def gettoken (buf : List Char) (es : Nat) : Parser Token := do
  let s ← get
  let t := tokenAt buf es (skip buf es s)
  set (skip buf es t.eq)
  return t

def peek (buf : List Char) (es : Nat) (toks : List Char) : Parser Bool := do
  let s := skip buf es (← get)
  set s
  return char buf s ≠ nul && toks.contains (char buf s)

/-- `cmd->argv[argc] = q` where `cmd` is the `execcmd` inside the redirections made so far. -/
def Cmd.arg (q eq : Nat) : Cmd → Cmd
  | .execcmd argv => .execcmd (argv ++ [(q, eq)])
  | .redircmd cmd file efile mode fd => .redircmd (cmd.arg q eq) file efile mode fd
  | cmd => cmd

/-- The `switch` of `parseredirs`. -/
def redirect (tok : Char) (cmd : Cmd) (q eq : Nat) : Cmd :=
  if tok = '<' then .redircmd cmd q eq O_RDONLY 0
  else if tok = '>' then .redircmd cmd q eq (O_WRONLY ||| O_CREATE ||| O_TRUNC) 1
  else if tok = '+' then .redircmd cmd q eq (O_WRONLY ||| O_CREATE) 1
  else cmd

def parseredirs (buf : List Char) (es : Nat) : Nat → Cmd → Parser Cmd
  | 0, _ => throw .endless
  | fuel + 1, cmd => do
    if ← peek buf es ['<', '>'] then
      let tok ← gettoken buf es
      let file ← gettoken buf es
      if file.ret ≠ 'a' then panic "missing file for redirection"
      else parseredirs buf es fuel (redirect tok.ret cmd file.q file.eq)
    else return cmd

/-- The loop of `parseexec`. -/
def parseargs (buf : List Char) (es : Nat) : Nat → Nat → Cmd → Parser Cmd
  | 0, _, _ => throw .endless
  | fuel + 1, argc, ret => do
    if ← peek buf es ['|', ')', '&', ';'] then return ret
    else
      let tok ← gettoken buf es
      if tok.ret = nul then return ret
      else if tok.ret ≠ 'a' then panic "syntax"
      else if MAXARGS ≤ argc + 1 then panic "too many args"
      else
        let ret ← parseredirs buf es fuel (ret.arg tok.q tok.eq)
        parseargs buf es fuel (argc + 1) ret

/-- The loop of `parseline`. -/
def parsebacks (buf : List Char) (es : Nat) : Nat → Cmd → Parser Cmd
  | 0, _ => throw .endless
  | fuel + 1, cmd => do
    if ← peek buf es ['&'] then
      let _ ← gettoken buf es
      parsebacks buf es fuel (.backcmd cmd)
    else return cmd

mutual

def parseline (buf : List Char) (es : Nat) : Nat → Parser Cmd
  | 0 => throw .endless
  | fuel + 1 => do
    let cmd ← parsepipe buf es fuel
    let cmd ← parsebacks buf es fuel cmd
    if ← peek buf es [';'] then
      let _ ← gettoken buf es
      return .listcmd cmd (← parseline buf es fuel)
    else return cmd

def parsepipe (buf : List Char) (es : Nat) : Nat → Parser Cmd
  | 0 => throw .endless
  | fuel + 1 => do
    let cmd ← parseexec buf es fuel
    if ← peek buf es ['|'] then
      let _ ← gettoken buf es
      return .pipecmd cmd (← parsepipe buf es fuel)
    else return cmd

def parseblock (buf : List Char) (es : Nat) : Nat → Parser Cmd
  | 0 => throw .endless
  | fuel + 1 => do
    if ← peek buf es ['('] then
      let _ ← gettoken buf es
      let cmd ← parseline buf es fuel
      if ← peek buf es [')'] then
        let _ ← gettoken buf es
        parseredirs buf es fuel cmd
      else panic "syntax - missing )"
    else panic "parseblock"

def parseexec (buf : List Char) (es : Nat) : Nat → Parser Cmd
  | 0 => throw .endless
  | fuel + 1 => do
    if ← peek buf es ['('] then parseblock buf es fuel
    else
      let ret ← parseredirs buf es fuel (.execcmd [])
      parseargs buf es fuel 0 ret

end

/-- The loop stops at the null pointer after the arguments. -/
def nulterminate : Cmd → List Char → List Char
  | .execcmd argv, buf => argv.foldl (fun buf arg => buf.set arg.2 nul) buf
  | .redircmd cmd _ efile _ _, buf => (nulterminate cmd buf).set efile nul
  | .pipecmd left right, buf => nulterminate right (nulterminate left buf)
  | .listcmd left right, buf => nulterminate right (nulterminate left buf)
  | .backcmd cmd, buf => nulterminate cmd buf

/-- `parsecmd` up to the check that nothing is left over. -/
def parseall (fuel : Nat) (buf : List Char) : Parser Cmd := do
  let es := strlen buf
  let cmd ← parseline buf es fuel
  let _ ← peek buf es []
  let s ← get
  if s ≠ es then panic ("leftovers: " ++ String.ofList ((buf.take es).drop s) ++ "\nsyntax")
  else return cmd

/-- The command, and the line with its strings ended. -/
def parsecmd (fuel : Nat) (buf : List Char) : Except Stop (Cmd × List Char) :=
  match parseall fuel buf 0 with
  | .ok (cmd, _) => .ok (cmd, nulterminate cmd buf)
  | .error e => .error e

end PbsCow.Shell
