import PicoShell.Core.Shell
import PicoShell.Fs.PathCommands
import PicoShell.Memory.VariableStore
import PicoShell.Scheduling.Run

/-! `interpreter.c`, with the commands that it calls.  What the operating system does for `ls`,
`touch`, `fork` and `exec`, and what uninitialised memory holds, are parameters. -/

namespace PicoShell.Core

open Scheduling Memory

def ascii (text : String) : List UInt8 := text.toList.map fun c => UInt8.ofNat c.toNat

def textOf (bytes : List UInt8) : String := String.ofList (bytes.map fun c => Char.ofNat c.toNat)

def cstring (bytes : List UInt8) : Fs.CString where
  bytes := bytes.takeWhile (· != 0)
  noZero hmem := by simpa using List.mem_takeWhile_imp hmem

/-- `strcat` to an array of `size` that holds `dst`. -/
def strcat (size : ℕ) (dst src : List UInt8) : Exec (List UInt8) :=
  if dst.length + src.length < size then .ok (dst ++ src) else .error .index

/-- A word in front of its first `\r` or `\n`. -/
def chomp (arg : List UInt8) : List UInt8 := arg.takeWhile fun c => c != 13 && c != newline

/-- What the commands read and change besides the memory of the schedulers. -/
structure World (size : ℕ) (H : Type) where
  varTable : VariableStore size
  fs : Fs.State
  host : H
  /-- What the commands have printed; not the banner, the prompts and the reports of page faults. -/
  output : String
  /-- The calls of `parseInput` and `interpreter` so far, recorded for the specification. -/
  clock : ℕ

/-- The operating system, with its state in `H`. -/
structure Host (H : Type) where
  /-- The strings that `fgets` returns for a file, if there is one. -/
  lines : H → String → Option (List (List UInt8))
  /-- `fopen` for writing and `fclose`: do both succeed? -/
  create : H → List UInt8 → Bool × H
  /-- `system("ls")`, with what it prints. -/
  listing : H → String × H
  /-- `fork`, `execvp` and `waitpid`, with what is printed: the exit status, or `none` if there is no
  new process. -/
  spawn : H → List (List UInt8) → Option UInt8 × String × H

/-- The uninitialised memory that a command finds in its local variables. -/
structure Scratch where
  name : Fs.NameBuf
  dest : Fs.Inode
  stack : ℕ → Bytes 64
  programs : Pointer × Pointer

/-- Everything that the code of the shell does not determine. -/
structure Setting (s : Sizes) (size : ℕ) (H : Type) where
  host : Host H
  scratch : World size H → Scratch
  /-- `errorCode` of a call of `parseInput`. -/
  errorCode : World size H → ℤ
  /-- Its `parseInput` is not used. -/
  env : Env s (List UInt8) (World size H)

/-- What a call of the interpreter comes to: it returns, or a scheduler starts, or the shell exits. -/
inductive Outcome (s : Sizes) (size : ℕ) (H : Type)
  | returned (code : ℤ) (m : Machine s (List UInt8) (World size H))
  | started (c : Sched s (List UInt8) (World size H))
  | exited (m : Machine s (List UInt8) (World size H))

variable {s : Sizes} {size : ℕ} {H : Type}

namespace World

variable (w : World size H)

def print (text : String) : World size H := { w with output := w.output ++ text }

def tick : World size H := { w with clock := w.clock + 1 }

def getPath (key : List UInt8) : Option Fs.CString :=
  (w.varTable.vstoreGet (textOf key)).map fun value => cstring (ascii value)

end World

/-- The commands of the file `badcommand.c` that only the interpreter uses. -/
def badcommand : String × ℤ := ("Unknown Command\n", 1)
def badcommandMissingArguments : String × ℤ := ("Bad command: Missing arguments\n", 2)
def badcommandTooManyTokens : String × ℤ := ("Bad command: Too many tokens\n", 3)

def respond (out : String × ℤ) (m : Machine s (List UInt8) (World size H)) : Outcome s size H :=
  .returned out.2 { m with world := m.world.print out.1 }

def help : String × ℤ :=
  ("COMMAND          DESCRIPTION\n" ++
    "help             Displays all the commands\n" ++
    "quit             Exits / terminates the shell with \"Bye!\"\n" ++
    "set VAR STRING   Assigns a value to shell memory\n" ++
    "print VAR        Displays the STRING assigned to VAR\n" ++
    "run SCRIPT.TXT   Executes the file SCRIPT.TXT\n" ++
    "echo STRING      Displays STRING. If STRING starts with $, prints the " ++
    "value of the variable\n" ++
    "ls            Lists the contents of the current directory\n" ++
    "mkdir DIR     Creates a new directory with name DIR\n" ++
    "touch FILE    Creates a new empty file with name FILE\n" ++
    "cd DIR        Changes current directory to DIR\n" ++
    "fork CMD      Executes CMD with ARGS using fork-exec pattern\n\n", 0)

def quit (m : Machine s (List UInt8) (World size H)) : Outcome s size H :=
  .exited { m with world := m.world.print "Bye!\n" }

def joinTokens : List (List UInt8) → List UInt8 → Exec (List UInt8)
  | [], value => .ok value
  | [arg], value => strcat maxUserInput value arg
  | arg :: args, value => do
    let value ← strcat maxUserInput value arg
    let value ← strcat maxUserInput value [space]
    joinTokens args value

def setCommand (name value : List UInt8) (m : Machine s (List UInt8) (World size H)) :
    Outcome s size H :=
  let (code, varTable) := set m.world.varTable (textOf name) (textOf value)
  .returned code { m with world := { m.world with varTable := varTable } }

/-- `mmkdir`, `rmdir` or `cd`. -/
def pathCommand (o : Setting s size H) (cmd : Fs.PathCommand) (path : List UInt8)
    (m : Machine s (List UInt8) (World size H)) : Exec (Outcome s size H) := do
  let scratch := o.scratch m.world
  let (out, fs) ← cmd.exec m.world.getPath m.world.fs (cstring path) scratch.name scratch.dest
    scratch.stack
  return respond out { m with world := { m.world with fs := fs } }

def ls (o : Setting s size H) (m : Machine s (List UInt8) (World size H)) : Outcome s size H :=
  let (text, host) := o.host.listing m.world.host
  respond (text, 0) { m with world := { m.world with host := host } }

def touch (o : Setting s size H) (filename : List UInt8)
    (m : Machine s (List UInt8) (World size H)) : Outcome s size H :=
  if !Fs.isValidPath (cstring filename) then respond Fs.badcommandNotAlphanum m
  else
    let (ok, host) := o.host.create m.world.host filename
    respond (if ok then ("", 0) else Fs.badCommandErrorOccurred)
      { m with world := { m.world with host := host } }

def ffork (o : Setting s size H) (args : List (List UInt8))
    (m : Machine s (List UInt8) (World size H)) : Outcome s size H :=
  let (status, text, host) := o.host.spawn m.world.host args
  let m := { m with world := { m.world with host := host }.print text }
  match status with
  | none => respond Fs.badCommandErrorOccurred m
  | some status => .returned status.toNat m

def execMessage (code : ℤ) : String :=
  if code = badcommandFileDoesNotExist then "Bad command: File not found\n"
  else if code = badcommandInvalidPolicy then "Bad command: Invalid policy selected\n"
  else ""

/-- `exec` or `run`, up to the first iteration of the scheduler. -/
def launched (x : Exec (Launch s (List UInt8) (World size H))) : Exec (Outcome s size H) := do
  match ← x with
  | .returned code m => return respond (execMessage code, code) m
  | .started c => return .started c

def execCommand (o : Setting s size H) (programs : List (List UInt8)) (policy : List UInt8)
    (m : Machine s (List UInt8) (World size H)) : Exec (Outcome s size H) :=
  launched (launch o.env (o.host.lines m.world.host) (execPrograms (programs.map textOf))
    (textOf policy) m)

def runCommand (o : Setting s size H) (script : List UInt8)
    (m : Machine s (List UInt8) (World size H)) : Exec (Outcome s size H) :=
  let (p₁, p₂) := (o.scratch m.world).programs
  launched (run o.env (o.host.lines m.world.host) (textOf script) p₁ p₂ m)

@[simp] abbrev maxArgsSize : ℕ := 7

def interpreter (o : Setting s size H) (commandArgs : List (List UInt8))
    (m : Machine s (List UInt8) (World size H)) : Exec (Outcome s size H) :=
  let argsSize := commandArgs.length
  if argsSize < 1 then .ok (respond badcommand m)
  else if maxArgsSize < argsSize then .ok (respond badcommandTooManyTokens m)
  else
    let args := commandArgs.map chomp
    let command := args.getD 0 []
    let arg := args.getD 1 []
    if command = ascii "help" then
      if argsSize ≠ 1 then .ok (respond badcommand m) else .ok (respond help m)
    else if command = ascii "quit" then
      if argsSize ≠ 1 then .ok (respond badcommand m) else .ok (quit m)
    else if command = ascii "set" then
      if argsSize < 3 then .ok (respond badcommandMissingArguments m)
      else do
        let value ← joinTokens (args.drop 2) []
        return setCommand arg value m
    else if command = ascii "print" then
      if argsSize ≠ 2 then .ok (respond badcommand m)
      else .ok (respond (print m.world.varTable (textOf arg)) m)
    else if command = ascii "run" then
      if argsSize ≠ 2 then .ok (respond badcommand m) else runCommand o arg m
    else if command = ascii "echo" then
      if argsSize < 2 then .ok (respond badcommandMissingArguments m)
      else if 2 < argsSize then .ok (respond badcommandTooManyTokens m)
      else .ok (respond (echo m.world.varTable (textOf arg)) m)
    else if command = ascii "ls" then
      if 1 < argsSize then .ok (respond badcommandTooManyTokens m) else .ok (ls o m)
    else if command = ascii "mkdir" then
      if argsSize < 2 then .ok (respond badcommandMissingArguments m)
      else if 2 < argsSize then .ok (respond badcommandTooManyTokens m)
      else pathCommand o .mkdir arg m
    else if command = ascii "rmdir" then
      if argsSize < 2 then .ok (respond badcommandMissingArguments m)
      else if 2 < argsSize then .ok (respond badcommandTooManyTokens m)
      else pathCommand o .rmdir arg m
    else if command = ascii "touch" then
      if argsSize < 2 then .ok (respond badcommandMissingArguments m)
      else if 2 < argsSize then .ok (respond badcommandTooManyTokens m)
      else .ok (touch o arg m)
    else if command = ascii "cd" then
      if argsSize < 2 then .ok (respond badcommandMissingArguments m)
      else if 2 < argsSize then .ok (respond badcommandTooManyTokens m)
      else pathCommand o .cd arg m
    else if command = ascii "fork" then
      if argsSize < 2 then .ok (respond badcommandMissingArguments m)
      else .ok (ffork o (args.drop 1) m)
    else if command = ascii "exec" then
      if argsSize < 3 then .ok (respond badcommandMissingArguments m)
      else if 5 < argsSize then .ok (respond badcommandTooManyTokens m)
      else execCommand o (args.tail.dropLast) (args.getLastD []) m
    else .ok (respond badcommand m)

end PicoShell.Core
