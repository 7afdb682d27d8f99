import PicoShell.Fault
import PicoShell.Lib.Fields

/-! `parseInput` of `shell.c`, with every store into its arrays checked.  A string is the list
of its characters in front of the terminator. -/

namespace PicoShell.Core

open Fields

def semicolon : UInt8 := 59

def space : UInt8 := 32

def newline : UInt8 := 10

@[simp] abbrev maxUserInput : ℕ := 1000

@[simp] abbrev maxNumCommands : ℕ := 100

/-- The sizes of `tmp`, `commands` and `words`. -/
@[simp] abbrev tmpSize : ℕ := 200
@[simp] abbrev commandsSize : ℕ := 100
@[simp] abbrev wordsSize : ℕ := 100

/-- A store behind the elements that an array of `size` holds already. -/
def store {α : Type} (size : ℕ) (xs : List α) (x : α) : Exec (List α) :=
  if xs.length < size then .ok (xs ++ [x]) else .error .index

/-- `strtok` with `;`: the next token and the rest of the string. -/
def strtok (inp : List UInt8) : Option (List UInt8 × List UInt8) :=
  match inp.dropWhile (· == semicolon) with
  | [] => none
  | s => some (s.takeWhile (· != semicolon), (s.dropWhile (· != semicolon)).drop 1)

/-- The loop over the tokens; `n` is `MAX_NUM_COMMANDS - cmdCount`. -/
def readCommands : ℕ → List UInt8 → List (List UInt8) → Exec (List (List UInt8))
  | 0, _, commands => .ok commands
  | n + 1, inp, commands =>
    match strtok inp with
    | none => .ok commands
    | some (cmd, inp) => do
      let commands ← store commandsSize commands cmd
      readCommands n inp commands

/-- `wordEnding`; `none` is the terminator. -/
def wordEnding (c : Option UInt8) : Bool := c == none || c == some newline || c == some space

/-- The loop over leading blanks, from index `ix` on. -/
def skipSpaces : List UInt8 → ℕ → List UInt8 × ℕ
  | [], ix => ([], ix)
  | c :: cs, ix => if c = space ∧ ix < maxUserInput then skipSpaces cs (ix + 1) else (c :: cs, ix)

/-- The loop that copies a word to `tmp`. -/
def copyWord : List UInt8 → ℕ → List UInt8 → Exec (List UInt8 × ℕ × List UInt8)
  | [], ix, tmp => .ok ([], ix, tmp)
  | c :: cs, ix, tmp =>
    if wordEnding (some c) = false ∧ ix < maxUserInput then do
      let tmp ← store tmpSize tmp c
      copyWord cs (ix + 1) tmp
    else .ok (c :: cs, ix, tmp)

/-- The loop over the words of a command; each round goes over at least one character. -/
def readWords : ℕ → List UInt8 → ℕ → List (List UInt8) → Exec (List (List UInt8))
  | 0, _, _, _ => .error .fuel
  | fuel + 1, cmd, ix, words =>
    if cmd.head? = some newline ∨ cmd = [] ∨ maxUserInput ≤ ix then .ok words
    else do
      let (cmd, ix, tmp) ← copyWord cmd ix []
      let _ ← store tmpSize tmp 0
      let words ← store wordsSize words tmp
      match cmd with
      | [] => return words
      | _ :: cmd => readWords fuel cmd (ix + 1) words

def parseCommand (cmd : List UInt8) : Exec (List (List UInt8)) :=
  let (rest, ix) := skipSpaces cmd 0
  readWords (cmd.length + 1) rest ix []

section Interpreter

variable {St : Type} (interpreter : List (List UInt8) → St → Exec (ℤ × St))

def runCommands : List (List UInt8) → ℤ → St → Exec (ℤ × St)
  | [], errorCode, st => .ok (errorCode, st)
  | cmd :: commands, _, st => do
    let words ← parseCommand cmd
    let (errorCode, st) ← interpreter words st
    runCommands commands errorCode st

/-- `parseInput`; `errorCode` is not initialised. -/
def parseInput (errorCode : ℤ) (inp : List UInt8) (st : St) : Exec (ℤ × St) := do
  let commands ← readCommands maxNumCommands inp []
  runCommands interpreter commands errorCode st

end Interpreter

end PicoShell.Core
