import PicoShell.Core.Interpreter
import PicoShell.Scheduling.ErrorCodes

/-! `main`, `parseInput`, the interpreter and the schedulers as one machine.  The lines that a
scheduler executes may start schedulers of their own, so calls nest to any depth. -/

namespace PicoShell.Core

open Scheduling

variable {s : Sizes} {size : ℕ} {H : Type}

abbrev Memory (s : Sizes) (size : ℕ) (H : Type) : Type := Machine s (List UInt8) (World size H)

/-- A scheduler that waits for a call of `parseInput`, with the commands behind the `exec` that
started it. -/
structure Level (s : Sizes) (size : ℕ) (H : Type) where
  sched : Sched s (List UInt8) (World size H)
  pcb : ℕ
  i : ℕ
  frame : Fin s.numFrames
  commands : List (List UInt8)

/-- The shell: `main` at its prompt, `parseInput` in front of a command, a scheduler in front of an
iteration, or nothing any more.  The calls that wait are on the stack, `input` is what is left on
the standard input. -/
inductive Process (s : Sizes) (size : ℕ) (H : Type)
  | prompt (m : Memory s size H) (input : List (List UInt8))
  | line (m : Memory s size H) (commands : List (List UInt8)) (errorCode : ℤ)
      (stack : List (Level s size H)) (input : List (List UInt8))
  | scheduler (c : Sched s (List UInt8) (World size H)) (commands : List (List UInt8))
      (stack : List (Level s size H)) (input : List (List UInt8))
  | exited (m : Memory s size H) (code : ℤ)

/-- The commands of a line.  `strtok` finds none at `NULL`, where an earlier line ended. -/
def commandsOf : Option (List UInt8) → Exec (List (List UInt8))
  | none => .ok []
  | some inp => readCommands maxNumCommands inp []

/-- `parseInput` up to its first command. -/
def openLine (o : Setting s size H) (inp : Option (List UInt8)) (m : Memory s size H)
    (stack : List (Level s size H)) (input : List (List UInt8)) : Exec (Process s size H) := do
  let commands ← commandsOf inp
  return .line { m with world := m.world.tick } commands (o.errorCode m.world) stack input

/-- `main` up to its prompt; the file system is not initialised yet. -/
def boot (heap : ℕ → PCB s (List UInt8)) (host : H) (cwd : Fs.Inode) (buf : Fs.Block)
    (stack : ℕ → Bytes 64) (input : List (List UInt8)) : Exec (Process s size H) := do
  let (r, fs) ← Fs.fsInit ⟨.zeroed, cwd⟩ buf stack
  let m := memInit heap ⟨PicoShell.Memory.vstoreInit size, fs, host, "", 0⟩
  return if r ≠ 0 then .exited m 99 else .prompt m input

namespace Process

/-- `parseInput` with a command in front of it. -/
def command (o : Setting s size H) (m : Memory s size H) (cmd : List UInt8)
    (commands : List (List UInt8)) (stack : List (Level s size H)) (input : List (List UInt8)) :
    Exec (Process s size H) := do
  let words ← parseCommand cmd
  match ← interpreter o words { m with world := m.world.tick } with
  | .returned code m => return .line m commands code stack input
  | .started c => return .scheduler c commands stack input
  | .exited m => return .exited m 0

/-- The end of `parseInput`: back to `main`, or to the scheduler that called it. -/
def endLine (m : Memory s size H) (errorCode : ℤ) (input : List (List UInt8)) :
    List (Level s size H) → Process s size H
  | [] => if errorCode = -1 then .exited m 99 else .prompt m input
  | l :: stack =>
    .scheduler (l.sched.resume l.pcb l.i l.frame errorCode m) l.commands stack input

/-- One iteration of a scheduler, up to the line that it executes. -/
def iterate (o : Setting s size H) (c : Sched s (List UInt8) (World size H))
    (commands : List (List UInt8)) (stack : List (Level s size H)) (input : List (List UInt8)) :
    Exec (Process s size H) := do
  match ← c.next with
  | .ret => return .line c.machine commands c.errCode stack input
  | .goto c => return .scheduler c commands stack input
  | .line c pcb i frame =>
    openLine o (c.lineIn pcb frame) (c.machine.accessFrame frame)
      (⟨c, pcb, i, frame, commands⟩ :: stack) input

/-- The shell goes on; `none` once it has exited. -/
def step (o : Setting s size H) : Process s size H → Exec (Option (Process s size H))
  | prompt m [] => .ok (some (exited m 0))
  | prompt m (inp :: input) => some <$> openLine o (some inp) m [] input
  | line m (cmd :: commands) _ stack input => some <$> command o m cmd commands stack input
  | line m [] errorCode stack input => .ok (some (endLine m errorCode input stack))
  | scheduler c commands stack input => some <$> iterate o c commands stack input
  | exited _ _ => .ok none

def Goes (o : Setting s size H) (P P' : Process s size H) : Prop := P.step o = .ok (some P')

def runFor (o : Setting s size H) : ℕ → Process s size H → Option (Process s size H)
  | 0, P => some P
  | n + 1, P =>
    match P.step o with
    | .ok (some P') => runFor o n P'
    | _ => none

def memory : Process s size H → Memory s size H
  | prompt m _ => m
  | line m _ _ _ _ => m
  | scheduler c _ _ _ => c.machine
  | exited m _ => m

def stack : Process s size H → List (Level s size H)
  | prompt _ _ => []
  | line _ _ _ stack _ => stack
  | scheduler _ _ stack _ => stack
  | exited _ _ => []

end Process

end PicoShell.Core
