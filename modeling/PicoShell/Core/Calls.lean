import PicoShell.Core.Nested
import PicoShell.Lib.Calls

/-! `parseInput`, `interpreter`, `exec` and the schedulers call each other recursively.  The shell
with its stack of levels does what this recursion computes, and a line does the same at the prompt
and in a script, at any depth. -/

namespace PicoShell.Core

open Scheduling

variable {s : Sizes} {size : ℕ} {H : Type} {o : Setting s size H} {m m' : Memory s size H}
  {P P' : Process s size H} {code : ℤ}

/-- The call of `parseInput` that is executed, or a scheduler inside of it. -/
inductive Focus (s : Sizes) (size : ℕ) (H : Type)
  | line (m : Memory s size H) (commands : List (List UInt8)) (errorCode : ℤ)
  | scheduler (c : Sched s (List UInt8) (World size H)) (commands : List (List UInt8))

namespace Focus

def enter (o : Setting s size H) (m : Memory s size H) (commands : List (List UInt8)) :
    Focus s size H :=
  .line { m with world := m.world.tick } commands (o.errorCode m.world)

/-- `parseInput` returns behind its last command; a scheduler calls it for each line. -/
def next (o : Setting s size H) :
    Focus s size H → Calls.Action (Focus s size H) (Level s size H) (Memory s size H × ℤ)
  | line m [] errorCode => .ret (m, errorCode)
  | line m (cmd :: commands) _ =>
    match parseCommand cmd with
    | .error _ => .stop
    | .ok words =>
      match interpreter o words { m with world := m.world.tick } with
      | .error _ => .stop
      | .ok (.exited _) => .stop
      | .ok (.returned code m) => .goto (line m commands code)
      | .ok (.started c) => .goto (scheduler c commands)
  | scheduler c commands =>
    match c.next with
    | .error _ => .stop
    | .ok .ret => .goto (line c.machine commands c.errCode)
    | .ok (.goto c) => .goto (scheduler c commands)
    | .ok (.line c pcb i frame) =>
      match commandsOf (c.lineIn pcb frame) with
      | .error _ => .stop
      | .ok inner => .call (enter o (c.machine.accessFrame frame) inner) ⟨c, pcb, i, frame, commands⟩

def process (stack : List (Level s size H)) (input : List (List UInt8)) :
    Focus s size H → Process s size H
  | line m commands errorCode => .line m commands errorCode stack input
  | scheduler c commands => .scheduler c commands stack input

end Focus

def calls (o : Setting s size H) :
    Calls.Machine (Focus s size H) (Level s size H) (Memory s size H × ℤ) where
  next := Focus.next o
  resume l r := .scheduler (l.sched.resume l.pcb l.i l.frame r.2 r.1) l.commands

/-- A call of `parseInput` on a string, with all the calls that it makes: it leaves this memory
and returns this code. -/
def Evaluates (o : Setting s size H) (inp : List UInt8) (m m' : Memory s size H) (code : ℤ) :
    Prop :=
  ∃ commands, readCommands maxNumCommands inp [] = .ok commands ∧
    (calls o).Eval (.enter o m commands) (m', code)

namespace Process

open Calls.Machine

variable {f f' : Focus s size H} {stack stack' : List (Level s size H)}
  {input : List (List UInt8)}

theorem command_next {cmd : List UInt8} {commands : List (List UInt8)}
    (h : command o m cmd commands stack input = .ok P) (errorCode : ℤ) :
    (∃ f', (Focus.line m (cmd :: commands) errorCode).next o = .goto f' ∧
      P = f'.process stack input) ∨
    (Focus.line m (cmd :: commands) errorCode).next o = .stop ∧ ∃ m', P = .exited m' 0 := by
  obtain ⟨words, hwords, h⟩ := Exec.bind_ok h
  obtain ⟨x, hinterpreter, h⟩ := Exec.bind_ok h
  simp only [Focus.next, hwords, hinterpreter]
  cases x with
  | returned code m' => exact .inl ⟨_, rfl, (Except.ok.inj h).symm⟩
  | started c => exact .inl ⟨_, rfl, (Except.ok.inj h).symm⟩
  | exited m' => exact .inr ⟨rfl, m', (Except.ok.inj h).symm⟩

theorem iterate_next {c : Sched s (List UInt8) (World size H)} {commands : List (List UInt8)}
    (h : iterate o c commands stack input = .ok P) :
    ∃ f' stack', (calls o).step (.scheduler c commands, stack) = some (f', stack') ∧
      P = f'.process stack' input := by
  obtain ⟨x, hnext, h⟩ := Exec.bind_ok h
  cases x with
  | ret =>
    have hgoto : (calls o).next (.scheduler c commands) = .goto (.line c.machine commands c.errCode) := by
      simp only [calls, Focus.next, hnext]
    exact ⟨_, stack, step_goto hgoto, (Except.ok.inj h).symm⟩
  | goto c' =>
    have hgoto : (calls o).next (.scheduler c commands) = .goto (.scheduler c' commands) := by
      simp only [calls, Focus.next, hnext]
    exact ⟨_, stack, step_goto hgoto, (Except.ok.inj h).symm⟩
  | line c' pcb i frame =>
    obtain ⟨inner, hread, rfl⟩ := openLine_ok h
    have hcall : (calls o).next (.scheduler c commands) =
        .call (.enter o (c'.machine.accessFrame frame) inner) ⟨c', pcb, i, frame, commands⟩ := by
      simp only [calls, Focus.next, hnext, hread]
    exact ⟨_, _, step_call hcall, rfl⟩

/-- A step of the shell inside of a line is a step of its calls, unless the shell exits or the
line ends at the prompt. -/
theorem goes_next (h : Goes o (f.process stack input) P) :
    (∃ f' stack', (calls o).step (f, stack) = some (f', stack') ∧ P = f'.process stack' input) ∨
      (∃ m' code, P = .exited m' code) ∨
      ∃ m' code, f.next o = .ret (m', code) ∧ code ≠ -1 ∧ stack = [] ∧ P = .prompt m' input := by
  unfold Goes at h
  cases f with
  | line m commands errorCode =>
    cases commands with
    | nil =>
      obtain rfl := Option.some.inj (Except.ok.inj h)
      cases stack with
      | nil =>
        unfold endLine
        split_ifs with hcode
        · exact .inr (.inl ⟨m, 99, rfl⟩)
        · exact .inr (.inr ⟨m, errorCode, rfl, hcode, rfl, rfl⟩)
      | cons l stack =>
        have hret : (calls o).next (.line m [] errorCode) = .ret (m, errorCode) := rfl
        exact .inl ⟨_, stack, step_ret hret, rfl⟩
    | cons cmd commands =>
      obtain ⟨P₁, hcommand, hP⟩ := Exec.map_ok h
      obtain rfl := Option.some.inj hP
      rcases command_next hcommand errorCode with ⟨f', hgoto, rfl⟩ | ⟨-, m', rfl⟩
      · exact .inl ⟨f', stack, step_goto hgoto, rfl⟩
      · exact .inr (.inl ⟨m', 0, rfl⟩)
  | scheduler c commands =>
    obtain ⟨P₁, hiterate, hP⟩ := Exec.map_ok h
    obtain rfl := Option.some.inj hP
    exact .inl (iterate_next hiterate)

theorem goes_of_step (h : (calls o).step (f, stack) = some (f', stack')) :
    Goes o (f.process stack input) (f'.process stack' input) := by
  unfold Goes
  cases f with
  | line m commands errorCode =>
    cases commands with
    | nil =>
      cases stack with
      | nil => cases h
      | cons l stack =>
        obtain ⟨rfl, rfl⟩ := Prod.mk.inj (Option.some.inj h)
        rfl
    | cons cmd commands =>
      cases hwords : parseCommand cmd with
      -- A call that fails or exits is no step of the calls.
      | error e => simp [Calls.Machine.step, calls, Focus.next, hwords] at h
      | ok words =>
        cases hinterpreter : interpreter o words { m with world := m.world.tick } with
        | error e => simp [Calls.Machine.step, calls, Focus.next, hwords, hinterpreter] at h
        | ok x =>
          cases x with
          | returned code m' =>
            simp only [Calls.Machine.step, calls, Focus.next, hwords, hinterpreter] at h
            obtain ⟨rfl, rfl⟩ := Prod.mk.inj (Option.some.inj h)
            simp only [Focus.process, step, command, hwords, hinterpreter, bind, Except.bind]
            rfl
          | started c =>
            simp only [Calls.Machine.step, calls, Focus.next, hwords, hinterpreter] at h
            obtain ⟨rfl, rfl⟩ := Prod.mk.inj (Option.some.inj h)
            simp only [Focus.process, step, command, hwords, hinterpreter, bind, Except.bind]
            rfl
          | exited m' => simp [Calls.Machine.step, calls, Focus.next, hwords, hinterpreter] at h
  | scheduler c commands =>
    cases hnext : c.next with
    | error e => simp [Calls.Machine.step, calls, Focus.next, hnext] at h
    | ok x =>
      simp only [Focus.process, step, iterate, hnext, bind, Except.bind]
      cases x with
      | ret =>
        simp only [Calls.Machine.step, calls, Focus.next, hnext] at h
        obtain ⟨rfl, rfl⟩ := Prod.mk.inj (Option.some.inj h)
        rfl
      | goto c' =>
        simp only [Calls.Machine.step, calls, Focus.next, hnext] at h
        obtain ⟨rfl, rfl⟩ := Prod.mk.inj (Option.some.inj h)
        rfl
      | line c' pcb i frame =>
        cases hread : commandsOf (c'.lineIn pcb frame) with
        | error e => simp [Calls.Machine.step, calls, Focus.next, hnext, hread] at h
        | ok inner =>
          simp only [Calls.Machine.step, calls, Focus.next, hnext, hread] at h
          obtain ⟨rfl, rfl⟩ := Prod.mk.inj (Option.some.inj h)
          simp only [openLine, hread, bind, Except.bind]
          rfl

theorem reaches_of_steps {x : Focus s size H × List (Level s size H)}
    {y : Focus s size H × List (Level s size H)} (h : (calls o).Steps x y) :
    Relation.ReflTransGen (Goes o) (x.1.process x.2 input) (y.1.process y.2 input) := by
  induction h with
  | refl => exact .refl
  | tail _ hstep ih => exact ih.tail (goes_of_step hstep)

def stdin : Process s size H → List (List UInt8)
  | prompt _ input => input
  | line _ _ _ _ input => input
  | scheduler _ _ _ input => input
  | exited _ _ => []

@[simp] theorem stdin_process (f : Focus s size H) : (f.process stack input).stdin = input := by
  cases f with
  | line m commands errorCode => rfl
  | scheduler c commands => rfl

theorem prompt_ne_process (f : Focus s size H) (input' : List (List UInt8)) :
    .prompt m input' ≠ f.process stack input := by
  cases f with
  | line m commands errorCode => exact fun h => by cases h
  | scheduler c commands => exact fun h => by cases h

/-- The shell is at its prompt, inside of a line, or has exited. -/
theorem cases_focus (P : Process s size H) : (∃ m input, P = .prompt m input) ∨
    (∃ (f : Focus s size H) (stack : _) (input : _), P = f.process stack input) ∨
    ∃ m code, P = .exited m code := by
  cases P with
  | prompt m input => exact .inl ⟨m, input, rfl⟩
  | line m commands code stack input => exact .inr (.inl ⟨.line m commands code, stack, input, rfl⟩)
  | scheduler c commands stack input => exact .inr (.inl ⟨.scheduler c commands, stack, input, rfl⟩)
  | exited m code => exact .inr (.inr ⟨m, code, rfl⟩)

theorem goes_prompt {inp : List UInt8} (h : Goes o (.prompt m (inp :: input)) P) : ∃ commands,
    readCommands maxNumCommands inp [] = .ok commands ∧
      P = (Focus.enter o m commands).process [] input := by
  obtain ⟨P₁, hopen, hP⟩ := Exec.map_ok h
  obtain rfl := Option.some.inj hP
  exact openLine_ok hopen

theorem Goes.stdin_le (h : Goes o P P') : P'.stdin.length ≤ P.stdin.length := by
  rcases cases_focus P with ⟨m, input, rfl⟩ | ⟨f, stack, input, rfl⟩ | ⟨m, code, rfl⟩
  · cases input with
    | nil =>
      obtain rfl := Option.some.inj (Except.ok.inj h)
      exact Nat.le_refl _
    | cons inp input =>
      obtain ⟨commands, -, rfl⟩ := goes_prompt h
      rw [stdin_process]
      exact Nat.le_succ _
  · rcases goes_next h with ⟨f', stack', -, rfl⟩ | ⟨m', code, rfl⟩ | ⟨m', code, -, -, -, rfl⟩
    · rw [stdin_process, stdin_process]
    · exact Nat.zero_le _
    · rw [stdin_process]
      exact Nat.le_refl _
  · cases Except.ok.inj h

theorem stdin_le (h : Relation.ReflTransGen (Goes o) P P') : P'.stdin.length ≤ P.stdin.length := by
  induction h with
  | refl => exact Nat.le_refl _
  | tail _ hgoes ih => exact hgoes.stdin_le.trans ih

theorem not_reaches_of_exited {code : ℤ} (halive : P.Alive) :
    ¬ Relation.ReflTransGen (Goes o) (.exited m code) P := by
  intro h
  rcases Relation.ReflTransGen.cases_head h with heq | ⟨P₁, hgoes, -⟩
  · exact halive m code heq.symm
  · cases Except.ok.inj hgoes

theorem alive_prompt (m : Memory s size H) (input : List (List UInt8)) :
    Alive (.prompt m input) :=
  fun _ _ h => by cases h

theorem prompt_unique (h : Relation.ReflTransGen (Goes o) (.prompt m input) (.prompt m' input)) :
    m' = m := by
  rcases Relation.ReflTransGen.cases_head h with heq | ⟨P₁, hgoes, hrest⟩
  · exact (Process.prompt.inj heq).1.symm
  · cases input with
    | nil =>
      obtain rfl := Option.some.inj (Except.ok.inj hgoes)
      exact absurd hrest (not_reaches_of_exited (alive_prompt m' []))
    | cons inp input =>
      obtain ⟨commands, -, rfl⟩ := goes_prompt hgoes
      have hle := stdin_le hrest
      rw [stdin_process] at hle
      exact absurd hle (Nat.not_succ_le_self _)

/-- On the way to another prompt all calls return, and lead to the next one. -/
theorem steps_of_reaches {input' : List (List UInt8)}
    (h : Relation.ReflTransGen (Goes o) (f.process stack input) (.prompt m' input')) :
    ∃ f' m₁ code, (calls o).Steps (f, stack) (f', []) ∧ (calls o).next f' = .ret (m₁, code) ∧
      code ≠ -1 ∧ Relation.ReflTransGen (Goes o) (.prompt m₁ input) (.prompt m' input') := by
  generalize hP : f.process stack input = P at h
  induction h using Relation.ReflTransGen.head_induction_on generalizing f stack with
  | refl => exact absurd hP.symm (prompt_ne_process f input')
  | head hgoes hrest ih =>
    rw [← hP] at hgoes
    rcases goes_next hgoes with ⟨f₁, stack₁, hstep, rfl⟩ | ⟨m₁, code, rfl⟩ |
      ⟨m₁, code, hret, hcode, rfl, rfl⟩
    · obtain ⟨f', m₁, code, hsteps, hret⟩ := ih rfl
      exact ⟨f', m₁, code, .head hstep hsteps, hret⟩
    · exact absurd hrest (not_reaches_of_exited (alive_prompt m' input'))
    · exact ⟨f, m₁, code, .refl, hret, hcode, hrest⟩

theorem eval_line_of_ret {r : Memory s size H × ℤ} (h : (calls o).next f = .ret r) :
    f = .line r.1 [] r.2 := by
  cases f with
  | line m commands errorCode =>
    cases commands with
    | nil => rw [← Calls.Action.ret.inj h]
    | cons cmd commands =>
      simp only [calls, Focus.next] at h
      split at h
      · cases h
      · split at h
        all_goals cases h
  | scheduler c commands =>
    simp only [calls, Focus.next] at h
    split at h
    · cases h
    · cases h
    · cases h
    · split at h
      · cases h
      · cases h

theorem evaluates_first {inp : List UInt8} {input' : List (List UInt8)}
    (h : Relation.ReflTransGen (Goes o) (.prompt m (inp :: input)) (.prompt m' input'))
    (hlen : input'.length ≤ input.length) : ∃ m₁ code, Evaluates o inp m m₁ code ∧ code ≠ -1 ∧
      Relation.ReflTransGen (Goes o) (.prompt m₁ input) (.prompt m' input') := by
  rcases Relation.ReflTransGen.cases_head h with heq | ⟨P₁, hgoes, hrest⟩
  · rw [← (Process.prompt.inj heq).2, List.length_cons] at hlen
    exact absurd hlen (Nat.not_succ_le_self _)
  · obtain ⟨commands, hread, rfl⟩ := goes_prompt hgoes
    obtain ⟨f', m₁, code, hsteps, hret, hcode, hnext⟩ := steps_of_reaches hrest
    exact ⟨m₁, code, ⟨commands, hread, eval_iff_steps.mpr ⟨f', hsteps, hret⟩⟩, hcode, hnext⟩

/-- From one prompt the shell gets to the next one exactly when the recursive evaluation of the
line returns, and no `-1`; both leave the same memory. -/
theorem prompt_iff_evaluates {inp : List UInt8} :
    Relation.ReflTransGen (Goes o) (.prompt m (inp :: input)) (.prompt m' input) ↔
      ∃ code, Evaluates o inp m m' code ∧ code ≠ -1 := by
  constructor
  · intro h
    obtain ⟨m₁, code, heval, hcode, hrest⟩ := evaluates_first h (Nat.le_refl _)
    rw [prompt_unique hrest]
    exact ⟨code, heval, hcode⟩
  · rintro ⟨code, ⟨commands, hread, heval⟩, hcode⟩
    obtain ⟨f', hret, hsteps⟩ := heval.steps
    obtain rfl := eval_line_of_ret hret
    have hopen : Goes o (.prompt m (inp :: input))
        ((Focus.enter o m commands).process [] input) := by
      simp only [Goes, step, openLine, commandsOf, hread, bind, Except.bind]
      rfl
    have hend : Goes o (.line m' [] code [] input) (.prompt m' input) := by
      simp only [Goes, step, endLine, if_neg hcode]
    exact .head hopen ((reaches_of_steps (hsteps [])).tail hend)

/-- A line that gets the shell to its next prompt does the same to the memory wherever it is
executed, whichever schedulers wait for it. -/
theorem line_anywhere {inp : List UInt8}
    (h : Relation.ReflTransGen (Goes o) (.prompt m (inp :: input)) (.prompt m' input)) :
    ∃ code, code ≠ -1 ∧ ∀ stack input', ∃ P, openLine o (some inp) m stack input' = .ok P ∧
      Relation.ReflTransGen (Goes o) P (.line m' [] code stack input') := by
  obtain ⟨code, ⟨commands, hread, heval⟩, hcode⟩ := prompt_iff_evaluates.mp h
  obtain ⟨f', hret, hsteps⟩ := heval.steps
  obtain rfl := eval_line_of_ret hret
  refine ⟨code, hcode, fun stack input' => ?_⟩
  refine ⟨(Focus.enter o m commands).process stack input', ?_, ?_⟩
  · simp only [openLine, commandsOf, hread, bind, Except.bind]
    rfl
  · exact reaches_of_steps (hsteps stack)

/-- The line `help`. -/
theorem line_anywhere_help : ∃ (m m' : Memory oneFrame 1 Unit) (code : ℤ),
    ∀ stack input, ∃ P, openLine (Setting.ofFiles oneFrame 1 scripts) (some (ascii "help")) m stack
      input = .ok P ∧ Relation.ReflTransGen (Goes (Setting.ofFiles oneFrame 1 scripts)) P
        (.line m' [] code stack input) := by
  have hrun : Relation.ReflTransGen (Goes (Setting.ofFiles oneFrame 1 scripts))
      (startIn oneFrame 1 [ascii "help"]) (.prompt _ []) := reaches_runFor (n := 3) rfl
  obtain ⟨code, -, hline⟩ := line_anywhere hrun
  exact ⟨_, _, code, hline⟩

end Process

end PicoShell.Core
