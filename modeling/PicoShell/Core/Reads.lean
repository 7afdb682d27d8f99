import PicoShell.Core.Calls
import PicoShell.Core.NestedRuns

namespace PicoShell.Core

open Scheduling

variable {s : Sizes} {size : ℕ} {H : Type} {o : Setting s size H} {m : Memory s size H}
  {P P' : Process s size H} {S : ℕ → List (List UInt8)} {l : Level s size H}
  {stack : List (Level s size H)} {input : List (List UInt8)}
  {good command : Option String → List UInt8 → Prop}

def Level.script (l : Level s size H) : String := (l.sched.machine.pcbs l.pcb).filename

def script : List (Level s size H) → Option String
  | [] => none
  | l :: _ => some l.script

def Splits (good command : Option String → List UInt8 → Prop) : Prop :=
  ∀ name inp, good name inp → ∀ cmd ∈ (Fields.runs semicolon inp).take maxNumCommands,
    command name cmd

def Setting.Holds (o : Setting s size H) (good : Option String → List UInt8 → Prop) : Prop :=
  ∀ host name, ∀ contents ∈ o.host.lines host name, ∀ inp ∈ contents, good (some name) inp

def StackReads (command : Option String → List UInt8 → Prop) : List (Level s size H) → Prop
  | [] => True
  | l :: stack => (∀ cmd ∈ l.commands, command (script stack) cmd) ∧ StackReads command stack

namespace Process

/-- The commands of the innermost line that are still to come. -/
def pending : Process s size H → List (List UInt8)
  | line _ commands _ _ _ => commands
  | scheduler _ commands _ _ => commands
  | _ => []

/-- What the shell is going to read are good lines and commands. -/
structure Reads (good command : Option String → List UInt8 → Prop) (P : Process s size H) :
    Prop where
  scripts : P.memory.Scripted fun name => good (some name)
  pending : ∀ cmd ∈ P.pending, command (script P.stack) cmd
  levels : StackReads command P.stack
  stdin : ∀ inp ∈ P.stdin, good none inp

theorem reads_start (heap : ℕ → PCB s (List UInt8)) (world : World size H)
    (hinput : ∀ inp ∈ input, good none inp) : Reads good command (start heap world input) where
  scripts _ hq := absurd hq List.not_mem_nil
  pending _ hcmd := absurd hcmd List.not_mem_nil
  levels := trivial
  stdin := hinput

namespace Reads

theorem openLine {inp : List UInt8} (hopen : openLine o (some inp) m stack input = .ok P)
    (hsplits : Splits good command) (hinp : good (script stack) inp)
    (hscripts : P.memory.Scripted fun name => good (some name)) (hlevels : StackReads command stack)
    (hstdin : ∀ inp ∈ input, good none inp) : P.Reads good command := by
  obtain ⟨commands, hread, rfl⟩ := openLine_ok hopen
  rw [commandsOf, readCommands_line] at hread
  obtain rfl := Except.ok.inj hread
  exact ⟨hscripts, hsplits _ _ hinp, hlevels, hstdin⟩

theorem moves (h : P.Reads good command) (hnested : P.Nested) (ho : o.Holds good)
    (hmove : Moves o P P') (halive : P'.Alive) :
    P'.memory.Scripted fun name => good (some name) := by
  cases hmove with
  | exits => exact absurd rfl (halive _ _)
  | @loads _ _ m queue host w w' _ _ _ hadds _ hm =>
    rw [hm]
    have hscripts : Machine.Scripted (fun name => good (some name))
        { P.memory with world := w } := h.scripts
    have hloads : m.Scripted fun name => good (some name) :=
      hscripts.loads (hnested.cons.withWorld w) (ho host) hadds
    exact hloads
  | @pops c c' commands stack input pcb queue _ _ _ hm =>
    show c'.machine.Scripted fun name => good (some name)
    rw [hm]
    exact h.scripts
  | @turns c c' commands stack input pcb i m _ _ hfault hend =>
    refine h.scripts.of_subset (fun q hq => ?_) fun q => ?_
    · show q ∈ c.machine.allocated
      rw [← hfault.same.1]
      exact hend.same.2.2.2.1 q hq
    · exact ((hend.rests q).trans (hfault.rests q)).toSame
  | @calls c commands stack input pcb i frame m _ w _ hfault _ _ _ hm =>
    rw [hm]
    exact h.scripts.of_subset (fun q hq => hfault.same.1 ▸ hq) fun q => (hfault.rests q).toSame
  | @resumes m code l stack input =>
    have hl := hnested.suspended l List.mem_cons_self
    obtain ⟨-, hend⟩ := Sched.resume_ends hl.running l.frame code m
    refine h.scripts.of_subset (fun q hq => hend.same.2.2.2.1 q hq) fun q => ?_
    refine (hend.rests q).toSame.trans ?_
    rw [Sched.counted_pcbs]
    split_ifs with hq
    · rw [hq]
      exact ⟨rfl, rfl, rfl⟩
    · exact ⟨rfl, rfl, rfl⟩

/-- The shell goes on with what it has read, and with what it reads next. -/
theorem goes (h : P.Reads good command) (hsplits : Splits good command) (hfaithful : Faithful S P)
    (ho : o.Holds good) (hgoes : Goes o P P') (halive : P'.Alive) : P'.Reads good command := by
  have hscripts := h.moves hfaithful.nested ho (goes_moves hgoes) halive
  unfold Goes at hgoes
  cases P with
  | prompt m input =>
    cases input with
    | nil =>
      obtain rfl := Option.some.inj (Except.ok.inj hgoes)
      exact absurd rfl (halive _ _)
    | cons inp input =>
      obtain ⟨P₁, hopen, hP⟩ := Exec.map_ok hgoes
      obtain rfl := Option.some.inj hP
      obtain ⟨hinp, hstdin⟩ := List.forall_mem_cons.mp h.stdin
      exact openLine hopen hsplits hinp hscripts h.levels hstdin
  | line m commands code stack input =>
    cases commands with
    | nil =>
      obtain rfl := Option.some.inj (Except.ok.inj hgoes)
      cases stack with
      | nil =>
        unfold endLine at halive hscripts ⊢
        -- With the code `-1` the shell would have exited.
        split_ifs at halive hscripts ⊢
        · exact absurd rfl (halive _ _)
        · exact ⟨hscripts, h.pending, h.levels, h.stdin⟩
      | cons l stack => exact ⟨hscripts, h.levels.1, h.levels.2, h.stdin⟩
    | cons cmd commands =>
      obtain ⟨-, hpending⟩ := List.forall_mem_cons.mp h.pending
      obtain ⟨P₁, hcommand, hP⟩ := Exec.map_ok hgoes
      obtain rfl := Option.some.inj hP
      obtain ⟨words, -, hcommand⟩ := Exec.bind_ok hcommand
      obtain ⟨x, -, hx⟩ := Exec.bind_ok hcommand
      cases x with
      | returned code m =>
        obtain rfl := Except.ok.inj hx
        exact ⟨hscripts, hpending, h.levels, h.stdin⟩
      | started c =>
        obtain rfl := Except.ok.inj hx
        exact ⟨hscripts, hpending, h.levels, h.stdin⟩
      | exited m =>
        obtain rfl := Except.ok.inj hx
        exact absurd rfl (halive _ _)
  | scheduler c commands stack input =>
    obtain ⟨P₁, hiterate, hP⟩ := Exec.map_ok hgoes
    obtain rfl := Option.some.inj hP
    obtain ⟨x, hnext, hx⟩ := Exec.bind_ok hiterate
    cases x with
    | ret =>
      obtain rfl := Except.ok.inj hx
      exact ⟨hscripts, h.pending, h.levels, h.stdin⟩
    | goto c' =>
      obtain rfl := Except.ok.inj hx
      exact ⟨hscripts, h.pending, h.levels, h.stdin⟩
    | line c' pcb i frame =>
      -- What the frame holds is a line of the program, and so of its file.
      obtain ⟨hpcb, line, hline, hmemory⟩ := hfaithful.next_line hnext
      obtain ⟨-, m, hfault, -, rfl⟩ := Sched.next_line hnext
      simp only [hmemory] at hx
      refine openLine hx hsplits ?_ hscripts ⟨h.pending, h.levels⟩ h.stdin
      show good (some (m.pcbs pcb).filename) line
      rw [(hfault.rests pcb).filename]
      exact h.scripts pcb hpcb line hline
  | exited m code => cases Except.ok.inj hgoes

end Reads

theorem Runs.reads {heap : ℕ → PCB s (List UInt8)} {world : World size H}
    (hrun : Runs o (start heap world input) P) (hsplits : Splits good command) (ho : o.Holds good)
    (hinput : ∀ inp ∈ input, good none inp) (halive : P.Alive) : P.Reads good command := by
  induction hrun with
  | refl => exact reads_start heap world hinput
  | tail hrun hstep ih =>
    have halive' := hstep.1.alive
    obtain ⟨S, -, -, hfaithful⟩ := (faithful_start heap world _).runs hrun halive'
    exact (ih halive').goes hsplits hfaithful ho hstep.1 halive

end Process

end PicoShell.Core
