import PicoShell.Core.Nested
import PicoShell.Scheduling.Orderly

namespace PicoShell.Core

open Scheduling

variable {s : Sizes} {size : ℕ} {H : Type} {o : Setting s size H} {m : Memory s size H}
  {P P' : Process s size H} {l : Level s size H} {q : ℕ} {S : ℕ → List (List UInt8)}

/-- The line that the process of the level executes is the next one of its program. -/
structure Level.InLine (l : Level s size H) : Prop where
  lt : (l.sched.machine.pcbs l.pcb).programCounter < (l.sched.machine.pcbs l.pcb).script.length
  line : l.sched.lineIn l.pcb l.frame =
    (l.sched.machine.pcbs l.pcb).script[(l.sched.machine.pcbs l.pcb).programCounter]?

namespace Process

def policy : Process s size H → Option Policy
  | scheduler c _ _ _ => some c.policy
  | _ => none

/-- Wherever the shell is, processes do what their programs say. -/
structure Faithful (S : ℕ → List (List UInt8)) (P : Process s size H) : Prop where
  nested : P.Nested
  orderly : Orderly S P.memory
  ready : ∀ pcb i, P.running = some (pcb, i) → P.policy = some .aging →
    (P.memory.pcbs pcb).programCounter < (P.memory.pcbs pcb).script.length
  levels : ∀ l ∈ P.stack, l.InLine

theorem faithful_start (heap : ℕ → PCB s (List UInt8)) (world : World size H)
    (input : List (List UInt8)) : Faithful (fun _ => []) (start heap world input) where
  nested := ⟨consistent_memInit heap world, fun _ hl => absurd hl List.not_mem_nil⟩
  orderly := orderly_memInit heap world
  ready _ _ hrun := absurd hrun (Option.some_ne_none _).symm
  levels _ hl := absurd hl List.not_mem_nil

namespace Faithful

theorem idle {i : ℕ} (hrun : P.running = none) : P.running ≠ some (q, i) := by
  rw [hrun]
  exact (Option.some_ne_none _).symm

/-- The programs of the processes so far stay what they are. -/
theorem moves (h : Faithful S P) (hmove : Moves o P P') (halive : P'.Alive)
    (hdistinct : P.memory.Distinct P'.memory) :
    ∃ S', (∀ p < P.memory.nextPid, S' p = S p) ∧ Faithful S' P' := by
  have hnested := h.nested.moves hmove halive
  cases hmove with
  | exits => exact absurd rfl (halive _ _)
  | @loads _ _ m queue host w w' hrun hrun' hstack hadds hperm hm =>
    have hdistinct' : { P.memory with world := w }.Distinct m := by
      intro q hq hpid
      rw [hm] at hdistinct
      obtain ⟨hscript, hnames⟩ := hdistinct q (hperm.mem_iff.mpr hq) hpid
      exact ⟨hscript, fun q' hq' => hnames q' (hperm.mem_iff.mpr hq')⟩
    -- Only `exec` starts programs, so only here the record of the programs grows.
    obtain ⟨S', hS', hloads⟩ :=
      (h.orderly.withWorld w).loads (h.nested.cons.withWorld w) hadds hdistinct'
    refine ⟨S', hS', hnested, ?_, fun pcb i hpcb => absurd hpcb (idle hrun'), ?_⟩
    · rw [hm]
      exact (hloads.withWorld w').reorder hperm
    · rw [hstack]
      exact h.levels
  | @pops c c' commands stack input pcb queue hqueue hidle hrun hm =>
    refine ⟨S, fun _ _ => rfl, hnested, ?_, ?_, h.levels⟩
    · show Orderly S c'.machine
      rw [hm]
      exact Orderly.pop h.orderly hqueue
    · intro p i hp _
      obtain ⟨rfl, -⟩ := Prod.mk.inj (Option.some.inj (hrun.symm.trans hp))
      show (c'.machine.pcbs pcb).programCounter < (c'.machine.pcbs pcb).script.length
      rw [hm]
      apply h.orderly.queued pcb
      show pcb ∈ c.machine.queue
      rw [hqueue]
      exact List.mem_cons_self
  | @turns c c' commands stack input pcb i m hpolicy hrun hfault hend =>
    have hcons := h.nested.scheduler hrun
    have hfaulted := Orderly.faults h.orderly hcons
      (fun p j hp => (h.nested.scheduler hp).running_mem List.mem_cons_self) hfault
    refine ⟨S, fun _ _ => rfl, hnested, hfaulted.leaves (hcons.faults hfault) hend, ?_, h.levels⟩
    intro p j hp haging
    exact absurd (hpolicy.symm.trans (Option.some.inj haging)) (hend.not_aging hp)
  | @calls c commands stack input pcb i frame m _ w hrun hfault hfetch hrun' hstack hm =>
    have hcons := h.nested.scheduler hrun
    have hfaulted := Orderly.faults h.orderly hcons
      (fun p j hp => (h.nested.scheduler hp).running_mem List.mem_cons_self) hfault
    have hcons₁ := hcons.faults hfault
    -- The ageing scheduler does not look for the end of the program first.
    have hready : c.policy = .aging →
        (m.pcbs pcb).programCounter < (m.pcbs pcb).script.length := by
      intro haging
      rw [(hfault.rests pcb).programCounter, (hfault.rests pcb).script]
      exact h.ready pcb i hrun (congrArg some haging)
    obtain ⟨hlt, hmemory⟩ :=
      hfaulted.fetched hcons₁ (hcons₁.running_mem List.mem_cons_self) hfetch hready
    refine ⟨S, fun _ _ => rfl, hnested, ?_, fun pcb i hpcb => absurd hpcb (idle hrun'), ?_⟩
    · rw [hm]
      exact (hfaulted.accessFrame frame).withWorld w
    · rw [hstack]
      intro l hl
      rcases List.mem_cons.mp hl with rfl | hl
      · exact ⟨hlt, hmemory⟩
      · exact h.levels l hl
  | @resumes m code l stack input =>
    have hcons : Consistent (l.pcb :: stack.map Level.pcb) m := h.nested.cons
    have hl := h.nested.suspended l List.mem_cons_self
    have hin := h.levels l List.mem_cons_self
    obtain ⟨hpolicy, hend⟩ := Sched.resume_ends hl.running l.frame code m
    -- The line is counted when it returns: until then its process has waited untouched.
    have hcounted := Orderly.counted h.orderly hcons hl.rests
      (h.nested.level_apart List.mem_cons_self).1 hin.lt hin.line
    refine ⟨S, fun _ _ => rfl, hnested,
      hcounted.leaves (hcons.counted hl.rests.pid.symm l.frame) hend, ?_,
      fun l' hl' => h.levels l' (List.mem_cons_of_mem _ hl')⟩
    intro p j hp haging
    exact absurd (hpolicy.symm.trans (Option.some.inj haging)) (hend.not_aging hp)

end Faithful

/-- The shell gets from one state to the other, and no process that is added on the way is empty
or has the name of one in the queue. -/
def Runs (o : Setting s size H) : Process s size H → Process s size H → Prop :=
  Relation.ReflTransGen fun P P' => Goes o P P' ∧ P.memory.Distinct P'.memory

theorem Faithful.runs (h : Faithful S P) (hrun : Runs o P P') (halive : P'.Alive) :
    ∃ S', (∀ p < P.memory.nextPid, S' p = S p) ∧ P.memory.nextPid ≤ P'.memory.nextPid ∧
      Faithful S' P' := by
  induction hrun with
  | refl => exact ⟨S, fun _ _ => rfl, Nat.le_refl _, h⟩
  | tail _ hstep ih =>
    obtain ⟨S₁, hS₁, hle, h₁⟩ := ih hstep.1.alive
    obtain ⟨S', hS', h'⟩ := h₁.moves (goes_moves hstep.1) halive hstep.2
    have hle' := h₁.nested.nextPid_le (goes_moves hstep.1) halive
    exact ⟨S', fun p hp => (hS' p (hp.trans_le hle)).trans (hS₁ p hp), hle.trans hle', h'⟩

theorem Runs.alive (h : Runs o P P') (halive : P'.Alive) : P.Alive := by
  rcases Relation.ReflTransGen.cases_head h with rfl | ⟨P₁, hstep, -⟩
  · exact halive
  · exact hstep.1.alive

/-- In such a run every page that is mapped is a page of the program, its lines are in its frame, and
the frame is nobody else's: whichever schedulers have evicted and loaded pages since. -/
theorem pages_in_place {heap : ℕ → PCB s (List UInt8)} {world : World size H}
    {input : List (List UInt8)} {page : ℕ} {f : Fin s.numFrames}
    (hrun : Runs o (start heap world input) P) (halive : P.Alive) (hq : q ∈ P.memory.allocated)
    (hpage : (P.memory.pcbs q).pageTable page = some f) :
    page * s.frameSize < (P.memory.pcbs q).script.length ∧
      P.memory.HoldsPage f (P.memory.pcbs q).script page ∧ P.memory.frameTable f = some (q, page) ∧
      ∀ q' ∈ P.memory.allocated, ∀ page', (P.memory.pcbs q').pageTable page' = some f →
        q' = q ∧ page' = page := by
  obtain ⟨S, -, -, h⟩ := (faithful_start heap world input).runs hrun halive
  have hcons := h.nested.cons
  have hentry := h.orderly.excl.entry q hq page f hpage
  refine ⟨?_, h.orderly.mapped q hq page f hpage trivial, hentry, ?_⟩
  · rw [← hcons.length q hq]
    exact hcons.inRange q hq page f hpage
  · intro q' hq' page' hpage'
    have hsame := (h.orderly.excl.entry q' hq' page' f hpage').symm.trans hentry
    exact Prod.mk.inj (Option.some.inj hsame)

namespace Faithful

variable {c c' : Sched s (List UInt8) (World size H)} {commands input : List (List UInt8)}
  {stack : List (Level s size H)}

theorem running_mem (h : Faithful S (.scheduler c commands stack input)) (pcb i : ℕ)
    (hrun : c.running = some (pcb, i)) : pcb ∈ c.machine.allocated :=
  (h.nested.scheduler hrun).running_mem List.mem_cons_self

/-- The line that a scheduler comes to is the next one of its process. -/
theorem next_line (h : Faithful S (.scheduler c commands stack input)) {pcb i : ℕ}
    {frame : Fin s.numFrames} (hnext : c.next = .ok (.line c' pcb i frame)) :
    pcb ∈ c.machine.allocated ∧
      ∃ line ∈ (c.machine.pcbs pcb).script, c'.lineIn pcb frame = some line := by
  have hcons : Consistent (outside (.scheduler c commands stack input)) c.machine := h.nested.cons
  obtain ⟨hpcb, m, hfault, hfetch, rfl⟩ := Sched.next_line hnext
  have hfaulted := Orderly.faults h.orderly hcons h.running_mem hfault
  have hrests := hfault.rests pcb
  have hpcb' : pcb ∈ m.allocated := by
    rw [hfault.same.1]
    exact h.running_mem pcb i hpcb
  have hready : c.policy = .aging → (m.pcbs pcb).programCounter < (m.pcbs pcb).script.length := by
    intro haging
    rw [hrests.programCounter, hrests.script]
    exact h.ready pcb i hpcb (congrArg some haging)
  obtain ⟨hlt, hmemory⟩ := hfaulted.fetched (hcons.faults hfault) hpcb' hfetch hready
  refine ⟨h.running_mem pcb i hpcb, _, ?_, hmemory.trans (List.getElem?_eq_getElem hlt)⟩
  rw [← hrests.script]
  exact List.getElem_mem hlt

/-- An iteration of a scheduler comes to its end, or to a line. -/
theorem iterate_ok (h : Faithful S (.scheduler c commands stack input)) :
    ∃ P', iterate o c commands stack input = .ok P' := by
  obtain ⟨x, hnext⟩ := Orderly.next_ok h.orderly h.nested.cons fun pcb i hrun =>
    ⟨h.running_mem pcb i hrun, fun haging => h.ready pcb i hrun (congrArg some haging)⟩
  simp only [iterate, hnext, bind, Except.bind]
  cases x with
  | ret => exact ⟨_, rfl⟩
  | goto c' => exact ⟨_, rfl⟩
  | line c' pcb i frame =>
    obtain ⟨-, line, -, hline⟩ := h.next_line hnext
    simp only [hline, openLine, commandsOf, readCommands_line, bind, Except.bind]
    exact ⟨_, rfl⟩

end Faithful

instance (m m' : Memory s size H) : Decidable (m.Distinct m') :=
  inferInstanceAs (Decidable (∀ q ∈ m'.queue, m.nextPid ≤ (m'.pcbs q).pid →
    (m'.pcbs q).script ≠ [] ∧ ∀ q' ∈ m'.queue, (m'.pcbs q').filename = (m'.pcbs q).filename →
      q' = q))

def distinctFor (o : Setting s size H) : ℕ → Process s size H → Option (Process s size H)
  | 0, P => some P
  | n + 1, P =>
    match P.step o with
    | .ok (some P') => if P.memory.Distinct P'.memory then distinctFor o n P' else none
    | _ => none

theorem runs_distinctFor {n : ℕ} (hrun : distinctFor o n P = some P') : Runs o P P' := by
  induction n generalizing P with
  | zero =>
    obtain rfl := Option.some.inj hrun
    exact .refl
  | succ n ih =>
    rw [distinctFor] at hrun
    split at hrun
    · rename_i P₁ hstep
      split_ifs at hrun with hdistinct
      exact .head ⟨hstep, hdistinct⟩ (ih hrun)
    · cases hrun

/-- The second script has taken the only frame from the first one, which waits for it. -/
theorem pages_in_place_scripts : ∃ P : Process oneFrame 1 Unit, P.stack.map Level.pcb = [1] ∧
    P.memory.frameTable 0 = some (2, 0) ∧ P.memory.HoldsPage 0 [ascii "help"] 0 := by
  have hrun : ((distinctFor (Setting.ofFiles oneFrame 1 scripts) 7
      (startIn oneFrame 1 [ascii "run a"])).any fun P =>
        P.stack.map Level.pcb = [1] ∧ P.running = some (2, 0) ∧ 2 ∈ P.memory.allocated ∧
          (P.memory.pcbs 2).pageTable 0 = some 0 ∧
            (P.memory.pcbs 2).script = [ascii "help"]) = true := by
    decide +kernel
  obtain ⟨P, hP, hstack, hrunning, hq, hpage, hscript⟩ := exists_of_any hrun
  have halive : P.Alive := by
    rintro m code rfl
    cases hrunning
  obtain ⟨-, hholds, hentry, -⟩ := pages_in_place (runs_distinctFor hP) halive hq hpage
  rw [hscript] at hholds
  exact ⟨P, hstack, hentry, hholds⟩

end Process

end PicoShell.Core
