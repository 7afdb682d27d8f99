import PicoShell.Core.Answers

/-! Wherever the shell is, each process is in the queue, or runs, or waits for the end of a line
of its own: a line that is executed can neither run nor release the process it belongs to. -/

namespace PicoShell.Core

open Scheduling

variable {s : Sizes} {size : ℕ} {H : Type} {o : Setting s size H} {m m' : Memory s size H}
  {P P' : Process s size H} {l : Level s size H} {q : ℕ}

namespace Process

def running : Process s size H → Option (ℕ × ℕ)
  | scheduler c _ _ _ => c.running
  | _ => none

/-- The processes that are not in the queue: the running one, and those that wait. -/
def outside (P : Process s size H) : List ℕ :=
  Consistent.outside P.running ++ P.stack.map Level.pcb

theorem outside_idle (h : P.running = none) : P.outside = P.stack.map Level.pcb := by
  rw [outside, h]
  rfl

theorem level_mem (hl : l ∈ P.stack) : l.pcb ∈ P.outside :=
  List.mem_append_right _ (List.mem_map_of_mem hl)

inductive Moves (o : Setting s size H) : Process s size H → Process s size H → Prop
  | exits {P : Process s size H} {m : Memory s size H} {code : ℤ} : Moves o P (.exited m code)
  | loads {P P' : Process s size H} {m : Memory s size H} {queue : List ℕ} {host : H}
      (w w' : World size H) (hrun : P.running = none) (hrun' : P'.running = none)
      (hstack : P'.stack = P.stack) (hadds : o.Adds host { P.memory with world := w } m)
      (hperm : queue.Perm m.queue) (hm : P'.memory = { m with world := w', queue := queue }) :
      Moves o P P'
  | pops {c c' : Sched s (List UInt8) (World size H)} {commands : List (List UInt8)}
      {stack : List (Level s size H)} {input : List (List UInt8)} {pcb : ℕ} {queue : List ℕ}
      (hqueue : c.machine.queue = pcb :: queue) (hidle : c.running = none)
      (hrun : c'.running = some (pcb, 0))
      (hm : c'.machine = { c.machine with queue := queue }.recordTurn pcb) :
      Moves o (.scheduler c commands stack input) (.scheduler c' commands stack input)
  | turns {c c' : Sched s (List UInt8) (World size H)} {commands : List (List UInt8)}
      {stack : List (Level s size H)} {input : List (List UInt8)} {pcb i : ℕ}
      {m : Memory s size H} (hpolicy : c'.policy = c.policy) (hrun : c.running = some (pcb, i))
      (hfault : c.Faults pcb m) (hend : m.Ends c.policy pcb c'.running c'.machine) :
      Moves o (.scheduler c commands stack input) (.scheduler c' commands stack input)
  | calls {c : Sched s (List UInt8) (World size H)} {commands : List (List UInt8)}
      {stack : List (Level s size H)} {input : List (List UInt8)} {pcb i : ℕ}
      {frame : Fin s.numFrames} {m : Memory s size H} {P' : Process s size H}
      (w : World size H) (hrun : c.running = some (pcb, i)) (hfault : c.Faults pcb m)
      (hfetch : m.Fetched c.policy pcb frame)
      (hrun' : P'.running = none)
      (hstack : P'.stack = ⟨{ c with machine := m }, pcb, i, frame, commands⟩ :: stack)
      (hm : P'.memory = { m.accessFrame frame with world := w }) :
      Moves o (.scheduler c commands stack input) P'
  | resumes {m : Memory s size H} {code : ℤ} {l : Level s size H} {stack : List (Level s size H)}
      {input : List (List UInt8)} : Moves o (.line m [] code (l :: stack) input)
        (.scheduler (l.sched.resume l.pcb l.i l.frame code m) l.commands stack input)

theorem Moves.rests (w : World size H) (hrun : P.running = none) (hrun' : P'.running = none)
    (hstack : P'.stack = P.stack) (hm : P'.memory = { P.memory with world := w }) : Moves o P P' :=
  have hadds : o.Adds w.host { P.memory with world := w } { P.memory with world := w } := .refl
  .loads w w hrun hrun' hstack hadds (.refl _) hm

theorem openLine_ok {inp : Option (List UInt8)} {stack : List (Level s size H)} {input : List (List UInt8)}
    (h : openLine o inp m stack input = .ok P) : ∃ commands,
      commandsOf inp = .ok commands ∧
      P = .line { m with world := m.world.tick } commands (o.errorCode m.world) stack input := by
  obtain ⟨commands, hread, h⟩ := Exec.bind_ok h
  exact ⟨commands, hread, (Except.ok.inj h).symm⟩

theorem command_moves {cmd : List UInt8} {commands : List (List UInt8)} {code : ℤ}
    {stack : List (Level s size H)} {input : List (List UInt8)}
    (h : command o m cmd commands stack input = .ok P) :
    Moves o (.line m (cmd :: commands) code stack input) P := by
  obtain ⟨words, -, h⟩ := Exec.bind_ok h
  obtain ⟨x, hinterpreter, h⟩ := Exec.bind_ok h
  cases interpreter_answers hinterpreter with
  | returned w _ hadds =>
    obtain rfl := Except.ok.inj h
    exact .loads m.world.tick w rfl rfl rfl hadds (.refl _) rfl
  | @started m' p hadds =>
    obtain rfl := Except.ok.inj h
    obtain ⟨queue, hperm, hsched⟩ := schedule_eq o.env p m'
    have hrun : (schedule o.env p m').running = none := rfl
    exact .loads m.world.tick m'.world rfl hrun rfl hadds hperm hsched
  | exited w =>
    obtain rfl := Except.ok.inj h
    exact .exits

theorem iterate_moves {c : Sched s (List UInt8) (World size H)} {commands : List (List UInt8)}
    {stack : List (Level s size H)} {input : List (List UInt8)}
    (h : iterate o c commands stack input = .ok P) :
    Moves o (.scheduler c commands stack input) P := by
  obtain ⟨x, hnext, h⟩ := Exec.bind_ok h
  cases x with
  | ret =>
    obtain rfl := Except.ok.inj h
    exact .rests c.machine.world (Sched.next_ret hnext).1 rfl rfl rfl
  | goto c' =>
    obtain rfl := Except.ok.inj h
    obtain ⟨hpolicy, ⟨pcb, queue, hidle, hqueue, hrun, hm⟩ | ⟨pcb, i, m, hrun, hfault, hend⟩⟩ :=
      Sched.next_goto hnext
    · exact .pops hqueue hidle hrun hm
    · exact .turns hpolicy hrun hfault hend
  | line c' pcb i frame =>
    obtain ⟨hrun, m, hfault, hfetch, rfl⟩ := Sched.next_line hnext
    obtain ⟨commands', -, rfl⟩ := openLine_ok h
    exact .calls _ hrun hfault hfetch rfl rfl rfl

theorem goes_moves (h : Goes o P P') : Moves o P P' := by
  unfold Goes at h
  cases P with
  | prompt m input =>
    cases input with
    | nil =>
      obtain rfl := Option.some.inj (Except.ok.inj h)
      exact .exits
    | cons inp input =>
      obtain ⟨P₁, hopen, hP⟩ := Exec.map_ok h
      obtain rfl := Option.some.inj hP
      obtain ⟨commands, -, rfl⟩ := openLine_ok hopen
      exact .rests _ rfl rfl rfl rfl
  | line m commands code stack input =>
    cases commands with
    | nil =>
      obtain rfl := Option.some.inj (Except.ok.inj h)
      cases stack with
      | nil =>
        unfold endLine
        split_ifs
        · exact .exits
        · exact .rests m.world rfl rfl rfl rfl
      | cons l stack => exact .resumes
    | cons cmd commands =>
      obtain ⟨P₁, hcommand, hP⟩ := Exec.map_ok h
      obtain rfl := Option.some.inj hP
      exact command_moves hcommand
  | scheduler c commands stack input =>
    obtain ⟨P₁, hiterate, hP⟩ := Exec.map_ok h
    obtain rfl := Option.some.inj hP
    exact iterate_moves hiterate
  | exited m code => cases Except.ok.inj h

def Alive (P : Process s size H) : Prop := ∀ m code, P ≠ .exited m code

theorem Goes.alive (h : Goes o P P') : P.Alive := by
  rintro m code rfl
  cases Except.ok.inj h

end Process

/-- The process of the level is as it was when its line was called. -/
structure Level.Suspended (m : Memory s size H) (l : Level s size H) : Prop where
  running : l.sched.running = some (l.pcb, l.i)
  rests : (m.pcbs l.pcb).Rests (l.sched.machine.pcbs l.pcb)

theorem Level.Suspended.trans (h : l.Suspended m) (hrests : (m'.pcbs l.pcb).Rests (m.pcbs l.pcb)) :
    l.Suspended m' :=
  ⟨h.running, hrests.trans h.rests⟩

namespace Process

/-- Each process is in one place, and those that wait are as they were. -/
structure Nested (P : Process s size H) : Prop where
  cons : Consistent P.outside P.memory
  suspended : ∀ l ∈ P.stack, l.Suspended P.memory

namespace Nested

/-- A process that waits is in its place once: neither in the queue nor running. -/
theorem level_apart (h : P.Nested) (hl : l ∈ P.stack) :
    l.pcb ∉ P.memory.queue ∧ ∀ i, P.running ≠ some (l.pcb, i) := by
  have hnodup := h.cons.perm.nodup_iff.mp h.cons.nodup
  obtain ⟨hout, -, hdisjoint⟩ := List.nodup_append'.mp hnodup
  refine ⟨fun hq => hdisjoint (level_mem hl) hq, fun i hrun => ?_⟩
  obtain ⟨-, -, hdisjoint⟩ := List.nodup_append'.mp hout
  apply hdisjoint (a := l.pcb) _ (List.mem_map_of_mem hl)
  rw [hrun]
  exact List.mem_singleton_self _

/-- The running process is outside the queue, with those that wait. -/
theorem scheduler {c : Sched s (List UInt8) (World size H)} {commands input : List (List UInt8)}
    {stack : List (Level s size H)} {pcb i : ℕ}
    (h : Nested (.scheduler c commands stack input)) (hrun : c.running = some (pcb, i)) :
    Consistent (pcb :: stack.map Level.pcb) c.machine := by
  have hcons := h.cons
  rwa [outside, running, hrun] at hcons

theorem moves (h : P.Nested) (hmove : Moves o P P') (halive : P'.Alive) : P'.Nested := by
  cases hmove with
  | exits => exact absurd rfl (halive _ _)
  | @loads _ _ m queue host w w' hrun hrun' hstack hadds hperm hm =>
    have hcons := h.cons
    rw [outside_idle hrun, ← hstack, ← outside_idle hrun'] at hcons
    have hout := Machine.extends_of_adds hadds
    refine ⟨?_, fun l hl => ?_⟩
    · rw [hm]
      exact (((hcons.withWorld w).loads hadds).withWorld w').reorder hperm
    · rw [hstack] at hl
      have hpcb := h.cons.running_mem (level_mem hl)
      apply (h.suspended l hl).trans
      rw [hm]
      show (m.pcbs l.pcb).Rests (P.memory.pcbs l.pcb)
      rw [hout.pcbs l.pcb hpcb]
      exact .refl _
  | @pops c c' commands stack input pcb queue hqueue hidle hrun hm =>
    have hcons : Consistent (stack.map Level.pcb) c.machine := by
      have := h.cons
      rwa [outside, running, hidle] at this
    refine ⟨?_, fun l hl => ?_⟩
    · show Consistent (Consistent.outside c'.running ++ stack.map Level.pcb) c'.machine
      rw [hm, hrun]
      exact hcons.pop hqueue
    · apply (h.suspended l hl).trans
      show (c'.machine.pcbs l.pcb).Rests (c.machine.pcbs l.pcb)
      rw [hm]
      exact .refl _
  | @turns c c' commands stack input pcb i m hpolicy hrun hfault hend =>
    have hcons := h.scheduler hrun
    refine ⟨(hcons.faults hfault).leaves hend, fun l hl => ?_⟩
    exact (h.suspended l hl).trans ((hend.rests l.pcb).trans (hfault.rests l.pcb))
  | @calls c commands stack input pcb i frame m _ w hrun hfault hfetch hrun' hstack hm =>
    have hcons := h.scheduler hrun
    refine ⟨?_, ?_⟩
    · rw [outside_idle hrun', hstack, hm]
      exact ((hcons.faults hfault).accessFrame frame).withWorld w
    · rw [hstack, hm]
      intro l hl
      rcases List.mem_cons.mp hl with rfl | hl
      · exact ⟨hrun, .refl _⟩
      · exact (h.suspended l hl).trans (hfault.rests l.pcb)
  | @resumes m code l stack input =>
    have hcons : Consistent (l.pcb :: stack.map Level.pcb) m := h.cons
    have hl := h.suspended l List.mem_cons_self
    obtain ⟨hpolicy, hend⟩ := Sched.resume_ends hl.running l.frame code m
    refine ⟨(hcons.counted hl.rests.pid.symm l.frame).leaves hend, fun l' hl' => ?_⟩
    apply (h.suspended l' (List.mem_cons_of_mem _ hl')).trans
    refine (hend.rests l'.pcb).trans ?_
    -- a process waits on one level only
    have hne : l'.pcb ≠ l.pcb := by
      intro heq
      have hnodup := (List.nodup_append'.mp (hcons.perm.nodup_iff.mp hcons.nodup)).1
      apply (List.nodup_cons.mp hnodup).1
      rw [← heq]
      exact List.mem_map_of_mem hl'
    rw [Sched.counted_pcbs, if_neg hne]
    exact .refl _

theorem nextPid_le (h : P.Nested) (hmove : Moves o P P') (halive : P'.Alive) :
    P.memory.nextPid ≤ P'.memory.nextPid := by
  cases hmove with
  | exits => exact absurd rfl (halive _ _)
  | loads w w' _ _ _ hadds _ hm =>
    rw [hm]
    exact (Machine.extends_of_adds hadds).nextPid
  | pops _ _ _ hm => exact (congrArg Machine.nextPid hm).ge
  | turns _ _ hfault hend => exact (hend.nextPid.trans hfault.nextPid).ge
  | calls w _ hfault _ _ _ hm =>
    rw [hm]
    exact hfault.nextPid.ge
  | @resumes m code l stack input =>
    have hl := h.suspended l List.mem_cons_self
    exact (Sched.resume_ends hl.running l.frame code m).2.nextPid.ge

end Nested

def start (heap : ℕ → PCB s (List UInt8)) (world : World size H) (input : List (List UInt8)) :
    Process s size H :=
  .prompt (memInit heap world) input

def Reached (o : Setting s size H) (P : Process s size H) : Prop :=
  ∃ heap world input, Relation.ReflTransGen (Goes o) (start heap world input) P

theorem Reached.nested (h : Reached o P) (halive : P.Alive) : P.Nested := by
  obtain ⟨heap, world, input, hrun⟩ := h
  induction hrun with
  | refl => exact ⟨consistent_memInit heap world, fun _ hl => absurd hl List.not_mem_nil⟩
  | tail _ hgoes ih => exact (ih hgoes.alive).moves (goes_moves hgoes) halive

/-- In every state of the shell, however deep its calls are nested, each process is in one place:
it runs, waits for the end of its line, or is queued.  While it waits nobody queues it, runs it,
or changes what it is about to execute. -/
theorem processes_in_place (h : Reached o P) (halive : P.Alive) :
    P.memory.allocated.Nodup ∧ P.memory.allocated.Perm (P.outside ++ P.memory.queue) ∧
      (∀ q ∈ P.memory.allocated, ∀ q' ∈ P.memory.allocated,
        (P.memory.pcbs q).pid = (P.memory.pcbs q').pid → q = q') ∧
      ∀ l ∈ P.stack, l.pcb ∉ P.memory.queue ∧ (∀ i, P.running ≠ some (l.pcb, i)) ∧
        (P.memory.pcbs l.pcb).Rests (l.sched.machine.pcbs l.pcb) := by
  have hnested := h.nested halive
  refine ⟨hnested.cons.nodup, hnested.cons.perm, hnested.cons.pids, fun l hl => ?_⟩
  obtain ⟨hqueue, hrunning⟩ := hnested.level_apart hl
  exact ⟨hqueue, hrunning, (hnested.suspended l hl).rests⟩

end Process

/-- A setting in which these files exist for ever, and the uninitialised memory holds zeros. -/
def Setting.ofFiles (s : Sizes) (size : ℕ) (files : String → Option (List (List UInt8))) :
    Setting s size Unit where
  host :=
    { lines := fun _ => files
      create := fun host _ => (false, host)
      listing := fun host => ("", host)
      spawn := fun host _ => (none, "", host) }
  scratch _ := ⟨.zero 59, Fs.freshInode .unusedT 0, fun _ => .zero 64, .null, .null⟩
  errorCode _ := 0
  env :=
    { parseInput := fun _ world => (0, world)
      malloc := fun m => m.allocated.foldr max 0 + 1
      malloc_fresh := fun m => foldr_max_fresh m.allocated
      garbageContents := fun _ _ => none
      garbageCode := fun _ => 0 }

namespace Process

theorem reaches_runFor {n : ℕ} (hrun : runFor o n P = some P') :
    Relation.ReflTransGen (Goes o) P P' := by
  induction n generalizing P with
  | zero =>
    obtain rfl := Option.some.inj hrun
    exact .refl
  | succ n ih =>
    rw [runFor] at hrun
    split at hrun
    · rename_i P₁ hstep
      exact .head hstep (ih hrun)
    · cases hrun

theorem Reached.trans (h : Reached o P) (hrun : Relation.ReflTransGen (Goes o) P P') :
    Reached o P' := by
  obtain ⟨heap, world, input, hbefore⟩ := h
  exact ⟨heap, world, input, hbefore.trans hrun⟩

theorem Reached.runFor {n : ℕ} (h : Reached o P) (hrun : runFor o n P = some P') :
    Reached o P' :=
  h.trans (reaches_runFor hrun)

def startIn (s : Sizes) (size : ℕ) (input : List (List UInt8)) : Process s size Unit :=
  start (fun _ => Machine.newPCB 0 "" [])
    ⟨PicoShell.Memory.vstoreInit size, ⟨.zeroed, Fs.freshInode .unusedT 0⟩, (), "", 0⟩ input

theorem reached_startIn (o : Setting s size Unit) (input : List (List UInt8)) :
    Reached o (startIn s size input) :=
  ⟨_, _, _, .refl⟩

def scripts (script : String) : Option (List (List UInt8)) :=
  if script = "a" then some [ascii "run b"] else if script = "b" then some [ascii "help"] else none

/-- The second script is about to execute its line, inside of the line of the first. -/
theorem processes_in_place_scripts : ∃ P : Process oneFrame 1 Unit,
    P.stack.map Level.pcb = [1] ∧ P.running = some (2, 0) ∧
      ∀ l ∈ P.stack, l.pcb ∉ P.memory.queue := by
  have hrun : ((runFor (Setting.ofFiles oneFrame 1 scripts) 6
      (startIn oneFrame 1 [ascii "run a"])).any fun P =>
        P.stack.map Level.pcb = [1] ∧ P.running = some (2, 0)) = true := by
    decide +kernel
  obtain ⟨P, hP, hstack, hrunning⟩ := exists_of_any hrun
  have halive : P.Alive := by
    rintro m code rfl
    cases hrunning
  have hplace := processes_in_place ((reached_startIn _ _).runFor hP) halive
  exact ⟨P, hstack, hrunning, fun l hl => (hplace.2.2.2 l hl).1⟩

end Process

end PicoShell.Core
