import PicoShell.Scheduling.Transparent

namespace PicoShell.Scheduling

variable {s : Sizes} {L W : Type} {env : Env s L W} {m m' m₀ m₁ : Machine s L W}
  {c c' c₁ : Sched s L W} {r : Option (ℕ × ℕ)} {qs queue : List ℕ} {pcb pid q i n : ℕ}
  {frame : Fin s.numFrames} {script : List L} {files : String → Option (List L)}
  {programs : List (Option String)}

/-- A process executes its program from line `n` on. -/
def linesFrom (pid : ℕ) (script : List L) (n : ℕ) : List (Event L) :=
  (List.range' n (script.length - n)).map fun k => .line pid k script[k]?

/-- A process executes its whole program in one turn. -/
def wholeTurn (pid : ℕ) (script : List L) : List (Event L) :=
  .turn pid :: linesFrom pid script 0

theorem linesFrom_of_lt (pid : ℕ) (h : n < script.length) :
    linesFrom pid script n = .line pid n script[n]? :: linesFrom pid script (n + 1) := by
  obtain ⟨k, hk⟩ := Nat.exists_eq_add_of_lt h
  have hn : script.length - n = k + 1 := by omega
  have hsucc : script.length - (n + 1) = k := by omega
  rw [linesFrom, linesFrom, hn, hsucc, List.range'_succ, List.map_cons]

theorem linesFrom_of_le (pid : ℕ) (h : script.length ≤ n) : linesFrom pid script n = [] := by
  rw [linesFrom, Nat.sub_eq_zero_of_le h]
  rfl

def PCB.linesLeft (x : PCB s L) : List (Event L) := linesFrom x.pid x.script x.programCounter

/-- A step while a process runs, under the two policies. -/
inductive Sched.Serves (env : Env s L W) (pcb : ℕ) (c : Sched s L W) :
    Machine s L W → Option (ℕ × ℕ) → Prop
  | line (frame : Fin s.numFrames)
      (hmore : (c.machine.pcbs pcb).programCounter < (c.machine.pcbs pcb).fileLength)
      (hpage : (c.machine.pcbs pcb).pageTable (c.machine.currentPage pcb) = some frame) :
      Serves env pcb c (c.machine.executeLine env pcb frame).2 c.running
  | fault (frame : Fin s.numFrames) (m : Machine s L W)
      (hmore : (c.machine.pcbs pcb).programCounter < (c.machine.pcbs pcb).fileLength)
      (hpage : (c.machine.pcbs pcb).pageTable (c.machine.currentPage pcb) = none)
      (hfault : c.machine.pageFault pcb (c.machine.currentPage pcb) = .ok (frame, m)) :
      Serves env pcb c m c.running
  | release (hend : (c.machine.pcbs pcb).fileLength ≤ (c.machine.pcbs pcb).programCounter) :
      Serves env pcb c (c.machine.pcbDeinit pcb) none

theorem Sched.serves_of_step (hrun : c.running = some (pcb, i))
    (hpolicy : c.policy = .fcfs ∨ c.policy = .sjf) (h : c.step env = .ok (some c')) :
    c.Serves env pcb c'.machine c'.running := by
  have hstep : c.fcfsStep env pcb = .ok c' := by
    have hstep := step_running hrun h
    rcases hpolicy with hp | hp
    · rwa [hp] at hstep
    · rwa [hp] at hstep
  rcases fcfsStep_inv hstep with ⟨hmore, hpage, frame, m, hfault, rfl⟩ | ⟨hmore, frame, hpage, rfl⟩ |
    ⟨hend, rfl⟩
  · exact .fault frame m hmore hpage hfault
  · exact .line frame hmore hpage
  · exact .release hend

structure Serving (qs : List ℕ) (c : Sched s L W) : Prop where
  policy : c.policy = .fcfs ∨ c.policy = .sjf
  advancing : Advancing (Scope.all s) qs c
  exclusive : Exclusive c.machine

namespace Serving

theorem not_aging (h : Serving qs c) : c.policy ≠ .aging := by
  rcases h.policy with hp | hp
  · simp [hp]
  · simp [hp]

theorem steps (h : Serving qs c) (hrun : Steps env (fun _ => True) c c') : Serving qs c' := by
  obtain ⟨hexcl, hadv⟩ := h.exclusive.steps h.advancing hrun
  exact ⟨by rw [hrun.policy_eq]; exact h.policy, hadv, hexcl⟩

end Serving

/-- The steps that the process still needs: a page fault at most for each line. -/
def Machine.stepsLeft (m : Machine s L W) (pcb : ℕ) : ℕ :=
  2 * ((m.pcbs pcb).fileLength - (m.pcbs pcb).programCounter) +
    if (m.pcbs pcb).pageTable (m.currentPage pcb) = none then 1 else 0

/-- A step brings the process closer to its end, and counts among the rest of its lines what it
executes. -/
structure Machine.Nears (m : Machine s L W) (pcb : ℕ) (m' : Machine s L W) : Prop where
  less : m'.stepsLeft pcb < m.stepsLeft pcb
  queue : m'.queue = m.queue
  history : m'.history ++ (m'.pcbs pcb).linesLeft = m.history ++ (m.pcbs pcb).linesLeft
  others : ∀ q, q ≠ pcb → (m'.pcbs q).programCounter = (m.pcbs q).programCounter

/-- Between two states of a scheduler the process executes the rest of its program and is
released; nothing else is executed. -/
structure Sched.Finishes (c : Sched s L W) (pcb : ℕ) (c' : Sched s L W) : Prop where
  idle : c'.running = none
  queue : c'.machine.queue = c.machine.queue
  history : c'.machine.history = c.machine.history ++ (c.machine.pcbs pcb).linesLeft
  others : ∀ q, q ≠ pcb →
    (c'.machine.pcbs q).programCounter = (c.machine.pcbs q).programCounter

namespace Serving

theorem nears_line (h : Serving qs c) (env : Env s L W) (hrun : c.running = some (pcb, i))
    (hmore : (c.machine.pcbs pcb).programCounter < (c.machine.pcbs pcb).fileLength)
    (hpage : (c.machine.pcbs pcb).pageTable (c.machine.currentPage pcb) = some frame) :
    c.machine.Nears pcb (c.machine.executeLine env pcb frame).2 := by
  obtain ⟨-, halloc⟩ := h.advancing.cons.of_running hrun
  have hlen := h.advancing.progress.length pcb (h.advancing.progress.mem pcb halloc)
  have hlt : (c.machine.pcbs pcb).programCounter < (c.machine.pcbs pcb).script.length := by
    rwa [← hlen]
  have hself : (c.machine.executeLine env pcb frame).2.pcbs pcb = (c.machine.pcbs pcb).advance := by
    rw [Machine.executeLine_pcbs, if_pos rfl]
  refine ⟨?_, rfl, ?_, fun q hq => ?_⟩
  · unfold Machine.stepsLeft
    rw [hself, hpage, if_neg (Option.some_ne_none frame), PCB.advance_fileLength,
      PCB.advance_programCounter]
    split_ifs
    · omega
    · omega
  · have hleft : (c.machine.pcbs pcb).linesLeft = _ := linesFrom_of_lt _ hlt
    rw [Machine.executeLine_history, h.advancing.mapped.line halloc hpage hlt, hself, hleft,
      List.append_assoc]
    rfl
  · rw [Machine.executeLine_pcbs, if_neg hq]

theorem nears_fault (h : Serving qs c) (hrun : c.running = some (pcb, i))
    (hmore : (c.machine.pcbs pcb).programCounter < (c.machine.pcbs pcb).fileLength)
    (hpage : (c.machine.pcbs pcb).pageTable (c.machine.currentPage pcb) = none)
    (hfault : c.machine.pageFault pcb (c.machine.currentPage pcb) = .ok (frame, m)) :
    c.machine.Nears pcb m := by
  have hfaults : c.Faults pcb m := by
    refine .inr ⟨⟨i, hrun, hpage, ?_⟩, frame, hfault⟩
    rcases h.policy with hp | hp
    · simpa [hp] using hmore
    · simpa [hp] using hmore
  obtain ⟨-, hqueue, hhist, hsame⟩ := hfaults.same
  obtain ⟨t, hself⟩ := hsame pcb
  -- the current page has a frame now
  have hmapped : (m.pcbs pcb).pageTable (m.currentPage pcb) = some frame := by
    have hpos : c.machine.currentPage pcb * s.frameSize < (c.machine.pcbs pcb).fileLength :=
      Machine.currentPage_inFile hmore
    have hcurrent : m.currentPage pcb = c.machine.currentPage pcb := by
      unfold Machine.currentPage
      rw [hself]
      rfl
    obtain ⟨m₁, -, ⟨hout, -⟩ | ⟨-, -, rfl⟩⟩ := Machine.pageFault_cases hfault
    · omega
    · rw [hcurrent, Machine.loadPage_pcbs]
      simp
  refine ⟨?_, hqueue, ?_, fun q _ => ?_⟩
  · unfold Machine.stepsLeft
    rw [hmapped, hpage, hself, if_neg (Option.some_ne_none frame), if_pos rfl]
    exact Nat.lt_succ_self _
  · rw [hhist, hself]
    rfl
  · obtain ⟨t, hq⟩ := hsame q
    rw [hq]
    rfl

theorem finish (h : Serving qs c) (env : Env s L W) (hrun : c.running = some (pcb, i)) :
    ∃ c', Steps env (fun _ => True) c c' ∧ c.Finishes pcb c' := by
  induction hn : c.machine.stepsLeft pcb using Nat.strong_induction_on generalizing c with
  | _ n ih =>
    obtain ⟨c₁, hstep⟩ := h.advancing.next h.exclusive h.not_aging env hrun
    have hserve := Sched.serves_of_step hrun h.policy hstep
    have hgo : c₁.running = c.running → c.machine.Nears pcb c₁.machine →
        ∃ c', Steps env (fun _ => True) c c' ∧ c.Finishes pcb c' := by
      intro hr hnears
      obtain ⟨c₂, hrest, hfin⟩ :=
        ih _ (hn ▸ hnears.less) (h.steps (.single hstep)) (hr.trans hrun) rfl
      refine ⟨c₂, (Steps.single hstep).trans hrest, hfin.idle, hfin.queue.trans hnears.queue,
        hfin.history.trans hnears.history, fun q hq => ?_⟩
      exact (hfin.others q hq).trans (hnears.others q hq)
    generalize hm₁ : c₁.machine = m₁ at hserve hgo
    generalize hr₁ : c₁.running = r₁ at hserve hgo
    cases hserve with
    | line frame hmore hpage => exact hgo rfl (h.nears_line env hrun hmore hpage)
    | fault frame m hmore hpage hfault => exact hgo rfl (h.nears_fault hrun hmore hpage hfault)
    | release hend =>
      obtain ⟨-, hpcb, -⟩ := h.advancing.running h.not_aging hrun
      have hnone : (c.machine.pcbs pcb).linesLeft = [] :=
        linesFrom_of_le _ (h.advancing.progress.length pcb hpcb ▸ hend)
      refine ⟨c₁, .single hstep, hr₁, ?_, ?_, fun q _ => ?_⟩
      · rw [hm₁]
        rfl
      · rw [hm₁, hnone, List.append_nil]
        rfl
      · rw [hm₁]
        rfl

/-- The scheduler returns after one turn of each process. -/
theorem drain (h : Serving qs c) (env : Env s L W) (hidle : c.running = none)
    (hqueue : c.machine.queue = queue) : ∃ c', Steps env (fun _ => True) c c' ∧
      c'.step env = .ok none ∧ c'.machine.history = c.machine.history ++
        queue.flatMap fun q => .turn (c.machine.pcbs q).pid :: (c.machine.pcbs q).linesLeft := by
  induction queue generalizing c with
  | nil =>
    refine ⟨c, .refl, ?_, (List.append_nil _).symm⟩
    simp only [Sched.step, hidle, Machine.popProcess, hqueue]
  | cons pcb queue ih =>
    obtain ⟨c₁, hstep₁, hrun₁, hm₁⟩ := Sched.pop env hidle hqueue
    obtain ⟨c₂, hsteps₂, hfin⟩ := (h.steps (.single hstep₁)).finish env hrun₁
    have hsteps₂ := (Steps.single hstep₁).trans hsteps₂
    have hqueue₂ : c₂.machine.queue = queue := by
      rw [hfin.queue, hm₁]
      rfl
    obtain ⟨c₃, hsteps₃, hreturn, hhist⟩ := ih (h.steps hsteps₂) hfin.idle hqueue₂
    refine ⟨c₃, hsteps₂.trans hsteps₃, hreturn, ?_⟩
    have hout : pcb ∉ queue := by
      have hcons := h.advancing.cons.of_idle hidle
      have hnodup := hcons.perm.nodup_iff.mp hcons.nodup
      rw [List.nil_append, hqueue] at hnodup
      exact (List.nodup_cons.mp hnodup).1
    -- the processes behind the first one are as they were
    have hrest : (queue.flatMap fun q => .turn (c₂.machine.pcbs q).pid ::
          (c₂.machine.pcbs q).linesLeft) =
        queue.flatMap fun q => .turn (c.machine.pcbs q).pid :: (c.machine.pcbs q).linesLeft := by
      apply List.flatMap_congr
      intro q hq
      have hne : q ≠ pcb := by
        rintro rfl
        exact hout hq
      have hpc := hfin.others q hne
      rw [hm₁] at hpc
      have hsame := hsteps₂.same q
      unfold PCB.linesLeft
      rw [hsame.pid, hsame.script, hpc]
      rfl
    rw [hhist, hrest, hfin.history, hm₁, List.flatMap_cons]
    simp [Machine.recordTurn]

end Serving

theorem Session.jobScore {ok : Sched s L W → Prop} (h : Session env ok (.idle m))
    (hempty : m.queue = []) (hrun : buildReadyQueue env files programs m = .ok (0, m₁)) :
    ∀ q ∈ m₁.allocated, (m₁.pcbs q).jobScore = (m₁.pcbs q).fileLength := by
  have hcons : Consistent [] m := h.consistent
  have hnil := hcons.allocated_nil hempty
  refine (buildReadyQueue_induction (P := fun m' => Untouched m m' ∧
    ∀ q ∈ m'.allocated, (m'.pcbs q).jobScore = (m'.pcbs q).fileLength) ?_ ?_ hrun
    ⟨.start hcons hempty, by simp [hnil]⟩).2
  · rintro m' script dup ⟨hm, hscore⟩ hfind
    have hdup := hm.cons.queue_mem (List.mem_of_find?_eq_some hfind)
    obtain ⟨hself, hother⟩ := m'.pcbDupInit_spec env dup
    refine ⟨hm.appendDup hfind, fun q hq => ?_⟩
    show ((m'.pcbDupInit env dup).2.pcbs q).jobScore = ((m'.pcbDupInit env dup).2.pcbs q).fileLength
    rcases List.mem_cons.mp hq with hqp | hq
    · rw [hqp, show (m'.pcbDupInit env dup).2.pcbs (env.malloc m') = _ from hself]
      exact hscore dup hdup
    · rw [hother q (env.ne_malloc rfl hq)]
      exact hscore q hq
  · rintro m' script contents pcb m'' ⟨hm, hscore⟩ - - hinit
    obtain ⟨hpcb, halloc, -, -, -, ⟨t, hself⟩, hother⟩ := Machine.pcbInit_spec hinit
    refine ⟨hm.appendInit (List.length_take_le _ _) hinit, fun q hq => ?_⟩
    have hq : q ∈ m''.allocated := hq
    rw [halloc] at hq
    show (m''.pcbs q).jobScore = (m''.pcbs q).fileLength
    rcases List.mem_cons.mp hq with rfl | hq
    · rw [hself]
      rfl
    · rw [hother q (env.ne_malloc hpcb hq)]
      exact hscore q hq

def program (files : String → Option (List L)) (m : Machine s L W) (q : ℕ) : List L :=
  (files (m.pcbs q).filename).getD []

theorem Built.program_eq (h : Built files programs m₀ m)
    (hfiles : ∀ script ∈ programs.reduceOption, ∃ contents, files script = some contents ∧
      contents.length ≤ maxLines) (hq : q ∈ m.queue) : program files m q = (m.pcbs q).script := by
  obtain ⟨contents, hcontents, hscript⟩ := h.fromFile q hq
  obtain ⟨found, hfound, hlen⟩ := hfiles _ (h.names ▸ List.mem_map_of_mem hq)
  obtain rfl := Option.some.inj (hcontents.symm.trans hfound)
  rw [program, hcontents, hscript, List.take_of_length_le hlen]
  rfl

/-- Either scheduler executes the programs of the queue that it starts on, one after the other. -/
theorem Built.drain (h : Built files programs m₀ m) (hexcl : Exclusive m)
    (hfiles : ∀ script ∈ programs.reduceOption, ∃ contents, files script = some contents ∧
      contents.length ≤ maxLines) (policy : Policy) (hpolicy : policy = .fcfs ∨ policy = .sjf)
    (hqueue : (schedule env policy m).machine = { m with queue := queue })
    (hperm : queue.Perm m.queue) :
    ∃ c, Steps env (fun _ => True) (schedule env policy m) c ∧ c.step env = .ok none ∧
      c.machine.history = m₀.history ++
        queue.flatMap fun q => wholeTurn (m.pcbs q).pid (program files m q) := by
  have hstart : Steps env (fun _ => True) (schedule env policy m) (schedule env policy m) := .refl
  obtain ⟨hexcl₁, hadv⟩ := h.run hexcl hstart
  have hserving : Serving m.queue (schedule env policy m) := ⟨hpolicy, hadv, hexcl₁⟩
  obtain ⟨c, hsteps, hreturn, hhist⟩ := hserving.drain env rfl (by rw [hqueue])
  refine ⟨c, hsteps, hreturn, ?_⟩
  rw [hhist, hqueue, h.untouched.history]
  congr 1
  apply List.flatMap_congr
  intro q hq
  have hq := hperm.mem_iff.mp hq
  have hpc := (h.untouched.started q (h.untouched.cons.queue_mem hq)).2
  show _ :: linesFrom _ _ (m.pcbs q).programCounter = _
  rw [h.program_eq hfiles hq, hpc]
  rfl

/-- After any calls of `exec` that left the queue empty, programs with different names are
executed one after the other: by the first-come scheduler in the order of the queue, and by the
shortest-job scheduler, if they fit its array, in an order in which no program is longer than the
next one.  Both return. -/
theorem programs_sequential {ok : Sched s L W → Prop} (h : Session env ok (.idle m))
    (hempty : m.queue = []) (hnames : programs.reduceOption.Nodup)
    (hfiles : ∀ script ∈ programs.reduceOption, ∃ contents, files script = some contents ∧
      contents.length ≤ maxLines) :
    ∃ m₁, buildReadyQueue env files programs m = .ok (0, m₁) ∧
      (m₁.queue.map fun q => (m₁.pcbs q).filename) = programs.reduceOption ∧
      (∃ c, Steps env (fun _ => True) (schedule env .fcfs m₁) c ∧ c.step env = .ok none ∧
        c.machine.history = m.history ++
          m₁.queue.flatMap fun q => wholeTurn (m₁.pcbs q).pid (program files m₁ q)) ∧
      (programs.reduceOption.length ≤ maxNumPrograms → ∃ queue : List ℕ, queue.Perm m₁.queue ∧
        (queue.Pairwise fun p q =>
          (program files m₁ p).length ≤ (program files m₁ q).length) ∧
        ∃ c, Steps env (fun _ => True) (schedule env .sjf m₁) c ∧ c.step env = .ok none ∧
          c.machine.history = m.history ++
            queue.flatMap fun q => wholeTurn (m₁.pcbs q).pid (program files m₁ q)) := by
  have hrun : ∃ m₁, buildReadyQueue env files programs m = .ok (0, m₁) :=
    buildReadyQueue_of_contents hfiles
  obtain ⟨m₁, hrun⟩ := hrun
  have hbuilt := h.built hempty hrun
  have hexcl := h.exclusive hempty hnames hrun
  refine ⟨m₁, hrun, hbuilt.names, ?_, fun hfit => ?_⟩
  · exact hbuilt.drain hexcl hfiles .fcfs (.inl rfl) rfl (.refl _)
  · obtain ⟨queue, hperm, hsort⟩ := m₁.sortReadyQueue_eq
    refine ⟨queue, hperm, ?_, hbuilt.drain hexcl hfiles .sjf (.inr rfl) hsort hperm⟩
    have hsorted := m₁.sortReadyQueue_sorted (by
      rw [← hbuilt.names, List.length_map] at hfit
      exact hfit)
    rw [hsort] at hsorted
    apply hsorted.imp_of_mem
    intro p q hp hq hle
    have hscore : ∀ x ∈ queue, (m₁.pcbs x).jobScore = (program files m₁ x).length := by
      intro x hx
      have hx := hperm.mem_iff.mp hx
      have halloc := hbuilt.untouched.cons.queue_mem hx
      rw [h.jobScore hempty hrun x halloc, hbuilt.untouched.cons.length x halloc,
        hbuilt.program_eq hfiles hx]
    rw [hscore p hp, hscore q hq] at hle
    exact Int.ofNat_le.mp hle

/-- Two lines and no line, in one frame. -/
theorem programs_sequential_pair : ∃ m₁,
    buildReadyQueue (Env.upward oneFrame ℕ fun _ => none)
      (fun script => some (if script = "a" then [1, 2] else [])) [some "a", some "b"]
      (booted oneFrame) = .ok (0, m₁) ∧
    (m₁.queue.map fun q => (m₁.pcbs q).filename) = ["a", "b"] ∧
    ∃ c, Steps (Env.upward oneFrame ℕ fun _ => none) (fun _ => True)
        (schedule (Env.upward oneFrame ℕ fun _ => none) .sjf m₁) c ∧
      c.step (Env.upward oneFrame ℕ fun _ => none) = .ok none := by
  have hsession := session_booted oneFrame (Env.upward oneFrame ℕ fun _ => none) fun _ => True
  have hfiles : ∀ script ∈ [some "a", some "b"].reduceOption, ∃ contents : List ℕ,
      some (if script = "a" then [1, 2] else []) = some contents ∧
        contents.length ≤ maxLines := by
    intro script _
    refine ⟨_, rfl, ?_⟩
    split_ifs
    · simp
    · simp
  obtain ⟨m₁, hrun, hnames, -, hsjf⟩ := programs_sequential hsession rfl (by decide) hfiles
  obtain ⟨_, -, -, c, hsteps, hreturn, -⟩ := hsjf (by decide)
  exact ⟨m₁, hrun, hnames, c, hsteps, hreturn⟩

end PicoShell.Scheduling
