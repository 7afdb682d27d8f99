import PicoShell.Scheduling.ReadyQueue

/-! The loops of `scheduler.c`, one iteration at a time, and `exec.c` that starts them. -/

namespace PicoShell.Scheduling

variable {s : Sizes} {L W : Type}

namespace Machine

variable (m : Machine s L W)

/-- What a scheduler does when the page of the next line has no frame: the frame it loads. -/
def pageFault (pcb page : ℕ) : Exec (Fin s.numFrames × Machine s L W) :=
  match m.fstoreFindAvailableFrame with
  | some frame => do
    let m ← m.memLoadPageIntoFrame pcb page frame
    return (frame, m)
  | none => do
    let victimFrame := m.getLruFrame
    let m ← m.memFreeMemoryFrame victimFrame
    let m ← m.memLoadPageIntoFrame pcb page victimFrame
    return (victimFrame, m)

/-- The next line of a process is in `frame`: hand it to `parseInput`. -/
def executeLine (env : Env s L W) (pcb : ℕ) (frame : Fin s.numFrames) : ℤ × Machine s L W :=
  let m := m.accessFrame frame
  let x := m.pcbs pcb
  let offset := x.programCounter % s.frameSize
  let value := m.fstoreGet (frame * s.frameSize + offset)
  let (errCode, world) := env.parseInput value m.world
  (errCode,
    { m.modify pcb PCB.advance with
      world := world
      history := m.history ++ [.line x.pid x.programCounter value] })

def recordTurn (pcb : ℕ) : Machine s L W :=
  { m with history := m.history ++ [.turn (m.pcbs pcb).pid] }

end Machine

inductive Policy
  | fcfs
  | sjf
  | rr (timeSlice : ℕ)
  | aging
  deriving DecidableEq

/-- A scheduler between two iterations: `running` is the process that was popped last, with the
counter of the loop of its turn. -/
structure Sched (s : Sizes) (L W : Type) where
  machine : Machine s L W
  policy : Policy
  running : Option (ℕ × ℕ)
  errCode : ℤ

namespace Sched

variable (c : Sched s L W)

/-- One iteration of the inner loop of `scheduler_fcfs`, or its end. -/
def fcfsStep (env : Env s L W) (pcb : ℕ) : Exec (Sched s L W) := do
  let x := c.machine.pcbs pcb
  if x.programCounter < x.fileLength then
    let page := x.programCounter / s.frameSize
    match ← c.machine.readPage pcb page with
    | none =>
      -- the loop comes back to the line, whose page is there then
      let (_, m) ← c.machine.pageFault pcb page
      return { c with machine := m }
    | some frame =>
      let (errCode, m) := c.machine.executeLine env pcb frame
      return { c with machine := m, errCode := errCode }
  else
    return { c with machine := c.machine.pcbDeinit pcb, running := none }

/-- The end of the outer loop of `scheduler_rr`. -/
def rrEndTurn (pcb : ℕ) : Sched s L W :=
  let x := c.machine.pcbs pcb
  if x.programCounter = x.fileLength then
    { c with machine := c.machine.pcbDeinit pcb, running := none }
  else
    { c with machine := c.machine.appendProcess pcb, running := none }

/-- One iteration of the inner loop of `scheduler_rr`, or its end. -/
def rrStep (env : Env s L W) (timeSlice pcb i : ℕ) : Exec (Sched s L W) := do
  let x := c.machine.pcbs pcb
  if i < timeSlice ∧ x.programCounter ≠ x.fileLength then
    let page := x.programCounter / s.frameSize
    match ← c.machine.readPage pcb page with
    | none =>
      -- a fault ends the turn
      let (_, m) ← c.machine.pageFault pcb page
      return rrEndTurn { c with machine := m } pcb
    | some frame =>
      let (errCode, m) := c.machine.executeLine env pcb frame
      return { c with machine := m, errCode := errCode, running := some (pcb, i + 1) }
  else
    return c.rrEndTurn pcb

/-- The rest of an iteration of `scheduler_aging` once the frame of the line is known. -/
def agingLine (env : Env s L W) (pcb : ℕ) (frame : Fin s.numFrames) : Sched s L W :=
  let (errCode, m) := c.machine.executeLine env pcb frame
  let x := m.pcbs pcb
  if x.programCounter = x.fileLength then
    { c with machine := m.pcbDeinit pcb, errCode := errCode, running := none }
  else
    { c with
      machine := (m.ageReadyQueue.appendleftProcess pcb).sortReadyQueue
      errCode := errCode
      running := none }

/-- One iteration of `scheduler_aging` after the pop. -/
def agingStep (env : Env s L W) (pcb : ℕ) : Exec (Sched s L W) := do
  -- no look at the length of the program before
  let page := (c.machine.pcbs pcb).programCounter / s.frameSize
  match ← c.machine.readPage pcb page with
  | none =>
    -- unlike the others, this one executes the line at once
    let (frame, m) ← c.machine.pageFault pcb page
    return agingLine { c with machine := m } env pcb frame
  | some frame => return c.agingLine env pcb frame

/-- The scheduler goes on; `none` once the queue is empty and it returns. -/
def step (env : Env s L W) : Exec (Option (Sched s L W)) :=
  match c.running with
  | none =>
    match c.machine.popProcess with
    | (none, _) => .ok none
    | (some pcb, m) =>
      .ok (some { c with
        machine := m.recordTurn pcb
        running := some (pcb, 0) })
  | some (pcb, i) =>
    some <$> match c.policy with
      | .fcfs => c.fcfsStep env pcb
      | .sjf => c.fcfsStep env pcb
      | .rr timeSlice => c.rrStep env timeSlice pcb i
      | .aging => c.agingStep env pcb

end Sched

def schedule (env : Env s L W) (policy : Policy) (m : Machine s L W) : Sched s L W where
  machine := match policy with
    | .fcfs | .rr _ => m
    | .sjf | .aging => m.sortReadyQueue
  policy := policy
  running := none
  errCode := env.garbageCode m

def badcommandFileDoesNotExist : ℤ := 5

/-- `build_ready_queue` on the strings that `fgets` returns for each file. -/
def buildReadyQueue (env : Env s L W) (files : String → Option (List L)) :
    List (Option String) → Machine s L W → Exec (ℤ × Machine s L W)
  | [], m => .ok (0, m)
  | none :: programs, m => buildReadyQueue env files programs m
  | some script :: programs, m =>
    match m.findDuplicateScript script with
    | some dup =>
      let (pcb, m) := m.pcbDupInit env dup
      buildReadyQueue env files programs (m.appendProcess pcb)
    | none =>
      match files script with
      -- the processes of the programs before stay in the queue
      | none => .ok (badcommandFileDoesNotExist, m)
      | some contents => do
        let (pcb, m) ← m.pcbInit env script (contents.take maxLines)
        buildReadyQueue env files programs (m.appendProcess pcb)

/-- The next program is a duplicate, or has no file, or gives a new process. -/
theorem buildReadyQueue_cons {env : Env s L W} {files : String → Option (List L)} {script : String}
    {programs : List (Option String)} {m m' : Machine s L W} {code : ℤ}
    (h : buildReadyQueue env files (some script :: programs) m = .ok (code, m')) :
    (∃ dup, m.findDuplicateScript script = some dup ∧
      buildReadyQueue env files programs
        ((m.pcbDupInit env dup).2.appendProcess (m.pcbDupInit env dup).1) = .ok (code, m')) ∨
    (code = badcommandFileDoesNotExist ∧ m' = m) ∨
    (m.findDuplicateScript script = none ∧ ∃ contents pcb m₁, files script = some contents ∧
      m.pcbInit env script (contents.take maxLines) = .ok (pcb, m₁) ∧
      buildReadyQueue env files programs (m₁.appendProcess pcb) = .ok (code, m')) := by
  rw [buildReadyQueue] at h
  cases hfind : m.findDuplicateScript script with
  | some dup =>
    rw [hfind] at h
    exact .inl ⟨dup, rfl, h⟩
  | none =>
    rw [hfind] at h
    cases hfile : files script with
    | none =>
      rw [hfile] at h
      obtain ⟨rfl, rfl⟩ := Exec.ok_inj h
      exact .inr (.inl ⟨rfl, rfl⟩)
    | some contents =>
      rw [hfile] at h
      obtain ⟨res, hinit, hrest⟩ := Exec.bind_ok h
      exact .inr (.inr ⟨rfl, contents, res.1, res.2, rfl, hinit, hrest⟩)

/-- What both constructors preserve, building the queue preserves. -/
theorem buildReadyQueue_induction {env : Env s L W} {files : String → Option (List L)}
    {programs : List (Option String)} {m m' : Machine s L W} {code : ℤ} {P : Machine s L W → Prop}
    (hdup : ∀ m script dup, P m → m.findDuplicateScript script = some dup →
      P ((m.pcbDupInit env dup).2.appendProcess (m.pcbDupInit env dup).1))
    (hinit : ∀ m script contents pcb m', P m → m.findDuplicateScript script = none →
      files script = some contents →
      m.pcbInit env script (contents.take maxLines) = .ok (pcb, m') → P (m'.appendProcess pcb))
    (h : buildReadyQueue env files programs m = .ok (code, m')) (hm : P m) : P m' := by
  induction programs generalizing m with
  | nil =>
    rw [← (Exec.ok_inj h).2]
    exact hm
  | cons program programs ih =>
    cases program with
    | none => exact ih h hm
    | some script =>
      rcases buildReadyQueue_cons h with ⟨dup, hfind, hrest⟩ | ⟨-, rfl⟩ |
        ⟨hfind, contents, pcb, m₁, hfile, hrun, hrest⟩
      · exact ih hrest (hdup m script dup hm hfind)
      · exact hm
      · exact ih hrest (hinit m script contents pcb m₁ hm hfind hfile hrun)

/-- The policies of `exec`, with `RR_TIMESLICE` and `RR30_TIMESLICE`. -/
def policyOf (policy : String) : Option Policy :=
  if policy = "FCFS" then some .fcfs
  else if policy = "SJF" then some .sjf
  else if policy = "RR" then some (.rr 2)
  else if policy = "RR30" then some (.rr 30)
  else if policy = "AGING" then some .aging
  else none

/-- The shell waits for a command, or a scheduler runs. -/
inductive Shell (s : Sizes) (L W : Type)
  | idle (m : Machine s L W)
  | active (c : Sched s L W)

/-- `exec` up to the first iteration of the scheduler; it returns at once on an error. -/
def exec (env : Env s L W) (files : String → Option (List L)) (programs : List (Option String))
    (policy : String) (m : Machine s L W) : Exec (Shell s L W) := do
  let (errCode, m) ← buildReadyQueue env files programs m
  if errCode ≠ 0 then
    return .idle m
  else
    match policyOf policy with
    | none => return .idle m
    | some policy => return .active (schedule env policy m)

/-- The states of a shell from `mem_init` on, in a run of `exec` calls whose scheduler steps meet
`ok`. -/
inductive Session (env : Env s L W) (ok : Sched s L W → Prop) : Shell s L W → Prop
  | init (heap : ℕ → PCB s L) (world : W) : Session env ok (.idle (memInit heap world))
  | call {m files programs policy sh} (before : Session env ok (.idle m))
      (call : exec env files programs policy m = .ok sh) : Session env ok sh
  | step {c c'} (before : Session env ok (.active c)) (meets : ok c)
      (step : c.step env = .ok (some c')) : Session env ok (.active c')
  | ret {c} (before : Session env ok (.active c)) (ret : c.step env = .ok none) :
      Session env ok (.idle c.machine)

/-- The states a scheduler goes through, in steps that meet `ok`. -/
inductive Steps (env : Env s L W) (ok : Sched s L W → Prop) (c₀ : Sched s L W) : Sched s L W → Prop
  | refl : Steps env ok c₀ c₀
  | step {c c'} (before : Steps env ok c₀ c) (meets : ok c) (step : c.step env = .ok (some c')) :
      Steps env ok c₀ c'

theorem le_foldr_max {l : List ℕ} {p : ℕ} (hp : p ∈ l) : p ≤ l.foldr max 0 := by
  induction l with
  | nil => exact absurd hp List.not_mem_nil
  | cons q l ih =>
    rcases List.mem_cons.mp hp with rfl | hp
    · exact le_max_left _ _
    · exact (ih hp).trans (le_max_right _ _)

theorem foldr_max_fresh (l : List ℕ) : l.foldr max 0 + 1 ∉ l :=
  fun hmem => Nat.not_succ_le_self _ (le_foldr_max hmem)

/-- An environment to run the model in: `malloc` goes upwards, every line is interpreted without
an error, and uninitialised pointers lead to the strings of `garbage`. -/
def Env.upward (s : Sizes) (L : Type) (garbage : ℕ → Option L) : Env s L Unit where
  parseInput _ world := (0, world)
  malloc m := m.allocated.foldr max 0 + 1
  malloc_fresh m := foldr_max_fresh m.allocated
  garbageContents _ := garbage
  garbageCode _ := 0

def runSteps (env : Env s L W) : ℕ → Sched s L W → Option (Sched s L W)
  | 0, c => some c
  | n + 1, c =>
    match c.step env with
    | .ok (some c') => runSteps env n c'
    | _ => none

def runExec (env : Env s L W) (files : String → Option (List L)) (programs : List (Option String))
    (policy : String) (m : Machine s L W) (n : ℕ) : Option (Sched s L W) :=
  match exec env files programs policy m with
  | .ok (.active c) => runSteps env n c
  | _ => none

theorem Session.runSteps {env : Env s L W} {c c' : Sched s L W} {n : ℕ}
    (h : Session env (fun _ => True) (.active c)) (hrun : runSteps env n c = some c') :
    Session env (fun _ => True) (.active c') := by
  induction n generalizing c with
  | zero =>
    rw [← Option.some.inj hrun]
    exact h
  | succ n ih =>
    rw [Scheduling.runSteps] at hrun
    split at hrun
    · rename_i c₁ hstep
      exact ih (.step h trivial hstep) hrun
    · contradiction

theorem Session.runExec {env : Env s L W} {files : String → Option (List L)}
    {programs : List (Option String)} {policy : String} {m : Machine s L W} {c : Sched s L W} {n : ℕ}
    (h : Session env (fun _ => True) (.idle m))
    (hrun : runExec env files programs policy m n = some c) :
    Session env (fun _ => True) (.active c) := by
  rw [Scheduling.runExec] at hrun
  split at hrun
  · rename_i c₀ hexec
    exact (h.call hexec).runSteps hrun
  · contradiction

variable {env : Env s L W} {m m' : Machine s L W} {c c' : Sched s L W} {pcb page i : ℕ}
  {frame : Fin s.numFrames}

namespace Machine

/-- `frame` is made free: it is available, or the least recently used one and evicted. -/
def Frees (m : Machine s L W) (frame : Fin s.numFrames) (m' : Machine s L W) : Prop :=
  (m.fstoreFindAvailableFrame = some frame ∧ m' = m) ∨
  (m.fstoreFindAvailableFrame = none ∧ frame = m.getLruFrame ∧
    ∃ entry, m.frameTable frame = some entry ∧ m' = m.evictFrame frame entry)

theorem Frees.same (h : m.Frees frame m') (q : ℕ) :
    ∃ t, m'.pcbs q = (m.pcbs q).withPages t ∧ ∀ p f, t p = some f → (m.pcbs q).pageTable p = some f := by
  rcases h with ⟨-, rfl⟩ | ⟨-, -, entry, -, rfl⟩
  · exact ⟨_, (PCB.withPages_self _).symm, fun _ _ hp => hp⟩
  · refine ⟨_, evictFrame_pcbs _ _ _ _, ?_⟩
    intro p f hp
    split_ifs at hp
    exact hp

theorem pageFault_cases (h : m.pageFault pcb page = .ok (frame, m')) :
    ∃ m₁, m.Frees frame m₁ ∧
      (((m.pcbs pcb).fileLength ≤ page * s.frameSize ∧ m' = m₁) ∨
        (page * s.frameSize < (m.pcbs pcb).fileLength ∧ m.Readable pcb page ∧
          m' = m₁.loadPage pcb page frame)) := by
  have hload : ∀ m₁, m.Frees frame m₁ → m₁.memLoadPageIntoFrame pcb page frame = .ok m' →
      ((m.pcbs pcb).fileLength ≤ page * s.frameSize ∧ m' = m₁) ∨
      (page * s.frameSize < (m.pcbs pcb).fileLength ∧ m.Readable pcb page ∧
        m' = m₁.loadPage pcb page frame) := by
    intro m₁ hfree hrun
    obtain ⟨t, hsame, -⟩ := hfree.same pcb
    have := memLoadPageIntoFrame_cases hrun
    unfold Readable at this ⊢
    rwa [hsame] at this
  rw [pageFault] at h
  cases hfind : m.fstoreFindAvailableFrame with
  | some f =>
    rw [hfind] at h
    obtain ⟨m₁, hrun, h⟩ := Exec.bind_ok h
    obtain ⟨rfl, rfl⟩ := Exec.ok_inj h
    have hfree : m.Frees f m := .inl ⟨hfind, rfl⟩
    exact ⟨m, hfree, hload m hfree hrun⟩
  | none =>
    rw [hfind] at h
    obtain ⟨m₁, hevict, h⟩ := Exec.bind_ok h
    obtain ⟨m₂, hrun, h⟩ := Exec.bind_ok h
    obtain ⟨rfl, rfl⟩ := Exec.ok_inj h
    rw [memFreeMemoryFrame_eq] at hevict
    cases hentry : m.frameTable m.getLruFrame with
    | none =>
      rw [hentry] at hevict
      contradiction
    | some entry =>
      rw [hentry] at hevict
      obtain rfl := Except.ok.inj hevict
      have hfree : m.Frees m.getLruFrame (m.evictFrame m.getLruFrame entry) :=
        .inr ⟨hfind, rfl, entry, hentry, rfl⟩
      exact ⟨_, hfree, hload _ hfree hrun⟩

section ExecuteLine

variable (m) (env : Env s L W) (pcb : ℕ) (frame : Fin s.numFrames)

theorem executeLine_pcbs (q : ℕ) : (m.executeLine env pcb frame).2.pcbs q =
    if q = pcb then (m.pcbs pcb).advance else m.pcbs q :=
  pcbs_modify (m.accessFrame frame) pcb PCB.advance q

@[simp] theorem executeLine_history : (m.executeLine env pcb frame).2.history = m.history ++
    [.line (m.pcbs pcb).pid (m.pcbs pcb).programCounter (m.memory (frame * s.frameSize +
      (m.pcbs pcb).programCounter % s.frameSize))] := rfl

/-- All a line changes about a process is its program counter. -/
theorem executeLine_same (q : ℕ) :
    ((m.executeLine env pcb frame).2.pcbs q).pid = (m.pcbs q).pid ∧
    ((m.executeLine env pcb frame).2.pcbs q).script = (m.pcbs q).script ∧
    ((m.executeLine env pcb frame).2.pcbs q).fileLength = (m.pcbs q).fileLength ∧
    ((m.executeLine env pcb frame).2.pcbs q).fileContents = (m.pcbs q).fileContents ∧
    ((m.executeLine env pcb frame).2.pcbs q).pageTable = (m.pcbs q).pageTable := by
  rw [executeLine_pcbs]
  split_ifs with hq
  · rw [hq]
    exact ⟨rfl, rfl, rfl, rfl, rfl⟩
  · exact ⟨rfl, rfl, rfl, rfl, rfl⟩

end ExecuteLine

theorem readPage_ok {x : Option (Fin s.numFrames)} (h : m.readPage pcb page = .ok x) :
    (m.pcbs pcb).pageTable page = x := by
  unfold readPage at h
  split_ifs at h
  exact Except.ok.inj h

def currentPage (m : Machine s L W) (pcb : ℕ) : ℕ := (m.pcbs pcb).programCounter / s.frameSize

theorem currentPage_inFile (h : (m.pcbs pcb).programCounter < (m.pcbs pcb).fileLength) :
    m.currentPage pcb * s.frameSize < (m.pcbs pcb).fileLength :=
  (Nat.div_mul_le_self _ _).trans_lt h

/-- The second part of a step: the next line is executed, always so in the ageing scheduler.  Its
page has a frame, or, in that scheduler only, lies behind the end of the file. -/
def Executes (env : Env s L W) (policy : Policy) (m : Machine s L W) (pcb : ℕ)
    (m' : Machine s L W) : Prop :=
  (policy ≠ .aging ∧ m' = m) ∨ ∃ frame, m' = (m.executeLine env pcb frame).2 ∧
    (policy = .aging ∨ (m.pcbs pcb).programCounter ≠ (m.pcbs pcb).fileLength) ∧
    ((m.pcbs pcb).pageTable (m.currentPage pcb) = some frame ∨
      (policy = .aging ∧ (m.pcbs pcb).fileLength ≤ m.currentPage pcb * s.frameSize))

/-- The third part of a step: the process goes on, is released, or goes back to the queue. -/
def Ends (policy : Policy) (m : Machine s L W) (pcb : ℕ) (running : Option (ℕ × ℕ))
    (m' : Machine s L W) : Prop :=
  (policy ≠ .aging ∧ (∃ i, running = some (pcb, i)) ∧ m' = m) ∨
  (running = none ∧ (m.pcbs pcb).fileLength ≤ (m.pcbs pcb).programCounter ∧
    (policy = .aging → (m.pcbs pcb).programCounter = (m.pcbs pcb).fileLength) ∧
    m' = m.pcbDeinit pcb) ∨
  (running = none ∧ (m.pcbs pcb).programCounter ≠ (m.pcbs pcb).fileLength ∧
    (m' = m.appendProcess pcb ∨ m' = (m.ageReadyQueue.appendleftProcess pcb).sortReadyQueue))

end Machine

namespace Sched

def FaultOf (c : Sched s L W) (pcb : ℕ) : Prop :=
  ∃ i, c.running = some (pcb, i) ∧
    (c.machine.pcbs pcb).pageTable (c.machine.currentPage pcb) = none ∧
    match c.policy with
    | .fcfs | .sjf => (c.machine.pcbs pcb).programCounter < (c.machine.pcbs pcb).fileLength
    | .rr timeSlice => i < timeSlice ∧
        (c.machine.pcbs pcb).programCounter ≠ (c.machine.pcbs pcb).fileLength
    | .aging => True

/-- The first part of a step: the page of the next line is loaded if it has no frame. -/
def Faults (c : Sched s L W) (pcb : ℕ) (m : Machine s L W) : Prop :=
  m = c.machine ∨ (c.FaultOf pcb ∧
    ∃ frame, c.machine.pageFault pcb (c.machine.currentPage pcb) = .ok (frame, m))

def Phases (env : Env s L W) (c : Sched s L W) (pcb : ℕ) (c' : Sched s L W) : Prop :=
  c'.policy = c.policy ∧ ∃ m₁ m₂, c.Faults pcb m₁ ∧ m₁.Executes env c.policy pcb m₂ ∧
    m₂.Ends c.policy pcb c'.running c'.machine

/-- The branches of an iteration of `scheduler_fcfs`: a fault, a line, or the end of the program. -/
theorem fcfsStep_inv (h : c.fcfsStep env pcb = .ok c') :
    ((c.machine.pcbs pcb).programCounter < (c.machine.pcbs pcb).fileLength ∧
      (c.machine.pcbs pcb).pageTable (c.machine.currentPage pcb) = none ∧
      ∃ frame m, c.machine.pageFault pcb (c.machine.currentPage pcb) = .ok (frame, m) ∧
        c' = { c with machine := m }) ∨
    ((c.machine.pcbs pcb).programCounter < (c.machine.pcbs pcb).fileLength ∧
      ∃ frame, (c.machine.pcbs pcb).pageTable (c.machine.currentPage pcb) = some frame ∧
        c' = { c with
          machine := (c.machine.executeLine env pcb frame).2
          errCode := (c.machine.executeLine env pcb frame).1 }) ∨
    ((c.machine.pcbs pcb).fileLength ≤ (c.machine.pcbs pcb).programCounter ∧
      c' = { c with machine := c.machine.pcbDeinit pcb, running := none }) := by
  rw [fcfsStep] at h
  split_ifs at h with hpc
  · obtain ⟨x, hread, h⟩ := Exec.bind_ok h
    have hpage := Machine.readPage_ok hread
    cases x with
    | none =>
      obtain ⟨⟨frame, m⟩, hfault, h⟩ := Exec.bind_ok h
      exact .inl ⟨hpc, hpage, frame, m, hfault, (Except.ok.inj h).symm⟩
    | some frame => exact .inr (.inl ⟨hpc, frame, hpage, (Except.ok.inj h).symm⟩)
  · exact .inr (.inr ⟨Nat.not_lt.mp hpc, (Except.ok.inj h).symm⟩)

/-- The branches of an iteration of `scheduler_rr`: a fault, a line, or the end of the turn. -/
theorem rrStep_inv {timeSlice : ℕ} (h : c.rrStep env timeSlice pcb i = .ok c') :
    ((i < timeSlice ∧ (c.machine.pcbs pcb).programCounter ≠ (c.machine.pcbs pcb).fileLength) ∧
      (c.machine.pcbs pcb).pageTable (c.machine.currentPage pcb) = none ∧
      ∃ frame m, c.machine.pageFault pcb (c.machine.currentPage pcb) = .ok (frame, m) ∧
        c' = rrEndTurn { c with machine := m } pcb) ∨
    ((i < timeSlice ∧ (c.machine.pcbs pcb).programCounter ≠ (c.machine.pcbs pcb).fileLength) ∧
      ∃ frame, (c.machine.pcbs pcb).pageTable (c.machine.currentPage pcb) = some frame ∧
        c' = { c with
          machine := (c.machine.executeLine env pcb frame).2
          errCode := (c.machine.executeLine env pcb frame).1
          running := some (pcb, i + 1) }) ∨
    (¬ (i < timeSlice ∧ (c.machine.pcbs pcb).programCounter ≠ (c.machine.pcbs pcb).fileLength) ∧
      c' = c.rrEndTurn pcb) := by
  rw [rrStep] at h
  split_ifs at h with hpc
  · obtain ⟨x, hread, h⟩ := Exec.bind_ok h
    have hpage := Machine.readPage_ok hread
    cases x with
    | none =>
      obtain ⟨⟨frame, m⟩, hfault, h⟩ := Exec.bind_ok h
      exact .inl ⟨hpc, hpage, frame, m, hfault, (Except.ok.inj h).symm⟩
    | some frame => exact .inr (.inl ⟨hpc, frame, hpage, (Except.ok.inj h).symm⟩)
  · exact .inr (.inr ⟨hpc, (Except.ok.inj h).symm⟩)

/-- An iteration of `scheduler_aging` executes a line, after a fault if its page has no frame. -/
theorem agingStep_inv (h : c.agingStep env pcb = .ok c') :
    ((c.machine.pcbs pcb).pageTable (c.machine.currentPage pcb) = none ∧
      ∃ frame m, c.machine.pageFault pcb (c.machine.currentPage pcb) = .ok (frame, m) ∧
        c' = agingLine { c with machine := m } env pcb frame) ∨
    ∃ frame, (c.machine.pcbs pcb).pageTable (c.machine.currentPage pcb) = some frame ∧
      c' = c.agingLine env pcb frame := by
  rw [agingStep] at h
  obtain ⟨x, hread, h⟩ := Exec.bind_ok h
  have hpage := Machine.readPage_ok hread
  cases x with
  | none =>
    obtain ⟨⟨frame, m⟩, hfault, h⟩ := Exec.bind_ok h
    exact .inl ⟨hpage, frame, m, hfault, (Except.ok.inj h).symm⟩
  | some frame => exact .inr ⟨frame, hpage, (Except.ok.inj h).symm⟩

theorem fcfsStep_cases (h : c.fcfsStep env pcb = .ok c') (hrun : c.running = some (pcb, i))
    (hpolicy : c.policy = .fcfs ∨ c.policy = .sjf) : c.Phases env pcb c' := by
  have hne : c.policy ≠ .aging := by
    rcases hpolicy with hp | hp
    · simp [hp]
    · simp [hp]
  rcases fcfsStep_inv h with ⟨hpc, hpage, frame, m, hfault, rfl⟩ | ⟨hpc, frame, hpage, rfl⟩ |
    ⟨hpc, rfl⟩
  · refine ⟨rfl, m, m, .inr ⟨⟨i, hrun, hpage, ?_⟩, frame, hfault⟩, .inl ⟨hne, rfl⟩,
      .inl ⟨hne, ⟨i, hrun⟩, rfl⟩⟩
    rcases hpolicy with hp | hp
    · simpa [hp] using hpc
    · simpa [hp] using hpc
  · exact ⟨rfl, c.machine, _, .inl rfl, .inr ⟨frame, rfl, .inr hpc.ne, .inl hpage⟩,
      .inl ⟨hne, ⟨i, hrun⟩, rfl⟩⟩
  · exact ⟨rfl, _, _, .inl rfl, .inl ⟨hne, rfl⟩,
      .inr (.inl ⟨rfl, hpc, fun hp => absurd hp hne, rfl⟩)⟩

theorem rrEndTurn_ends (c : Sched s L W) (pcb : ℕ) : (c.rrEndTurn pcb).policy = c.policy ∧
    c.machine.Ends c.policy pcb (c.rrEndTurn pcb).running (c.rrEndTurn pcb).machine := by
  unfold rrEndTurn
  simp only
  split_ifs with hpc
  · exact ⟨rfl, .inr (.inl ⟨rfl, hpc.ge, fun _ => hpc, rfl⟩)⟩
  · exact ⟨rfl, .inr (.inr ⟨rfl, hpc, .inl rfl⟩)⟩

theorem rrStep_cases {timeSlice : ℕ} (h : c.rrStep env timeSlice pcb i = .ok c')
    (hrun : c.running = some (pcb, i)) (hpolicy : c.policy = .rr timeSlice) :
    c.Phases env pcb c' := by
  have hne : c.policy ≠ .aging := by simp [hpolicy]
  rcases rrStep_inv h with ⟨hpc, hpage, frame, m, hfault, rfl⟩ | ⟨hpc, frame, hpage, rfl⟩ | ⟨-, rfl⟩
  · obtain ⟨hpol, hends⟩ := rrEndTurn_ends { c with machine := m } pcb
    refine ⟨hpol, m, m, .inr ⟨⟨i, hrun, hpage, ?_⟩, frame, hfault⟩, .inl ⟨hne, rfl⟩, hends⟩
    simpa [hpolicy] using hpc
  · exact ⟨rfl, c.machine, _, .inl rfl, .inr ⟨frame, rfl, .inr hpc.2, .inl hpage⟩,
      .inl ⟨hne, ⟨i + 1, rfl⟩, rfl⟩⟩
  · obtain ⟨hpol, hends⟩ := rrEndTurn_ends c pcb
    exact ⟨hpol, _, _, .inl rfl, .inl ⟨hne, rfl⟩, hends⟩

theorem agingLine_cases (env : Env s L W) (c : Sched s L W) (pcb : ℕ) (frame : Fin s.numFrames) :
    (c.agingLine env pcb frame).policy = c.policy ∧
      (c.machine.executeLine env pcb frame).2.Ends c.policy pcb (c.agingLine env pcb frame).running
        (c.agingLine env pcb frame).machine := by
  unfold agingLine
  simp only
  split_ifs with hpc
  · exact ⟨rfl, .inr (.inl ⟨rfl, hpc.ge, fun _ => hpc, rfl⟩)⟩
  · exact ⟨rfl, .inr (.inr ⟨rfl, hpc, .inr rfl⟩)⟩

theorem agingStep_cases (h : c.agingStep env pcb = .ok c') (hrun : c.running = some (pcb, i))
    (hpolicy : c.policy = .aging) : c.Phases env pcb c' := by
  rcases agingStep_inv h with ⟨hpage, frame, m, hfault, rfl⟩ | ⟨frame, hpage, rfl⟩
  · obtain ⟨hpol, hends⟩ := agingLine_cases env { c with machine := m } pcb frame
    refine ⟨hpol, m, _, .inr ⟨⟨i, hrun, hpage, ?_⟩, frame, hfault⟩,
      .inr ⟨frame, rfl, .inl hpolicy, ?_⟩, hends⟩
    · simp [hpolicy]
    -- the page is mapped now, unless it is behind the end of the file
    obtain ⟨m₁, hfree, ⟨hout, heq⟩ | ⟨-, -, heq⟩⟩ := Machine.pageFault_cases hfault
    · obtain ⟨t, hsame, -⟩ := hfree.same pcb
      refine .inr ⟨hpolicy, ?_⟩
      rw [heq, Machine.currentPage, hsame]
      exact hout
    · obtain ⟨t, hsame, -⟩ := hfree.same pcb
      refine .inl ?_
      simp only [heq, Machine.currentPage, Machine.loadPage_pcbs, hsame]
      simp
  · obtain ⟨hpol, hends⟩ := agingLine_cases env c pcb frame
    exact ⟨hpol, c.machine, _, .inl rfl, .inr ⟨frame, rfl, .inl hpolicy, .inl hpage⟩, hends⟩

/-- While a process runs, a step is an iteration of the policy. -/
theorem step_running (hrun : c.running = some (pcb, i)) (h : c.step env = .ok (some c')) :
    match c.policy with
    | .fcfs | .sjf => c.fcfsStep env pcb = .ok c'
    | .rr timeSlice => c.rrStep env timeSlice pcb i = .ok c'
    | .aging => c.agingStep env pcb = .ok c' := by
  rw [step] at h
  simp only [hrun] at h
  obtain ⟨c₁, hstep, hc⟩ := Exec.map_ok h
  obtain rfl := Option.some.inj hc
  cases hpolicy : c.policy with
  | fcfs => simpa only [hpolicy] using hstep
  | sjf => simpa only [hpolicy] using hstep
  | rr timeSlice => simpa only [hpolicy] using hstep
  | aging => simpa only [hpolicy] using hstep

/-- A step pops a process, or is made of a fault, a line and an end, each of which may be missing. -/
theorem step_cases (h : c.step env = .ok (some c')) : c'.policy = c.policy ∧
    ((∃ pcb queue, c.running = none ∧ c.machine.queue = pcb :: queue ∧
        c'.running = some (pcb, 0) ∧
        c'.machine = { c.machine with queue := queue }.recordTurn pcb) ∨
      ∃ pcb i, c.running = some (pcb, i) ∧ c.Phases env pcb c') := by
  cases hrun : c.running with
  | none =>
    rw [step] at h
    cases hqueue : c.machine.queue with
    | nil =>
      simp only [hrun, Machine.popProcess, hqueue] at h
      cases h
    | cons pcb queue =>
      simp only [hrun, Machine.popProcess, hqueue] at h
      obtain rfl := Option.some.inj (Except.ok.inj h)
      exact ⟨rfl, .inl ⟨pcb, queue, rfl, rfl, rfl, rfl⟩⟩
  | some r =>
    obtain ⟨pcb, i⟩ := r
    have hstep := step_running hrun h
    have hphases : c.Phases env pcb c' := by
      cases hpolicy : c.policy with
      | fcfs =>
        rw [hpolicy] at hstep
        exact fcfsStep_cases hstep hrun (.inl hpolicy)
      | sjf =>
        rw [hpolicy] at hstep
        exact fcfsStep_cases hstep hrun (.inr hpolicy)
      | rr timeSlice =>
        rw [hpolicy] at hstep
        exact rrStep_cases hstep hrun hpolicy
      | aging =>
        rw [hpolicy] at hstep
        exact agingStep_cases hstep hrun hpolicy
    exact ⟨hphases.1, .inr ⟨pcb, i, rfl, hphases⟩⟩

theorem pop {queue : List ℕ} (env : Env s L W) (hidle : c.running = none)
    (hqueue : c.machine.queue = pcb :: queue) :
    ∃ c', c.step env = .ok (some c') ∧ c'.running = some (pcb, 0) ∧
      c'.machine = { c.machine with queue := queue }.recordTurn pcb :=
  ⟨_, by simp only [step, hidle, Machine.popProcess, hqueue]; rfl, rfl, rfl⟩

theorem step_none (h : c.step env = .ok none) : c.running = none ∧ c.machine.queue = [] := by
  rw [step] at h
  cases hrun : c.running with
  | none =>
    cases hqueue : c.machine.queue with
    | nil => exact ⟨rfl, rfl⟩
    | cons pcb queue =>
      simp only [hrun, Machine.popProcess, hqueue] at h
      cases h
  | some r =>
    simp only [hrun] at h
    obtain ⟨_, -, hc⟩ := Exec.map_ok h
    contradiction

end Sched

namespace Machine

def SameProcesses (m m' : Machine s L W) : Prop :=
  m'.allocated = m.allocated ∧ m'.queue = m.queue ∧ m'.history = m.history ∧
    ∀ q, ∃ t, m'.pcbs q = (m.pcbs q).withPages t

theorem SameProcesses.refl (m : Machine s L W) : m.SameProcesses m :=
  ⟨rfl, rfl, rfl, fun _ => ⟨_, (PCB.withPages_self _).symm⟩⟩

theorem SameProcesses.same (h : m.SameProcesses m') (q : ℕ) :
    (m'.pcbs q).pid = (m.pcbs q).pid ∧
      (m'.pcbs q).programCounter = (m.pcbs q).programCounter ∧
      (m'.pcbs q).fileLength = (m.pcbs q).fileLength := by
  obtain ⟨t, hq⟩ := h.2.2.2 q
  rw [hq]
  exact ⟨rfl, rfl, rfl⟩

theorem Frees.processes (h : m.Frees frame m') : m.SameProcesses m' := by
  rcases h with ⟨-, rfl⟩ | ⟨-, -, entry, -, rfl⟩
  · exact .refl m'
  · exact ⟨rfl, rfl, rfl, fun q => ⟨_, evictFrame_pcbs _ _ _ _⟩⟩

theorem SameProcesses.loadPage (h : m.SameProcesses m') (pcb page : ℕ) (frame : Fin s.numFrames) :
    m.SameProcesses (m'.loadPage pcb page frame) := by
  refine ⟨h.1, h.2.1, h.2.2.1, fun q => ?_⟩
  obtain ⟨t, hsame⟩ := h.2.2.2 q
  exact ⟨_, by rw [loadPage_pcbs, hsame]; rfl⟩

theorem pageFault_processes (h : m.pageFault pcb page = .ok (frame, m')) : m.SameProcesses m' := by
  obtain ⟨m₁, hfree, ⟨-, rfl⟩ | ⟨-, -, rfl⟩⟩ := pageFault_cases h
  · exact hfree.processes
  · exact hfree.processes.loadPage pcb page frame

end Machine

namespace Sched

theorem Faults.same (h : c.Faults pcb m') : m'.allocated = c.machine.allocated ∧
    m'.queue = c.machine.queue ∧ m'.history = c.machine.history ∧
    ∀ q, ∃ t, m'.pcbs q = (c.machine.pcbs q).withPages t := by
  rcases h with rfl | ⟨-, frame, hfault⟩
  · exact Machine.SameProcesses.refl c.machine
  · exact Machine.pageFault_processes hfault

end Sched

/-- The end of a step may change scores, and release the process. -/
theorem Machine.Ends.same {policy : Policy} {running : Option (ℕ × ℕ)}
    (h : m.Ends policy pcb running m') : m'.memory = m.memory ∧ m'.frameTable = m.frameTable ∧
      m'.history = m.history ∧ (∀ q ∈ m'.allocated, q ∈ m.allocated) ∧
      ∀ q, ∃ score, m'.pcbs q = (m.pcbs q).withScore score := by
  have hself : ∀ q, ∃ score, m.pcbs q = (m.pcbs q).withScore score := fun q => ⟨_, rfl⟩
  rcases h with ⟨-, -, rfl⟩ | ⟨-, -, -, rfl⟩ | ⟨-, -, rfl | rfl⟩
  · exact ⟨rfl, rfl, rfl, fun _ hq => hq, hself⟩
  · exact ⟨rfl, rfl, rfl, fun _ hq => List.mem_of_mem_erase hq, hself⟩
  · exact ⟨rfl, rfl, rfl, fun _ hq => hq, hself⟩
  · obtain ⟨queue, score, -, heq⟩ := m.requeue_eq pcb
    rw [heq]
    exact ⟨rfl, rfl, rfl, fun _ hq => hq, fun q => ⟨score q, rfl⟩⟩

end PicoShell.Scheduling
