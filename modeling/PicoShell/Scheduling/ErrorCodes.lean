import Mathlib.Logic.Relation
import PicoShell.Core.Codes
import PicoShell.Scheduling.Paging

namespace PicoShell.Scheduling

open PicoShell.Core

variable {s : Sizes} {L W : Type}

/-- What a scheduler comes to next: its end, another iteration, or a line of a process. -/
inductive Next (s : Sizes) (L W : Type)
  | ret
  | goto (c : Sched s L W)
  | line (c : Sched s L W) (pcb i : ℕ) (frame : Fin s.numFrames)

namespace Sched

variable (c : Sched s L W)

/-- The frame of the next line, or `fault` of the machine once its page is loaded. -/
def fetch (pcb i : ℕ) (fault : Machine s L W → Sched s L W) : Exec (Next s L W) := do
  let page := (c.machine.pcbs pcb).programCounter / s.frameSize
  match ← c.machine.readPage pcb page with
  | none =>
    let (_, m) ← c.machine.pageFault pcb page
    return .goto (fault m)
  | some frame => return .line c pcb i frame

/-- One iteration of the inner loop of `scheduler_fcfs`. -/
def fcfsNext (pcb i : ℕ) : Exec (Next s L W) :=
  let x := c.machine.pcbs pcb
  if x.programCounter < x.fileLength then
    c.fetch pcb i fun m => { c with machine := m }
  else
    return .goto { c with machine := c.machine.pcbDeinit pcb, running := none }

/-- One iteration of the inner loop of `scheduler_rr`. -/
def rrNext (timeSlice pcb i : ℕ) : Exec (Next s L W) :=
  let x := c.machine.pcbs pcb
  if i < timeSlice ∧ x.programCounter ≠ x.fileLength then
    c.fetch pcb i fun m => rrEndTurn { c with machine := m } pcb
  else
    return .goto (c.rrEndTurn pcb)

/-- One iteration of `scheduler_aging`. -/
def agingNext (pcb i : ℕ) : Exec (Next s L W) := do
  let page := (c.machine.pcbs pcb).programCounter / s.frameSize
  match ← c.machine.readPage pcb page with
  | none =>
    let (frame, m) ← c.machine.pageFault pcb page
    return .line { c with machine := m } pcb i frame
  | some frame => return .line c pcb i frame

def next : Exec (Next s L W) :=
  match c.running with
  | none =>
    match c.machine.popProcess with
    | (none, _) => .ok .ret
    | (some pcb, m) => .ok (.goto { c with machine := m.recordTurn pcb, running := some (pcb, 0) })
  | some (pcb, i) =>
    match c.policy with
    | .fcfs => c.fcfsNext pcb i
    | .sjf => c.fcfsNext pcb i
    | .rr timeSlice => c.rrNext timeSlice pcb i
    | .aging => c.agingNext pcb i

def lineIn (pcb : ℕ) (frame : Fin s.numFrames) : Option L :=
  c.machine.fstoreGet (frame * s.frameSize + (c.machine.pcbs pcb).programCounter % s.frameSize)

/-- The machine `m` that `parseInput` left, with the next line of the process counted. -/
def counted (pcb : ℕ) (frame : Fin s.numFrames) (m : Machine s L W) : Machine s L W :=
  let x := c.machine.pcbs pcb
  { m.modify pcb PCB.advance with
    history := m.history ++ [.line x.pid x.programCounter (c.lineIn pcb frame)] }

/-- The end of an iteration of `scheduler_aging`. -/
def agingEndTurn (pcb : ℕ) (errCode : ℤ) (m : Machine s L W) : Sched s L W :=
  let x := m.pcbs pcb
  if x.programCounter = x.fileLength then
    { c with machine := m.pcbDeinit pcb, errCode := errCode, running := none }
  else
    { c with
      machine := (m.ageReadyQueue.appendleftProcess pcb).sortReadyQueue
      errCode := errCode
      running := none }

/-- The rest of an iteration after the call of `parseInput`, which left `m`. -/
def resume (pcb i : ℕ) (frame : Fin s.numFrames) (errCode : ℤ) (m : Machine s L W) : Sched s L W :=
  match c.policy with
  | .fcfs => { c with machine := c.counted pcb frame m, errCode := errCode }
  | .sjf => { c with machine := c.counted pcb frame m, errCode := errCode }
  | .rr _ =>
    { c with machine := c.counted pcb frame m, errCode := errCode, running := some (pcb, i + 1) }
  | .aging => c.agingEndTurn pcb errCode (c.counted pcb frame m)

end Sched

/-- The state after the step, when lines only change the world. -/
def Next.after (env : Env s L W) : Next s L W → Option (Sched s L W)
  | ret => none
  | goto c => some c
  | line c pcb i frame =>
    let (errCode, world) := env.parseInput (c.lineIn pcb frame) c.machine.world
    some (c.resume pcb i frame errCode { c.machine.accessFrame frame with world := world })

namespace Sched

variable {c : Sched s L W} {pcb : ℕ}

theorem fetch_after (env : Env s L W) (i : ℕ) (fault : Machine s L W → Sched s L W)
    (step : Fin s.numFrames → Sched s L W)
    (hstep : ∀ frame, some (step frame) = Next.after env (.line c pcb i frame)) :
    (some <$> do
      match ← c.machine.readPage pcb ((c.machine.pcbs pcb).programCounter / s.frameSize) with
      | none =>
        let res ← c.machine.pageFault pcb ((c.machine.pcbs pcb).programCounter / s.frameSize)
        return fault res.2
      | some frame => return step frame) = Next.after env <$> c.fetch pcb i fault := by
  unfold fetch
  simp only
  cases c.machine.readPage pcb ((c.machine.pcbs pcb).programCounter / s.frameSize) with
  | error e => rfl
  | ok x =>
    cases x with
    | none =>
      simp only [bind, Except.bind]
      cases c.machine.pageFault pcb ((c.machine.pcbs pcb).programCounter / s.frameSize) with
      | error e => rfl
      | ok res => rfl
    | some frame => exact congrArg Except.ok (hstep frame)

theorem fcfsStep_eq_next (env : Env s L W) (i : ℕ) (hpolicy : c.policy = .fcfs ∨ c.policy = .sjf) :
    some <$> c.fcfsStep env pcb = Next.after env <$> c.fcfsNext pcb i := by
  unfold fcfsStep fcfsNext
  simp only
  split_ifs
  · refine fetch_after env i (fun m => { c with machine := m }) (fun frame =>
      { c with
        machine := (c.machine.executeLine env pcb frame).2
        errCode := (c.machine.executeLine env pcb frame).1 }) ?_
    intro frame
    rcases hpolicy with hp | hp
    · simp only [Next.after, resume, hp]
      rfl
    · simp only [Next.after, resume, hp]
      rfl
  · rfl

theorem rrStep_eq_next {timeSlice : ℕ} (env : Env s L W) (i : ℕ) (hpolicy : c.policy = .rr timeSlice) :
    some <$> c.rrStep env timeSlice pcb i = Next.after env <$> c.rrNext timeSlice pcb i := by
  unfold rrStep rrNext
  simp only
  split_ifs
  · refine fetch_after env i (fun m => rrEndTurn { c with machine := m } pcb) (fun frame =>
      { c with
        machine := (c.machine.executeLine env pcb frame).2
        errCode := (c.machine.executeLine env pcb frame).1
        running := some (pcb, i + 1) }) ?_
    intro frame
    simp only [Next.after, resume, hpolicy]
    rfl
  · rfl

theorem agingStep_eq_next (env : Env s L W) (i : ℕ) (hpolicy : c.policy = .aging) :
    some <$> c.agingStep env pcb = Next.after env <$> c.agingNext pcb i := by
  have hline : ∀ m frame, some (agingLine { c with machine := m } env pcb frame) =
      Next.after env (.line { c with machine := m } pcb i frame) := by
    intro m frame
    simp only [Next.after, resume, hpolicy]
    rfl
  unfold agingStep agingNext
  simp only
  cases c.machine.readPage pcb ((c.machine.pcbs pcb).programCounter / s.frameSize) with
  | error e => rfl
  | ok x =>
    cases x with
    | none =>
      simp only [bind, Except.bind]
      cases c.machine.pageFault pcb ((c.machine.pcbs pcb).programCounter / s.frameSize) with
      | error e => rfl
      | ok res => exact congrArg Except.ok (hline res.2 res.1)
    | some frame => exact congrArg Except.ok (hline c.machine frame)

/-- A step is the way to the next line, and the rest of the iteration. -/
theorem step_eq_next (env : Env s L W) (c : Sched s L W) :
    c.step env = Next.after env <$> c.next := by
  unfold step next
  cases c.running with
  | none =>
    simp only
    cases hqueue : c.machine.queue with
    | nil =>
      simp only [Machine.popProcess, hqueue]
      rfl
    | cons pcb queue =>
      simp only [Machine.popProcess, hqueue]
      rfl
  | some r =>
    obtain ⟨pcb, i⟩ := r
    simp only
    cases hpolicy : c.policy with
    | fcfs => exact fcfsStep_eq_next env i (.inl hpolicy)
    | sjf => exact fcfsStep_eq_next env i (.inr hpolicy)
    | rr timeSlice => exact rrStep_eq_next env i hpolicy
    | aging => exact agingStep_eq_next env i hpolicy

end Sched

/-- The interpreter of the shell may change the whole machine. -/
abbrev Interpreter (s : Sizes) (W : Type) : Type :=
  List (List UInt8) → Machine s (List UInt8) W → Exec (ℤ × Machine s (List UInt8) W)

/-- What the uninitialised variables hold: `errCode` of the scheduler, and `errorCode` of each of
its calls of `parseInput`. -/
structure Garbage where
  errCode : ℤ
  errorCode : ℕ → ℤ

/-- A scheduler, with the codes of the commands and the lines of its calls of `parseInput`. -/
structure Loop (s : Sizes) (W : Type) extends Sched s (List UInt8) W where
  codes : List ℤ
  lines : List (List UInt8)

namespace Loop

variable (interpreter : Interpreter s W) (policy : Policy) (m : Machine s (List UInt8) W)
  (garbage : Garbage) (l : Loop s W)

def start : Loop s W where
  machine := match policy with
    | .fcfs | .rr _ => m
    | .sjf | .aging => m.sortReadyQueue
  policy := policy
  running := none
  errCode := garbage.errCode
  codes := []
  lines := []

/-- The scheduler goes on; `none` once the queue is empty and it returns. -/
def step : Exec (Option (Loop s W)) := do
  match ← l.toSched.next with
  | .ret => return none
  | .goto c => return some { l with toSched := c }
  | .line c pcb i frame =>
    match c.lineIn pcb frame with
    | none => .error .pointer
    | some value =>
      let (errCode, m, codes) ← parseInput (traced interpreter)
        (garbage.errorCode l.lines.length) value (c.machine.accessFrame frame, l.codes)
      return some { toSched := c.resume pcb i frame errCode m, codes, lines := l.lines ++ [value] }

def Reaches : Loop s W → Prop :=
  Relation.ReflTransGen (fun l l' => l.step interpreter garbage = .ok (some l'))
    (start policy m garbage)

def Returns (l : Loop s W) : Prop :=
  Reaches interpreter policy m garbage l ∧ l.step interpreter garbage = .ok none

/-- The last line handed to `parseInput` has a command. -/
def LastHasCommand : Prop := ∃ line, l.lines.getLast? = some line ∧ HasCommand line

/-- This is how `exec` starts a scheduler. -/
theorem start_toSched (env : Env s (List UInt8) W) (errorCode : ℕ → ℤ) :
    (start policy m ⟨env.garbageCode m, errorCode⟩).toSched = schedule env policy m := rfl

end Loop

/-- A scheduler returns the code of the last command interpreted during the call, or `0`, whatever
the uninitialised variables hold. -/
def CodeOfRun (interpreter : Interpreter s W) (policy : Policy) (m : Machine s (List UInt8) W) :
    Prop :=
  ∀ garbage l, Loop.Returns interpreter policy m garbage l →
    l.errCode = l.codes.getLastD 0 ∧
      ∀ garbage' l', Loop.Returns interpreter policy m garbage' l' → l'.errCode = l.errCode

def Sched.withCode (c : Sched s L W) (errCode : ℤ) : Sched s L W := { c with errCode := errCode }

def Next.withCode (errCode : ℤ) : Next s L W → Next s L W
  | ret => ret
  | goto c => goto (c.withCode errCode)
  | line c pcb i frame => line (c.withCode errCode) pcb i frame

section NextWithCode

variable (c : Sched s L W) (pcb i : ℕ) (errCode : ℤ)

theorem Sched.fetch_withCode (fault : Machine s L W → Sched s L W)
    {fault' : Machine s L W → Sched s L W}
    (hfault : ∀ m, fault' m = (fault m).withCode errCode) :
    (c.withCode errCode).fetch pcb i fault' = Next.withCode errCode <$> c.fetch pcb i fault := by
  obtain rfl : fault' = fun m => (fault m).withCode errCode := funext hfault
  obtain ⟨m, policy, running, _⟩ := c
  unfold fetch withCode
  dsimp only
  cases m.readPage pcb ((m.pcbs pcb).programCounter / s.frameSize) with
  | error e => rfl
  | ok x =>
    cases x with
    | none =>
      simp only [bind, Except.bind]
      cases m.pageFault pcb ((m.pcbs pcb).programCounter / s.frameSize) with
      | error e => rfl
      | ok res => rfl
    | some frame => rfl

theorem Sched.fcfsNext_withCode :
    (c.withCode errCode).fcfsNext pcb i = Next.withCode errCode <$> c.fcfsNext pcb i := by
  have hfetch := c.fetch_withCode pcb i errCode (fun m => { c with machine := m }) fun _ => rfl
  obtain ⟨m, policy, running, _⟩ := c
  unfold fcfsNext
  dsimp only [withCode] at hfetch ⊢
  split_ifs
  · exact hfetch
  · rfl

theorem Sched.rrEndTurn_withCode :
    (c.withCode errCode).rrEndTurn pcb = (c.rrEndTurn pcb).withCode errCode := by
  obtain ⟨m, policy, running, _⟩ := c
  unfold rrEndTurn withCode
  dsimp only
  split_ifs
  · rfl
  · rfl

theorem Sched.rrNext_withCode (timeSlice : ℕ) : (c.withCode errCode).rrNext timeSlice pcb i =
    Next.withCode errCode <$> c.rrNext timeSlice pcb i := by
  have hfetch := c.fetch_withCode pcb i errCode (fun m => rrEndTurn { c with machine := m } pcb)
    fun m => rrEndTurn_withCode { c with machine := m } pcb errCode
  unfold rrNext
  rw [rrEndTurn_withCode]
  obtain ⟨m, policy, running, _⟩ := c
  dsimp only [withCode] at hfetch ⊢
  split_ifs
  · exact hfetch
  · rfl

theorem Sched.agingNext_withCode :
    (c.withCode errCode).agingNext pcb i = Next.withCode errCode <$> c.agingNext pcb i := by
  obtain ⟨m, policy, running, _⟩ := c
  unfold agingNext withCode
  dsimp only
  cases m.readPage pcb ((m.pcbs pcb).programCounter / s.frameSize) with
  | error e => rfl
  | ok x =>
    cases x with
    | none =>
      simp only [bind, Except.bind]
      cases m.pageFault pcb ((m.pcbs pcb).programCounter / s.frameSize) with
      | error e => rfl
      | ok res => rfl
    | some frame => rfl

/-- The way to the next line does not look at the variable. -/
theorem Sched.next_withCode :
    (c.withCode errCode).next = Next.withCode errCode <$> c.next := by
  have hrun : (c.withCode errCode).running = c.running := rfl
  unfold next
  rw [hrun]
  cases c.running with
  | none =>
    cases hqueue : c.machine.queue with
    | nil =>
      simp only [withCode, Machine.popProcess, hqueue]
      rfl
    | cons pcb queue =>
      simp only [withCode, Machine.popProcess, hqueue]
      rfl
  | some r =>
    obtain ⟨pcb, i⟩ := r
    have hpol : (c.withCode errCode).policy = c.policy := rfl
    simp only [hpol]
    cases c.policy with
    | fcfs => exact fcfsNext_withCode c pcb i errCode
    | sjf => exact fcfsNext_withCode c pcb i errCode
    | rr timeSlice => exact rrNext_withCode c pcb i errCode timeSlice
    | aging => exact agingNext_withCode c pcb i errCode

end NextWithCode

/-- `errCode` is only assigned after a call of `parseInput`. -/
theorem Sched.next_errCode {c : Sched s L W} {x : Next s L W} (h : c.next = .ok x) :
    x.withCode c.errCode = x := by
  have hself := c.next_withCode c.errCode
  have hc : c.withCode c.errCode = c := rfl
  rw [hc, h] at hself
  exact (Except.ok.inj hself).symm

theorem Sched.agingEndTurn_withCode (c : Sched s L W) (pcb : ℕ) (errCode old new : ℤ)
    (m : Machine s L W) : (c.withCode errCode).agingEndTurn pcb new m =
      (c.agingEndTurn pcb old m).withCode new := by
  unfold agingEndTurn withCode
  dsimp only
  split_ifs
  · rfl
  · rfl

/-- The code of `parseInput` goes into the variable, and nowhere else. -/
theorem Sched.resume_withCode (c : Sched s L W) (pcb i : ℕ) (frame : Fin s.numFrames)
    (errCode old new : ℤ) (m : Machine s L W) : (c.withCode errCode).resume pcb i frame new m =
      (c.resume pcb i frame old m).withCode new := by
  obtain ⟨m', policy, running, _⟩ := c
  cases policy with
  | fcfs => rfl
  | sjf => rfl
  | rr timeSlice => rfl
  | aging => exact agingEndTurn_withCode _ pcb errCode old new _

namespace Loop

def withCode (l : Loop s W) (errCode : ℤ) : Loop s W := { l with errCode := errCode }

variable {interpreter : Interpreter s W} {policy : Policy} {m : Machine s (List UInt8) W}
  {garbage garbage' : Garbage} {l l' : Loop s W}

theorem step_goto {c : Sched s (List UInt8) W} (h : l.toSched.next = .ok (.goto c)) :
    l.step interpreter garbage = .ok (some { l with toSched := c }) := by
  rw [step, h]
  rfl

theorem step_line {c : Sched s (List UInt8) W} {pcb i : ℕ} {frame : Fin s.numFrames}
    {value : List UInt8} {errCode : ℤ} {codes : List ℤ}
    (h : l.toSched.next = .ok (.line c pcb i frame)) (hvalue : c.lineIn pcb frame = some value)
    (hparse : parseInput (traced interpreter) (garbage.errorCode l.lines.length) value
      (c.machine.accessFrame frame, l.codes) = .ok (errCode, m, codes)) :
    l.step interpreter garbage = .ok (some
      { toSched := c.resume pcb i frame errCode m, codes := codes, lines := l.lines ++ [value] }) := by
  rw [step, h]
  simp only [bind, Except.bind, hvalue, hparse]
  rfl

/-- No line is parsed and the variable stays, or it takes the code of the line that is parsed. -/
theorem step_cases (h : l.step interpreter garbage = .ok (some l')) :
    (l'.codes = l.codes ∧ l'.lines = l.lines ∧ l'.errCode = l.errCode ∧ ∀ errCode garbage',
      (l.withCode errCode).step interpreter garbage' = .ok (some (l'.withCode errCode))) ∨
    ∃ value new, l'.lines = l.lines ++ [value] ∧ l'.codes = l.codes ++ new ∧
      (new ≠ [] ↔ HasCommand value) ∧
      l'.errCode = new.getLastD (garbage.errorCode l.lines.length) ∧
      ∀ errCode garbage', (l.withCode errCode).step interpreter garbage' =
        .ok (some (l'.withCode (new.getLastD (garbage'.errorCode l.lines.length)))) := by
  rw [step] at h
  obtain ⟨x, hnext, h⟩ := Exec.bind_ok h
  have hother : ∀ errCode, (l.withCode errCode).toSched.next = .ok (x.withCode errCode) := by
    intro errCode
    have hw := l.toSched.next_withCode errCode
    rw [hnext] at hw
    exact hw
  have hself := Sched.next_errCode hnext
  cases x with
  | ret => cases h
  | goto c =>
    obtain rfl := Option.some.inj (Except.ok.inj h)
    refine .inl ⟨rfl, rfl, ?_, fun errCode garbage' => step_goto (hother errCode)⟩
    exact (congrArg Sched.errCode (Next.goto.inj hself)).symm
  | line c pcb i frame =>
    simp only at h
    cases hvalue : c.lineIn pcb frame with
    | none =>
      rw [hvalue] at h
      cases h
    | some value =>
      rw [hvalue] at h
      obtain ⟨⟨errCode, m, codes⟩, hparse, h⟩ := Exec.bind_ok h
      obtain rfl := Option.some.inj (Except.ok.inj h)
      -- The codes do not depend on what was in the variable, so neither does the new state.
      obtain ⟨new, hcodes, hnew, hall⟩ := parseInput_codes hparse
      obtain ⟨rfl, -⟩ := Exec.ok_unique hparse (hall _)
      refine .inr ⟨value, new, rfl, hcodes, hnew, ?_, ?_⟩
      · exact congrArg Sched.errCode (c.resume_withCode pcb i frame c.errCode 0 _ m)
      · intro errCode garbage'
        have hline : (c.withCode errCode).lineIn pcb frame = some value := hvalue
        rw [step_line (hother errCode) hline (hall (garbage'.errorCode l.lines.length)),
          c.resume_withCode pcb i frame errCode (new.getLastD (garbage.errorCode l.lines.length))]
        rfl

theorem step_none (h : l.step interpreter garbage = .ok none) (errCode : ℤ) (garbage' : Garbage) :
    (l.withCode errCode).step interpreter garbage' = .ok none := by
  rw [step] at h
  obtain ⟨x, hnext, h⟩ := Exec.bind_ok h
  cases x with
  | ret =>
    have hother := l.toSched.next_withCode errCode
    rw [hnext] at hother
    have hret : (l.withCode errCode).toSched.next = .ok .ret := hother
    rw [step, hret]
    rfl
  | goto c => cases h
  | line c pcb i frame =>
    simp only at h
    cases hvalue : c.lineIn pcb frame with
    | none =>
      rw [hvalue] at h
      cases h
    | some value =>
      rw [hvalue] at h
      obtain ⟨_, -, h⟩ := Exec.bind_ok h
      cases h

/-- How the code in the variable depends on what the variables held. -/
structure CodeFrom (l : Loop s W) (code : Garbage → ℤ) : Prop where
  determined : l.LastHasCommand → ∀ garbage, code garbage = l.codes.getLastD 0
  otherwise : ¬ l.LastHasCommand → ∀ z, code ⟨z, fun _ => z⟩ = z

theorem CodeFrom.quiet {code : Garbage → ℤ} (h : l.CodeFrom code) (hcodes : l'.codes = l.codes)
    (hlines : l'.lines = l.lines) : l'.CodeFrom code where
  determined hlast garbage := by
    rw [LastHasCommand, hlines] at hlast
    rw [hcodes]
    exact h.determined hlast garbage
  otherwise hno := by
    rw [LastHasCommand, hlines] at hno
    exact h.otherwise hno

theorem lastHasCommand_append {value : List UInt8} (hlines : l'.lines = l.lines ++ [value]) :
    l'.LastHasCommand ↔ HasCommand value := by
  rw [LastHasCommand, hlines, List.getLast?_concat]
  constructor
  · rintro ⟨line, hline, hhas⟩
    rwa [Option.some.inj hline]
  · exact fun hhas => ⟨value, rfl, hhas⟩

theorem codeFrom_line {value : List UInt8} {new : List ℤ} (hlines : l'.lines = l.lines ++ [value])
    (hcodes : l'.codes = l.codes ++ new) (hnew : new ≠ [] ↔ HasCommand value) (k : ℕ) :
    l'.CodeFrom fun garbage => new.getLastD (garbage.errorCode k) where
  determined hlast garbage := by
    have hne := hnew.mpr ((lastHasCommand_append hlines).mp hlast)
    rw [hcodes, getLastD_of_ne_nil hne _ 0, List.getLastD_eq_getLast?, List.getLastD_eq_getLast?,
      List.getLast?_append_of_ne_nil _ hne]
  otherwise hno z := by
    have hnil : new = [] := by
      by_contra hne
      exact hno ((lastHasCommand_append hlines).mpr (hnew.mp hne))
    rw [hnil]
    rfl

/-- With other garbage a run goes through the same states, up to the variable. -/
theorem Reaches.code (h : Reaches interpreter policy m garbage l) : ∃ code : Garbage → ℤ,
    l.CodeFrom code ∧ l.errCode = code garbage ∧
      ∀ garbage', Reaches interpreter policy m garbage' (l.withCode (code garbage')) := by
  induction h with
  | refl =>
    have hno : ¬ (start policy m garbage).LastHasCommand := by
      rintro ⟨line, hlast, -⟩
      cases hlast
    exact ⟨fun garbage => garbage.errCode, ⟨fun hlast => absurd hlast hno, fun _ _ => rfl⟩, rfl,
      fun garbage' => .refl⟩
  | @tail l₁ l₂ _ hstep ih =>
    obtain ⟨code, hfrom, hcode, hother⟩ := ih
    rcases step_cases hstep with ⟨hcodes, hlines, herr, hall⟩ |
      ⟨value, new, hlines, hcodes, hnew, herr, hall⟩
    · exact ⟨code, hfrom.quiet hcodes hlines, herr.trans hcode,
        fun garbage' => (hother garbage').tail (hall _ _)⟩
    · exact ⟨_, codeFrom_line hlines hcodes hnew l₁.lines.length, herr,
        fun garbage' => (hother garbage').tail (hall _ _)⟩

theorem Returns.unique (h : Returns interpreter policy m garbage l)
    (h' : Returns interpreter policy m garbage l') : l = l' := by
  have hunique : Relator.RightUnique fun l l' : Loop s W =>
      l.step interpreter garbage = .ok (some l') := by
    intro a b c hb hc
    exact Option.some.inj (Except.ok.inj (hb.symm.trans hc))
  -- no step leads on from a state that the call returns from
  have hstuck : ∀ {a b : Loop s W}, a.step interpreter garbage = .ok none →
      Relation.ReflTransGen (fun l l' => l.step interpreter garbage = .ok (some l')) a b →
        a = b := by
    intro a b hnone hrun
    rcases hrun.cases_head with heq | ⟨c, hstep, -⟩
    · exact heq
    · rw [hnone] at hstep
      cases hstep
  rcases h.1.total_of_right_unique hunique h'.1 with hrun | hrun
  · exact hstuck h.2 hrun
  · exact (hstuck h'.2 hrun).symm

end Loop

/-- What a scheduler returns is determined by the commands just when each of its runs ends with a
line that has one. -/
theorem codeOfRun_iff (interpreter : Interpreter s W) (policy : Policy)
    (m : Machine s (List UInt8) W) : CodeOfRun interpreter policy m ↔
      ∀ garbage l, Loop.Returns interpreter policy m garbage l → l.LastHasCommand := by
  constructor
  · intro h garbage l hret
    by_contra hno
    obtain ⟨code, hfrom, -, hother⟩ := hret.1.code
    -- the variables hold something else than the last code
    let z := l.codes.getLastD 0 + 1
    have hz := (h ⟨z, fun _ => z⟩ _ ⟨hother _, Loop.step_none hret.2 _ _⟩).1
    have hcode : code ⟨z, fun _ => z⟩ = l.codes.getLastD 0 := hz
    rw [hfrom.otherwise hno] at hcode
    omega
  · intro h garbage l hret
    obtain ⟨code, hfrom, hcode, hother⟩ := hret.1.code
    have hdet := hfrom.determined (h garbage l hret)
    refine ⟨hcode.trans (hdet garbage), fun garbage' l' hret' => ?_⟩
    have hsame : l.withCode (code garbage') = l' :=
      Loop.Returns.unique ⟨hother garbage', Loop.step_none hret.2 _ _⟩ hret'
    rw [← hsame, hcode, hdet garbage]
    exact hdet garbage'

def emptyProgram : Machine oneFrame (List UInt8) Unit :=
  ((memInit (fun _ => Machine.newPCB 0 "" []) ()).allocate 1 (Machine.newPCB 1 "a" [])).appendProcess 1

end PicoShell.Scheduling
