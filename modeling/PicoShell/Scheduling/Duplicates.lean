import PicoShell.Scheduling.Idle

namespace PicoShell.Scheduling

variable {s : Sizes} {L W : Type} {env : Env s L W} {m : Machine s L W}
  {c c' : Sched s L W}
  {files : String → Option (List L)} {programs : List (Option String)}

/-- Every occurrence of a program gives a process that executes the lines of the file in order,
all of them by the time the scheduler returns, as long as no process of its name is left in the
queue with other lines, and no page fault loads anything but lines of the program, or takes a
frame from a process that still needs it there. -/
theorem duplicates_run {ok : Sched s L W → Prop} (h : Session env ok (.idle m))
    (hleft : ∀ q ∈ m.queue, (m.pcbs q).filename ∈ programs.reduceOption →
      (m.pcbs q).FromFile files)
    (hfiles : ∀ script ∈ programs.reduceOption, ∃ contents, files script = some contents ∧
      contents.length ≤ maxLines) (policy : Policy) :
    ∃ m₁ new, buildReadyQueue env files programs m = .ok (0, m₁) ∧ m₁.queue = m.queue ++ new ∧
      (new.map fun q => (m₁.pcbs q).filename) = programs.reduceOption ∧
      ∀ c, Steps env (Sched.SoundFault (Scope.ahead s)) (schedule env policy m₁) c →
        ∀ q ∈ new, ∃ contents, files (m₁.pcbs q).filename = some contents ∧
          ((policy = .aging → contents ≠ []) →
            executed (m₁.pcbs q).pid c.machine.history =
              firstLines contents (c.machine.pcbs q).programCounter ∧
            (c.machine.pcbs q).programCounter ≤ contents.length) ∧
          (c.step env = .ok none →
            executed (m₁.pcbs q).pid c.machine.history =
              firstLines contents contents.length) := by
  have hrun : ∃ m₁, buildReadyQueue env files programs m = .ok (0, m₁) :=
    buildReadyQueue_of_contents hfiles
  obtain ⟨m₁, hrun⟩ := hrun
  have hcons : Consistent [] m := h.consistent
  obtain ⟨m₀, hun, -⟩ := h.untouched
  obtain ⟨new, hnew, hnames, -⟩ := hun.names hrun
  have hfile := hun.fromFile (· ∈ programs.reduceOption)
    (fun q hq => hleft q (hcons.perm.mem_iff.mp hq)) hrun
  refine ⟨m₁, new, hrun, hnew, hnames, fun c hsteps q hq => ?_⟩
  have hadv := ((h.build hrun).starts policy (Scope.ahead s)).steps hsteps
  have hpolicy : c.policy = policy := hsteps.policy_eq
  have hq₁ : q ∈ m₁.queue := hnew ▸ List.mem_append_right _ hq
  have hname : (m₁.pcbs q).filename ∈ programs.reduceOption := hnames ▸ List.mem_map_of_mem hq
  obtain ⟨hscript, hpid⟩ := hsteps.wholeFile
    (hfile q ((hun.build hrun).cons.queue_mem hq₁) hname) (hfiles _ hname)
  refine ⟨_, hscript, ?_, ?_⟩
  · intro hproper
    rw [← hpid]
    exact hadv.progress.lines q hq₁ (hpolicy ▸ hproper)
  · intro hreturn
    have hlines := (hadv.returned hreturn hq₁).2
    rwa [hpid] at hlines

def soundSteps [DecidableEq L] (env : Env s L W) (scope : Scope s)
    [∀ pc page, Decidable (scope.need pc page)] : ℕ → Sched s L W → Option (Sched s L W)
  | 0, c => some c
  | n + 1, c =>
    match c.step env with
    | .ok (some c') => if c.ChecksFault scope then soundSteps env scope n c' else none
    | _ => none

theorem Steps.soundSteps [DecidableEq L] {scope : Scope s}
    [∀ pc page, Decidable (scope.need pc page)] {n : ℕ}
    (hcons : Consistent (Consistent.outside c.running) c.machine)
    (hrun : soundSteps env scope n c = some c') : Steps env (Sched.SoundFault scope) c c' := by
  induction n generalizing c with
  | zero =>
    obtain rfl := Option.some.inj hrun
    exact .refl
  | succ n ih =>
    rw [Scheduling.soundSteps] at hrun
    split at hrun
    · rename_i c₁ hstep
      split_ifs at hrun with hcheck
      exact (Steps.step .refl (hcheck.soundFault hcons) hstep).trans (ih (hcons.step hstep) hrun)
    · contradiction

def fourFrames : Sizes := ⟨1, 4, Nat.one_pos, by decide⟩

def filesAB (script : String) : Option (List ℕ) :=
  if script = "a" then some [1, 2] else if script = "b" then some [3, 4, 5] else none

/-- A rejected call has left `a` in the queue; two more processes for `a` share its frames, and
`b` evicts its own first page to load the third one. -/
theorem duplicates_run_leftover : ∃ (m m₁ : Machine fourFrames ℕ Unit) (c : Sched fourFrames ℕ Unit),
    buildReadyQueue (Env.upward fourFrames ℕ fun _ => none) filesAB [some "a", some "c"]
      (booted fourFrames) = .ok (badcommandFileDoesNotExist, m) ∧ m.queue = [1] ∧
    buildReadyQueue (Env.upward fourFrames ℕ fun _ => none) filesAB [some "b", some "a", some "a"]
      m = .ok (0, m₁) ∧
    Steps (Env.upward fourFrames ℕ fun _ => none) (Sched.SoundFault (Scope.ahead fourFrames))
      (schedule (Env.upward fourFrames ℕ fun _ => none) (.rr 2) m₁) c ∧
    c.machine.frameTable 2 = some (2, 2) ∧
    ∀ q ∈ [2, 3, 4], ∃ contents, filesAB (m₁.pcbs q).filename = some contents ∧
      executed q c.machine.history = firstLines contents contents.length := by
  have hrun : ((buildReadyQueue (Env.upward fourFrames ℕ fun _ => none) filesAB
      [some "a", some "c"] (booted fourFrames)).toOption.any fun left =>
        left.1 = badcommandFileDoesNotExist ∧ left.2.queue = [1] ∧
          (left.2.pcbs 1).filename = "a" ∧ (left.2.pcbs 1).script = [1, 2] ∧
          (buildReadyQueue (Env.upward fourFrames ℕ fun _ => none) filesAB
            [some "b", some "a", some "a"] left.2).toOption.any fun built =>
              built.2.queue = [1, 2, 3, 4] ∧ (∀ q ∈ [2, 3, 4], (built.2.pcbs q).pid = q) ∧
              (soundSteps (Env.upward fourFrames ℕ fun _ => none) (Scope.ahead fourFrames) 21
                (schedule (Env.upward fourFrames ℕ fun _ => none) (.rr 2) built.2)).any fun c =>
                  c.running = none ∧ c.machine.queue = [] ∧
                    c.machine.frameTable 2 = some (2, 2)) = true := by
    decide +kernel
  obtain ⟨⟨code, m⟩, hleft, rfl, hqueue, hname, hscript, hbuild⟩ := Exec.exists_of_any hrun
  obtain ⟨⟨code, m₁⟩, hbuilt, hqueue₁, hpids, hsteps⟩ := Exec.exists_of_any hbuild
  obtain ⟨c, hc, hidle, hempty, htable⟩ := exists_of_any hsteps
  have hsession := (session_booted fourFrames (Env.upward fourFrames ℕ fun _ => none)
    fun _ => True).build hleft
  -- the process that was left runs the present lines of `a`
  have hlines : ∀ q ∈ m.queue, (m.pcbs q).filename ∈ [some "b", some "a", some "a"].reduceOption →
      (m.pcbs q).FromFile filesAB := by
    intro q hq _
    rw [hqueue, List.mem_singleton] at hq
    exact ⟨[1, 2], by rw [hq, hname]; rfl, by rw [hq, hscript]; rfl⟩
  have hfiles : ∀ script ∈ [some "b", some "a", some "a"].reduceOption, ∃ contents,
      filesAB script = some contents ∧ contents.length ≤ maxLines := by
    intro script hmem
    have hcases : script = "b" ∨ script = "a" := by simpa using hmem
    rcases hcases with rfl | rfl
    · exact ⟨[3, 4, 5], rfl, by simp⟩
    · exact ⟨[1, 2], rfl, by simp⟩
  obtain ⟨m₂, new, hbuilt₂, hnew, -, hall⟩ := duplicates_run hsession hlines hfiles (.rr 2)
  obtain ⟨rfl, rfl⟩ := Exec.ok_unique hbuilt hbuilt₂
  have hnew : new = [2, 3, 4] := by
    rw [hqueue₁, hqueue] at hnew
    exact (List.cons.inj hnew).2.symm
  have hstarts := (hsession.build hbuilt).starts (.rr 2) (Scope.ahead fourFrames)
  have hrun := Steps.soundSteps hstarts.cons hc
  refine ⟨m, m₁, c, hleft, hqueue, hbuilt, hrun, htable, fun q hq => ?_⟩
  have hreturn : c.step (Env.upward fourFrames ℕ fun _ => none) = .ok none := by
    simp only [Sched.step, hidle, Machine.popProcess, hempty]
  obtain ⟨contents, hcontents, -, hend⟩ := hall c hrun q (hnew ▸ hq)
  have hlast := hend hreturn
  rw [hpids q hq] at hlast
  exact ⟨contents, hcontents, hlast⟩

/-- The sizes of `memory.h`. -/
def defaultSizes : Sizes := ⟨3, 300, by decide, by decide⟩

/-- A file of seven lines, one more than the two pages that are loaded at the start. -/
def sevenLines (_ : String) : Option (List ℕ) := some [1, 2, 3, 4, 5, 6, 7]

/-- The third page of the duplicate is loaded from uninitialised memory. -/
theorem duplicates_not_run : ∃ c : Sched defaultSizes ℕ Unit,
    runExec (Env.upward defaultSizes ℕ fun _ => some 9) sevenLines [some "a", some "a"] "FCFS"
      (booted defaultSizes) 20 = some c ∧
    c.step (Env.upward defaultSizes ℕ fun _ => some 9) = .ok none ∧
    executed 1 c.machine.history = firstLines [1, 2, 3, 4, 5, 6, 7] 7 ∧
    executed 2 c.machine.history ≠ firstLines [1, 2, 3, 4, 5, 6, 7] 7 := by
  have hrun : ((runExec (Env.upward defaultSizes ℕ fun _ => some 9) sevenLines
      [some "a", some "a"] "FCFS" (booted defaultSizes) 20).any fun c =>
        c.running = none ∧ c.machine.queue = [] ∧
          executed 1 c.machine.history = firstLines [1, 2, 3, 4, 5, 6, 7] 7 ∧
          executed 2 c.machine.history ≠ firstLines [1, 2, 3, 4, 5, 6, 7] 7) = true := by
    decide +kernel
  obtain ⟨c, hc, hrunning, hqueue, hfirst, hsecond⟩ := exists_of_any hrun
  refine ⟨c, hc, ?_, hfirst, hsecond⟩
  simp only [Sched.step, hrunning, Machine.popProcess, hqueue]

end PicoShell.Scheduling
