import PicoShell.Scheduling.Build

namespace PicoShell.Scheduling

variable {s : Sizes} {L W : Type} {env : Env s L W} {m m' : Machine s L W} {pcb : ℕ}
  {script name : String} {files : String → Option (List L)} {programs : List (Option String)}
  {policy : String} {code : ℤ}

def badcommandInvalidPolicy : ℤ := 10

/-- The error that `exec` returns without starting a scheduler, and the state then. -/
def execError (env : Env s L W) (files : String → Option (List L)) (programs : List (Option String))
    (policy : String) (m : Machine s L W) : Exec (Option ℤ × Machine s L W) := do
  let (errCode, m) ← buildReadyQueue env files programs m
  if errCode ≠ 0 then
    return (some errCode, m)
  else
    match policyOf policy with
    | none => return (some badcommandInvalidPolicy, m)
    | some _ => return (none, m)

/-- These are the calls that leave the shell without a scheduler. -/
theorem exec_idle_iff : exec env files programs policy m = .ok (.idle m') ↔
    ∃ code, execError env files programs policy m = .ok (some code, m') := by
  unfold exec execError
  cases buildReadyQueue env files programs m with
  | error e =>
    constructor
    · intro h
      contradiction
    · rintro ⟨code, h⟩
      contradiction
  | ok res =>
    simp only [bind, Except.bind, pure, Except.pure]
    split_ifs with hcode
    · simp
    · cases policyOf policy with
      | none => simp
      | some p => simp

theorem Machine.findDuplicateScript_ne_none :
    m.findDuplicateScript name ≠ none ↔ ∃ q ∈ m.queue, (m.pcbs q).filename = name := by
  unfold findDuplicateScript
  simp [List.find?_eq_none]

namespace Machine.Appends

theorem live (h : m.Appends script pcb m') (hlive : ∀ q ∈ m.queue, q ∈ m.allocated) :
    ∀ q ∈ m'.queue, q ∈ m'.allocated := by
  intro q hq
  rw [h.queue] at hq
  rw [h.allocated]
  rcases List.mem_append.mp hq with hq | hq
  · exact List.mem_cons_of_mem pcb (hlive q hq)
  · rw [List.mem_singleton.mp hq]
    exact List.mem_cons_self

theorem found_iff (h : m.Appends script pcb m') (hlive : ∀ q ∈ m.queue, q ∈ m.allocated)
    (hscript : m.Found files script) : m'.Found files name ↔ m.Found files name := by
  have hold : ∀ q ∈ m.queue, (m'.pcbs q).filename = (m.pcbs q).filename := by
    intro q hq
    rw [h.others q]
    rintro rfl
    exact h.fresh (hlive q hq)
  by_cases hfile : files name = none
  · unfold Found at hscript ⊢
    rw [findDuplicateScript_ne_none, findDuplicateScript_ne_none, h.queue]
    constructor
    · rintro (⟨q, hq, hname⟩ | hne)
      · rcases List.mem_append.mp hq with hq | hq
        · rw [hold q hq] at hname
          exact .inl ⟨q, hq, hname⟩
        · rw [List.mem_singleton.mp hq, h.name] at hname
          rw [findDuplicateScript_ne_none, hname] at hscript
          exact hscript
      · exact .inr hne
    · rintro (⟨q, hq, hname⟩ | hne)
      · exact .inl ⟨q, List.mem_append_left _ hq, (hold q hq).trans hname⟩
      · exact .inr hne
  · exact iff_of_true (.inr hfile) (.inr hfile)

end Machine.Appends

/-- Processes are added until a program is not found. -/
theorem buildReadyQueue_outcome (env : Env s L W) (files : String → Option (List L))
    (programs : List (Option String)) (hlive : ∀ q ∈ m.queue, q ∈ m.allocated) :
    ∃ code m', buildReadyQueue env files programs m = .ok (code, m') ∧ m.queue <+: m'.queue ∧
      ((code = 0 ∧ ∀ name ∈ programs.reduceOption, m.Found files name) ∨
        (code = badcommandFileDoesNotExist ∧ ∃ name ∈ programs.reduceOption, ¬ m.Found files name)) := by
  induction programs generalizing m with
  | nil => exact ⟨0, m, rfl, List.prefix_refl _, .inl ⟨rfl, fun _ hname => absurd hname (by simp)⟩⟩
  | cons program programs ih =>
    cases program with
    | none =>
      rw [List.reduceOption_cons_of_none]
      exact ih hlive
    | some script =>
      rw [List.reduceOption_cons_of_some]
      rcases buildReadyQueue_some env files script programs m with ⟨hmissing, heq⟩ |
        ⟨hscript, pcb, m₁, happ, heq⟩
      · exact ⟨_, m, heq, List.prefix_refl _, .inr ⟨rfl, script, List.mem_cons_self, hmissing⟩⟩
      · obtain ⟨code, m', hrun, hprefix, hcode⟩ := ih (happ.live hlive)
        have hfound : ∀ name, m₁.Found files name ↔ m.Found files name :=
          fun _ => happ.found_iff hlive hscript
        rw [happ.queue] at hprefix
        refine ⟨code, m', heq.trans hrun, (List.prefix_append _ _).trans hprefix, ?_⟩
        simp only [hfound] at hcode
        rcases hcode with ⟨h0, hall⟩ | ⟨h5, name, hname, hne⟩
        · exact .inl ⟨h0, List.forall_mem_cons.mpr ⟨hscript, hall⟩⟩
        · exact .inr ⟨h5, name, List.mem_cons_of_mem _ hname, hne⟩

/-- A call whose first program is not found changes nothing. -/
theorem buildReadyQueue_unchanged (hmissing : ∀ name ∈ programs.reduceOption.head?, ¬ m.Found files name)
    (hrun : buildReadyQueue env files programs m = .ok (code, m')) : m' = m := by
  induction programs with
  | nil => exact (Exec.ok_inj hrun).2.symm
  | cons program programs ih =>
    cases program with
    | none =>
      rw [List.reduceOption_cons_of_none] at hmissing
      exact ih hmissing hrun
    | some script =>
      rw [List.reduceOption_cons_of_some] at hmissing
      rcases buildReadyQueue_some env files script programs m with ⟨-, heq⟩ | ⟨hscript, -⟩
      · rw [heq] at hrun
        exact (Exec.ok_inj hrun).2.symm
      · exact absurd hscript (hmissing script rfl)

theorem buildReadyQueue_grows (hlive : ∀ q ∈ m.queue, q ∈ m.allocated)
    (hfirst : programs.reduceOption.head? = some name) (hname : m.Found files name)
    (hrun : buildReadyQueue env files programs m = .ok (code, m')) :
    m.queue.length < m'.queue.length := by
  induction programs with
  | nil => simp at hfirst
  | cons program programs ih =>
    cases program with
    | none =>
      rw [List.reduceOption_cons_of_none] at hfirst
      exact ih hfirst hrun
    | some script =>
      rw [List.reduceOption_cons_of_some] at hfirst
      obtain rfl : script = name := by simpa using hfirst
      rcases buildReadyQueue_some env files script programs m with ⟨hmissing, -⟩ |
        ⟨-, pcb, m₁, happ, heq⟩
      · exact absurd hname hmissing
      · obtain ⟨code', m₂, hrest, hprefix, -⟩ :=
          buildReadyQueue_outcome env files programs (happ.live hlive)
        rw [heq, hrest] at hrun
        obtain ⟨-, rfl⟩ := Exec.ok_inj hrun
        have hlen := hprefix.length_le
        rw [happ.queue, List.length_append, List.length_singleton] at hlen
        exact hlen

/-- The ready queue, with the number of its processes, and the frames are what they were. -/
def Machine.SameQueueAndFrames (m m' : Machine s L W) : Prop :=
  m'.queue = m.queue ∧ m'.queue.length = m.queue.length ∧ m'.memory = m.memory ∧
    m'.frameTable = m.frameTable

/-- The call is rejected, or a scheduler starts from the queue that was built. -/
theorem execError_cases (policy : String) (hrun : buildReadyQueue env files programs m = .ok (code, m')) :
    ((code ≠ 0 ∨ policyOf policy = none) ∧
      ∃ code', execError env files programs policy m = .ok (some code', m')) ∨
    (code = 0 ∧ policyOf policy ≠ none ∧ execError env files programs policy m = .ok (none, m')) := by
  unfold execError
  rw [hrun]
  simp only [bind, Except.bind, pure, Except.pure]
  split_ifs with hcode
  · exact .inl ⟨.inl hcode, code, rfl⟩
  · cases policyOf policy with
    | none => exact .inl ⟨.inr rfl, _, rfl⟩
    | some p => exact .inr ⟨not_not.mp hcode, Option.some_ne_none p, rfl⟩

/-- A rejected call leaves the ready queue and the frames alone just when its first program is not
found; the other programs, and the policy, are read too late. -/
theorem execError_unchanged_iff (env : Env s L W) (files : String → Option (List L))
    (programs : List (Option String)) (policy : String)
    (hlive : ∀ q ∈ m.queue, q ∈ m.allocated) :
    (∀ code m', execError env files programs policy m = .ok (some code, m') →
        m.SameQueueAndFrames m') ↔
      (∀ name ∈ programs.reduceOption.head?, ¬ m.Found files name) ∨
        ((∀ name ∈ programs.reduceOption, m.Found files name) ∧ policyOf policy ≠ none) := by
  obtain ⟨code, m₁, hrun, -, hcode⟩ := buildReadyQueue_outcome env files programs hlive
  have hcases := execError_cases policy hrun
  constructor
  · intro hsame
    rcases hcases with ⟨-, code', herr⟩ | ⟨h0, hpolicy, -⟩
    · left
      -- a process of the first program would stay behind
      intro name hname hfound
      have hlen := buildReadyQueue_grows hlive hname hfound hrun
      have := (hsame code' m₁ herr).2.1
      omega
    · rcases hcode with ⟨-, hall⟩ | ⟨h5, -⟩
      · exact .inr ⟨hall, hpolicy⟩
      · exact absurd (h0.symm.trans h5) (by decide)
  · rintro (hmissing | ⟨hall, hpolicy⟩) code' m' herr
    · have hm₁ := buildReadyQueue_unchanged hmissing hrun
      have hm' : m' = m₁ := by
        rcases hcases with ⟨-, _, heq⟩ | ⟨-, -, heq⟩
        · rw [heq] at herr
          exact (Exec.ok_inj herr).2.symm
        · rw [heq] at herr
          exact (Exec.ok_inj herr).2.symm
      rw [hm', hm₁]
      exact ⟨rfl, rfl, rfl, rfl⟩
    · rcases hcode with ⟨h0, -⟩ | ⟨-, name, hname, hne⟩
      · rcases hcases with ⟨hcode | hnone, -⟩ | ⟨-, -, heq⟩
        · exact absurd h0 hcode
        · exact absurd hnone hpolicy
        · rw [heq] at herr
          exact absurd (Exec.ok_inj herr).1 (by simp)
      · exact absurd (hall name hname) hne

/-- A machine that was just started rejects a program without a file and is as before. -/
theorem execError_unchanged_missing : ¬ (booted oneFrame).Found (fun _ => none) "a" ∧
    ∀ code m', execError (Env.upward oneFrame ℕ fun _ => none) (fun _ => none) [some "a"] "FCFS"
      (booted oneFrame) = .ok (some code, m') → (booted oneFrame).SameQueueAndFrames m' := by
  have hmissing : ¬ (booted oneFrame).Found (fun _ => none) "a" := by
    simp [Machine.Found, Machine.findDuplicateScript, booted, memInit]
  refine ⟨hmissing, (execError_unchanged_iff _ _ _ _ fun _ hq => absurd hq List.not_mem_nil).mpr ?_⟩
  left
  intro name hname
  obtain rfl : "a" = name := by simpa using hname
  exact hmissing

/-- An invalid policy is rejected when the process of the program is queued already, and the next
call executes a line of it. -/
theorem execError_leaves_process : ∃ (m₁ : Machine oneFrame ℕ Unit) (c : Sched oneFrame ℕ Unit),
    execError (Env.upward oneFrame ℕ fun _ => none) twoLines [some "a"] "X" (booted oneFrame) =
        .ok (some badcommandInvalidPolicy, m₁) ∧
      ¬ (booted oneFrame).SameQueueAndFrames m₁ ∧ m₁.queue = [1] ∧
      runExec (Env.upward oneFrame ℕ fun _ => none) twoLines [some "b"] "FCFS" m₁ 2 = some c ∧
      (c.machine.pcbs 1).filename = "a" ∧ (c.machine.pcbs 1).programCounter = 1 := by
  have hrun : ((execError (Env.upward oneFrame ℕ fun _ => none) twoLines [some "a"] "X"
      (booted oneFrame)).toOption.any fun r => r.1 = some badcommandInvalidPolicy ∧ r.2.queue = [1] ∧
        (runExec (Env.upward oneFrame ℕ fun _ => none) twoLines [some "b"] "FCFS" r.2 2).any fun c =>
          (c.machine.pcbs 1).filename = "a" ∧ (c.machine.pcbs 1).programCounter = 1) = true := by
    decide +kernel
  obtain ⟨⟨err, m₁⟩, herr, rfl, hqueue, hlater⟩ := Exec.exists_of_any hrun
  obtain ⟨c, hc, hname, hpc⟩ := exists_of_any hlater
  refine ⟨m₁, c, herr, ?_, hqueue, hc, hname, hpc⟩
  intro hsame
  exact absurd (hqueue.symm.trans hsame.1) (by decide)

end PicoShell.Scheduling
