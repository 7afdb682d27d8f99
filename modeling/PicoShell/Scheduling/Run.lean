import PicoShell.Scheduling.Rejected

/-! `run.c` fills the first of the three programs that `exec` goes through and leaves the others
uninitialised; the interpreter sets the whole array for the command `exec`. -/

namespace PicoShell.Scheduling

variable {s : Sizes} {L W : Type} {env : Env s L W} {files : String → Option (List L)}
  {m m' : Machine s L W} {script policy : String} {programs : List (Option String)}

/-- A `char *` in a program array; a wild one leads to no string. -/
inductive Pointer
  | null
  | string (script : String)
  | wild
  deriving DecidableEq

def Pointer.ofOption : Option String → Pointer
  | none => null
  | some script => string script

/-- `build_ready_queue` on the pointers of the array. -/
def loadPrograms (env : Env s L W) (files : String → Option (List L)) :
    List Pointer → Machine s L W → Exec (ℤ × Machine s L W)
  | [], m => .ok (0, m)
  | .null :: programs, m => loadPrograms env files programs m
  | .wild :: _, _ => .error .pointer
  | .string script :: programs, m => do
    let (errCode, m) ← buildReadyQueue env files [some script] m
    if errCode ≠ 0 then return (errCode, m) else loadPrograms env files programs m

/-- What `exec` comes to first: it returns with a code, or a scheduler starts. -/
inductive Launch (s : Sizes) (L W : Type)
  | returned (code : ℤ) (m : Machine s L W)
  | started (c : Sched s L W)

/-- `exec` on an array of pointers, up to the first iteration of the scheduler. -/
def launch (env : Env s L W) (files : String → Option (List L)) (programs : List Pointer)
    (policy : String) (m : Machine s L W) : Exec (Launch s L W) := do
  let (errCode, m) ← loadPrograms env files programs m
  if errCode ≠ 0 then
    return .returned errCode m
  else
    match policyOf policy with
    | none => return .returned badcommandInvalidPolicy m
    | some policy => return .started (schedule env policy m)

/-- `run`; the last two pointers of its array are uninitialised. -/
def run (env : Env s L W) (files : String → Option (List L)) (script : String) (p₁ p₂ : Pointer)
    (m : Machine s L W) : Exec (Launch s L W) :=
  launch env files [.string script, p₁, p₂] "FCFS" m

/-- The array that the interpreter sets up for the programs of `exec`. -/
def execPrograms (args : List String) : List Pointer :=
  args.map .string ++ List.replicate (maxNumPrograms - args.length) .null

theorem buildReadyQueue_append (env : Env s L W) (files : String → Option (List L)) (script : String)
    (programs : List (Option String)) (m : Machine s L W) :
    buildReadyQueue env files (some script :: programs) m = (do
      let (errCode, m) ← buildReadyQueue env files [some script] m
      if errCode ≠ 0 then return (errCode, m) else buildReadyQueue env files programs m) := by
  simp only [buildReadyQueue]
  cases m.findDuplicateScript script with
  | some dup => rfl
  | none =>
    cases files script with
    | none => rfl
    | some contents =>
      cases hinit : m.pcbInit env script (contents.take maxLines) with
      | error e =>
        simp only [hinit]
        rfl
      | ok res =>
        simp only [hinit]
        rfl

/-- Without wild pointers the array is the list of its programs. -/
theorem loadPrograms_ofOption (env : Env s L W) (files : String → Option (List L))
    (programs : List (Option String)) (m : Machine s L W) :
    loadPrograms env files (programs.map .ofOption) m = buildReadyQueue env files programs m := by
  induction programs generalizing m with
  | nil => rfl
  | cons program programs ih =>
    cases program with
    | none => exact ih m
    | some script =>
      rw [buildReadyQueue_append, List.map_cons]
      simp only [Pointer.ofOption, loadPrograms]
      congr 1
      funext res
      rw [ih]

def Launch.shell : Launch s L W → Shell s L W
  | returned _ m => .idle m
  | started c => .active c

theorem launch_ofOption (env : Env s L W) (files : String → Option (List L))
    (programs : List (Option String)) (policy : String) (m : Machine s L W) :
    Launch.shell <$> launch env files (programs.map .ofOption) policy m =
      exec env files programs policy m := by
  unfold launch exec
  rw [loadPrograms_ofOption]
  cases buildReadyQueue env files programs m with
  | error e => rfl
  | ok res =>
    simp only [bind, Except.bind, pure, Except.pure]
    split_ifs
    · rfl
    · cases policyOf policy with
      | none => rfl
      | some p => rfl

theorem execPrograms_ofOption (args : List String) : execPrograms args =
    (args.map some ++ List.replicate (maxNumPrograms - args.length) none).map .ofOption := by
  rw [execPrograms, List.map_append, List.map_map, List.map_replicate]
  rfl

/-- Null pointers add nothing; others add a process, end the call with an error, or stop it. -/
theorem loadPrograms_cases (env : Env s L W) (files : String → Option (List L))
    (programs : List Pointer) (m : Machine s L W) :
    ((∀ p ∈ programs, p = .null) ∧ loadPrograms env files programs m = .ok (0, m)) ∨
    (∃ e, loadPrograms env files programs m = .error e) ∨
    ∃ code m', loadPrograms env files programs m = .ok (code, m') ∧ m.queue <+: m'.queue ∧
      (code = badcommandFileDoesNotExist ∨ code = 0 ∧ m.queue.length < m'.queue.length) := by
  induction programs generalizing m with
  | nil => exact .inl ⟨fun p hp => absurd hp List.not_mem_nil, rfl⟩
  | cons program programs ih =>
    cases program with
    | null =>
      rcases ih m with ⟨hnull, hrun⟩ | hrest
      · exact .inl ⟨List.forall_mem_cons.mpr ⟨rfl, hnull⟩, hrun⟩
      · exact .inr hrest
    | wild => exact .inr (.inl ⟨_, rfl⟩)
    | string script =>
      right
      rw [loadPrograms]
      rcases buildReadyQueue_some env files script [] m with ⟨-, hbuild⟩ | ⟨-, pcb, m₁, happ, hbuild⟩
      · right
        rw [hbuild]
        exact ⟨_, m, rfl, List.prefix_refl _, .inl rfl⟩
      · have hone : buildReadyQueue env files [some script] m = .ok (0, m₁) := hbuild
        have hprefix : m.queue <+: m₁.queue := by
          rw [happ.queue]
          exact List.prefix_append _ _
        have hlen : m.queue.length < m₁.queue.length := by
          rw [happ.queue]
          simp
        rw [hone]
        simp only [bind, Except.bind, ne_eq, not_true_eq_false, ↓reduceIte]
        rcases ih m₁ with ⟨-, hrun⟩ | herror | ⟨code, m', hrun, hmore, hcode⟩
        · exact .inr ⟨0, m₁, hrun, hprefix, .inr ⟨rfl, hlen⟩⟩
        · exact .inl herror
        · refine .inr ⟨code, m', hrun, hprefix.trans hmore, ?_⟩
          rcases hcode with h5 | ⟨h0, hlen'⟩
          · exact .inl h5
          · exact .inr ⟨h0, hlen.trans hlen'⟩

namespace Launch

def processes : Launch s L W → List (PCB s L)
  | returned _ m => m.queue.map m.pcbs
  | started c => c.machine.queue.map c.machine.pcbs

def Reaches (env : Env s L W) (x : Exec (Launch s L W)) (c : Sched s L W) : Prop :=
  ∃ c₀, x = .ok (.started c₀) ∧ Steps env (fun _ => True) c₀ c

def Returns (env : Env s L W) (x : Exec (Launch s L W)) (code : ℤ) (m : Machine s L W) : Prop :=
  x = .ok (.returned code m) ∨
    ∃ c, Reaches env x c ∧ c.step env = .ok none ∧ code = c.errCode ∧ m = c.machine

end Launch

/-- Two calls of `exec` enqueue and execute the same processes and return the same code. -/
structure SameExecution (env : Env s L W) (x y : Exec (Launch s L W)) : Prop where
  enqueues : Launch.processes <$> x = Launch.processes <$> y
  reaches : ∀ c, Launch.Reaches env x c ↔ Launch.Reaches env y c
  returns : ∀ code m, Launch.Returns env x code m ↔ Launch.Returns env y code m

theorem SameExecution.refl (env : Env s L W) (x : Exec (Launch s L W)) : SameExecution env x x :=
  ⟨rfl, fun _ => Iff.rfl, fun _ _ => Iff.rfl⟩

/-- A scheduler does not return while there are processes, so an error is told from any run. -/
theorem not_returns_of_started {c₀ : Sched s L W} {code : ℤ} (hne : m.queue ≠ []) :
    ¬ Launch.Returns env (.ok (.started c₀)) code m := by
  rintro (hret | ⟨c, -, hstep, -, rfl⟩)
  · cases hret
  · exact hne (Sched.step_none hstep).2

/-- `exec` of a program that is found, with nothing but null pointers behind it. -/
theorem launch_found (env : Env s L W) (hfound : m.Found files script) : ∃ pcb m₁,
    m.Appends script pcb m₁ ∧ ∀ programs, launch env files (.string script :: programs) "FCFS" m =
      launch env files programs "FCFS" m₁ := by
  rcases buildReadyQueue_some env files script [] m with ⟨hno, -⟩ | ⟨-, pcb, m₁, happ, hbuild⟩
  · exact absurd hfound hno
  · have hone : buildReadyQueue env files [some script] m = .ok (0, m₁) := hbuild
    refine ⟨pcb, m₁, happ, fun programs => ?_⟩
    rw [launch, launch, loadPrograms, hone]
    rfl

/-- Anything else than null pointers behind a program that is found makes a difference. -/
theorem run_differs {p₁ p₂ : Pointer} (hfound : m.Found files script)
    (hp : ¬ (p₁ = .null ∧ p₂ = .null)) :
    ¬ SameExecution env (run env files script p₁ p₂ m)
      (launch env files (execPrograms [script]) "FCFS" m) := by
  intro hsame
  obtain ⟨pcb, m₁, happ, hlaunch⟩ := launch_found env hfound
  have hexec : launch env files (execPrograms [script]) "FCFS" m =
      .ok (.started (schedule env .fcfs m₁)) := hlaunch [.null, .null]
  rw [run, hlaunch, hexec] at hsame
  have hne : ∀ q : List ℕ, m₁.queue <+: q → q ≠ [] := by
    rintro q hprefix rfl
    have := hprefix.length_le
    rw [happ.queue] at this
    simp at this
  rcases loadPrograms_cases env files [p₁, p₂] m₁ with ⟨hnull, -⟩ | ⟨e, herror⟩ |
    ⟨code, m', hrun, hprefix, hcode⟩
  · exact hp ⟨hnull p₁ (by simp), hnull p₂ (by simp)⟩
  · have henq := hsame.enqueues
    rw [launch, herror] at henq
    cases henq
  · rcases hcode with rfl | ⟨rfl, hlen⟩
    · have hret : launch env files [p₁, p₂] "FCFS" m₁ =
          .ok (.returned badcommandFileDoesNotExist m') := by
        rw [launch, hrun]
        rfl
      exact not_returns_of_started (hne m'.queue hprefix) ((hsame.returns _ m').mp (.inl hret))
    · have hstart : launch env files [p₁, p₂] "FCFS" m₁ =
          .ok (.started (schedule env .fcfs m')) := by
        rw [launch, hrun]
        rfl
      have henq := hsame.enqueues
      rw [hstart] at henq
      have hqueues : m'.queue.map m'.pcbs = m₁.queue.map m₁.pcbs := Except.ok.inj henq
      have := congrArg List.length hqueues
      rw [List.length_map, List.length_map] at this
      omega

/-- `run` is `exec` with the one program just when the memory of its array happens to hold null
pointers, or when the program is not found. -/
theorem run_sameExecution_iff (env : Env s L W) (files : String → Option (List L)) (script : String)
    (p₁ p₂ : Pointer) (m : Machine s L W) :
    SameExecution env (run env files script p₁ p₂ m)
        (launch env files (execPrograms [script]) "FCFS" m) ↔
      (p₁ = .null ∧ p₂ = .null) ∨ ¬ m.Found files script := by
  constructor
  · intro hsame
    by_contra! hno
    exact run_differs hno.2 (fun hnull => hno.1 hnull.1 hnull.2) hsame
  · rintro (⟨rfl, rfl⟩ | hmissing)
    · exact .refl env _
    · -- the loop returns before it gets to the other pointers
      have hrun : ∀ programs, launch env files (.string script :: programs) "FCFS" m =
          .ok (.returned badcommandFileDoesNotExist m) := by
        intro programs
        rcases buildReadyQueue_some env files script [] m with ⟨-, hbuild⟩ | ⟨hfound, -⟩
        · rw [launch, loadPrograms, hbuild]
          rfl
        · exact absurd hfound hmissing
      have hexec : launch env files (execPrograms [script]) "FCFS" m = _ := hrun [.null, .null]
      rw [run, hrun, hexec]
      exact .refl env _

def oneFile (name : String) : Option (List ℕ) := if name = "a" then some [1] else none

/-- With the name of a missing file behind it, `run` of a program that exists returns an error and
leaves the process in the queue. -/
theorem run_stale_pointer : ∃ m₁ : Machine oneFrame ℕ Unit,
    run (Env.upward oneFrame ℕ fun _ => none) oneFile "a" (.string "b") .null (booted oneFrame) =
        .ok (.returned badcommandFileDoesNotExist m₁) ∧
      m₁.queue = [1] ∧
      ¬ SameExecution (Env.upward oneFrame ℕ fun _ => none)
        (run (Env.upward oneFrame ℕ fun _ => none) oneFile "a" (.string "b") .null (booted oneFrame))
        (launch (Env.upward oneFrame ℕ fun _ => none) oneFile (execPrograms ["a"]) "FCFS"
          (booted oneFrame)) := by
  have hload : ((loadPrograms (Env.upward oneFrame ℕ fun _ => none) oneFile
      [.string "a", .string "b", .null] (booted oneFrame)).toOption.any fun r =>
        r.1 = badcommandFileDoesNotExist ∧ r.2.queue = [1]) = true := by
    decide +kernel
  obtain ⟨⟨code, m₁⟩, hload, rfl, hqueue⟩ := Exec.exists_of_any hload
  refine ⟨m₁, ?_, hqueue, run_differs (.inr ?_) ?_⟩
  · rw [run, launch, hload]
    rfl
  · exact Option.some_ne_none [1]
  · intro hnull
    exact absurd hnull.1 (by decide)

end PicoShell.Scheduling
