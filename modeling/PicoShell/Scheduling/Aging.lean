import PicoShell.Scheduling.Idle
import PicoShell.Scheduling.RoundRobin

namespace PicoShell.Scheduling

variable {s : Sizes} {L W : Type} {env : Env s L W} {ok : Sched s L W → Prop}
  {m m' m₁ : Machine s L W} {c c' : Sched s L W} {qs : List ℕ} {pcb q i n : ℕ}

/-- The invariant of the ageing scheduler on different programs with lines. -/
structure Ageing (qs : List ℕ) (c : Sched s L W) : Prop where
  policy : c.policy = .aging
  advancing : Advancing (Scope.all s) qs c
  exclusive : Exclusive c.machine
  nonempty : ∀ q ∈ qs, (c.machine.pcbs q).script ≠ []

namespace Ageing

theorem step (h : Ageing qs c) (hstep : c.step env = .ok (some c')) : Ageing qs c' := by
  obtain ⟨hexcl, hadv⟩ := h.exclusive.steps h.advancing (Steps.single hstep)
  refine ⟨(Sched.step_cases hstep).1.trans h.policy, hadv, hexcl, fun q hq => ?_⟩
  rw [(Sched.step_same hstep q).script]
  exact h.nonempty q hq

theorem next (h : Ageing qs c) (env : Env s L W) : ∃ o, c.step env = .ok o :=
  Sched.step_ok h.advancing.cons (h.exclusive.allReadable h.advancing.cons)
    (h.advancing.inFile fun q hq _ => h.nonempty q hq)

/-- While a process runs, a line of it is executed and its turn ends. -/
theorem debts_lt (h : Ageing qs c) (hrun : c.running = some (pcb, i))
    (hstep : c.step env = .ok (some c')) :
    c'.running = none ∧ c'.machine.debts qs < c.machine.debts qs := by
  have hpcb := h.advancing.progress.mem pcb (h.advancing.cons.of_running hrun).2
  have hmore := (h.advancing.inFile (fun q hq _ => h.nonempty q hq) pcb i hrun).resolve_right
    fun hend => hend.1 h.policy
  obtain ⟨-, ⟨p, queue, hidle, -⟩ | ⟨p, j, hrun', -, m₁, m₂, hfault, hexec, hend⟩⟩ :=
    Sched.step_cases hstep
  · rw [hrun] at hidle
    contradiction
  obtain ⟨rfl, rfl⟩ := Prod.mk.inj (Option.some.inj (hrun.symm.trans hrun'))
  rw [h.policy] at hexec hend
  have hidle : c'.running = none := by
    rcases hend with ⟨hne, -⟩ | ⟨hr, -⟩ | ⟨hr, -⟩
    · exact absurd rfl hne
    · exact hr
    · exact hr
  -- a page fault and the end of the iteration execute nothing
  have hdebt₁ : ∀ q, m₁.debt q = c.machine.debt q := by
    intro q
    obtain ⟨t, hq⟩ := hfault.same.2.2.2 q
    apply Machine.debt_congr
    · rw [hq]
      rfl
    · rw [hq]
      rfl
  have hdebt₂ : ∀ q, c'.machine.debt q = m₂.debt q := by
    intro q
    obtain ⟨score, hq⟩ := hend.same.2.2.2.2 q
    apply Machine.debt_congr
    · rw [hq]
      rfl
    · rw [hq]
      rfl
  have hmore₁ : (m₁.pcbs pcb).programCounter < (m₁.pcbs pcb).fileLength := by
    obtain ⟨t, hq⟩ := hfault.same.2.2.2 pcb
    rw [hq]
    exact hmore
  rcases hexec with ⟨hne, -⟩ | ⟨frame, rfl, -⟩
  · exact absurd rfl hne
  refine ⟨hidle, Machine.debts_lt (fun q _ => ?_) hpcb ?_⟩
  · rw [hdebt₂, ← hdebt₁]
    exact (m₁.debt_executeLine env pcb frame q).1
  · rw [hdebt₂, ← hdebt₁]
    exact (m₁.debt_executeLine env pcb frame pcb).2 hmore₁

theorem returns (h : Ageing qs c) (hidle : c.running = none) : c.Returns env := by
  induction hn : c.machine.debts qs using Nat.strong_induction_on generalizing c with
  | _ n ih =>
    cases hqueue : c.machine.queue with
    | nil => exact ⟨c, .refl, by simp only [Sched.step, hidle, Machine.popProcess, hqueue]⟩
    | cons pcb queue =>
      obtain ⟨c₁, hstep₁, hrun₁, hm₁⟩ := Sched.pop env hidle hqueue
      have h₁ := h.step hstep₁
      have hdebt₁ : c₁.machine.debts qs = c.machine.debts qs := by
        rw [hm₁]
        rfl
      obtain ⟨o, hstep₂⟩ := h₁.next env
      cases o with
      | none =>
        have := (Sched.step_none hstep₂).1
        rw [hrun₁] at this
        contradiction
      | some c₂ =>
        obtain ⟨hidle₂, hdebt₂⟩ := h₁.debts_lt hrun₁ hstep₂
        have hreturns := ih _ (by omega) (h₁.step hstep₂) hidle₂ rfl
        exact hreturns.of_steps ((Steps.single hstep₁).trans (Steps.single hstep₂))

end Ageing

theorem firstLines_prefix {L : Type} (script : List L) {k n : ℕ} (h : k ≤ n) :
    firstLines script k <+: firstLines script n := by
  obtain ⟨d, rfl⟩ := Nat.exists_eq_add_of_le h
  rw [firstLines, firstLines, List.range_add, List.map_append]
  exact List.prefix_append _ _

/-- The scheduler returns.  All along each process has executed the first lines of its own program
and nothing else, and when the scheduler returns it has executed them all. -/
def AgingCompletes (env : Env s L W) (m : Machine s L W) : Prop :=
  (schedule env .aging m).Returns env ∧
  ∀ c, Steps env (fun _ => True) (schedule env .aging m) c → ∀ q ∈ m.queue,
    executed (m.pcbs q).pid c.machine.history <+:
      firstLines (m.pcbs q).script (m.pcbs q).fileLength ∧
    (c.step env = .ok none → executed (m.pcbs q).pid c.machine.history =
      firstLines (m.pcbs q).script (m.pcbs q).fileLength)

/-- After any calls of `exec` that left different programs in the queue, the ageing scheduler
executes all of them, and nothing else, if and only if each has a line. -/
theorem aging_completes_iff (h : Session env ok (.idle m)) (hnames : m.DistinctNames) :
    AgingCompletes env m ↔ ∀ q ∈ m.queue, (m.pcbs q).fileLength ≠ 0 := by
  have hcons : Consistent [] m := h.consistent
  have hlen : ∀ q ∈ m.queue, (m.pcbs q).fileLength = (m.pcbs q).script.length :=
    fun q hq => hcons.length q (hcons.queue_mem hq)
  have hsame : ∀ c, Steps env (fun _ => True) (schedule env .aging m) c → ∀ q,
      (c.machine.pcbs q).Same (m.pcbs q) := by
    intro c hsteps q
    have := hsteps.same q
    rwa [schedule_pcbs] at this
  constructor
  · intro ⟨⟨last, hlast, hreturn⟩, _⟩ q hq hzero
    -- a process is only released after a line of its program
    obtain ⟨-, hadv⟩ := h.run hnames .aging hlast
    have hproper := (hadv.returned hreturn hq).1 hlast.policy_eq
    rw [(hsame last hlast q).script] at hproper
    exact hproper (List.length_eq_zero_iff.mp ((hlen q hq).symm.trans hzero))
  · intro hlines
    have hnonempty : ∀ q ∈ m.queue, (m.pcbs q).script ≠ [] := by
      intro q hq hnil
      apply hlines q hq
      rw [hlen q hq, hnil]
      rfl
    have hageing : ∀ c, Steps env (fun _ => True) (schedule env .aging m) c → Ageing m.queue c := by
      intro c hsteps
      obtain ⟨hexcl, hadv⟩ := h.run hnames .aging hsteps
      refine ⟨hsteps.policy_eq, hadv, hexcl, fun q hq => ?_⟩
      rw [(hsame c hsteps q).script]
      exact hnonempty q hq
    refine ⟨(hageing _ .refl).returns rfl, fun c hsteps q hq => ?_⟩
    have hadv := (hageing c hsteps).advancing
    have hq' := hsame c hsteps q
    constructor
    · obtain ⟨hexec, hle⟩ := hadv.progress.lines q hq fun _ => (hageing c hsteps).nonempty q hq
      rw [hq'.pid, hq'.script] at hexec
      rw [hq'.script] at hle
      rw [hexec, hlen q hq]
      exact firstLines_prefix _ hle
    · intro hreturn
      have hexec := (hadv.returned hreturn hq).2
      rw [hq'.pid, hq'.script] at hexec
      rw [hexec, hlen q hq]

/-- Two programs of two lines in one frame. -/
theorem aging_completes_pair : ∃ m₁, buildReadyQueue (Env.upward oneFrame ℕ fun _ => none) twoLines
      [some "a", some "b"] (booted oneFrame) = .ok (0, m₁) ∧ m₁.queue = [1, 2] ∧
    AgingCompletes (Env.upward oneFrame ℕ fun _ => none) m₁ := by
  have hcheck : ((buildReadyQueue (Env.upward oneFrame ℕ fun _ => none) twoLines
      [some "a", some "b"] (booted oneFrame)).toOption.any fun r => r.1 = 0 ∧ r.2.queue = [1, 2] ∧
        (r.2.queue.map fun q => (r.2.pcbs q).filename).Nodup ∧
        ∀ q ∈ r.2.queue, (r.2.pcbs q).fileLength ≠ 0) = true := by
    decide +kernel
  obtain ⟨⟨code, m₁⟩, hrun, rfl, hqueue, hnames, hlines⟩ := Exec.exists_of_any hcheck
  have hsession := (session_booted oneFrame _ fun _ => True).build hrun
  exact ⟨m₁, hrun, hqueue, (aging_completes_iff hsession hnames).mpr hlines⟩

/-- A program without lines: its first iteration executes what is at the start of the frame. -/
theorem aging_not_completes : ∃ m₁, buildReadyQueue (Env.upward oneFrame ℕ fun _ => none)
      (fun _ => some []) [some "a"] (booted oneFrame) = .ok (0, m₁) ∧
    ¬ AgingCompletes (Env.upward oneFrame ℕ fun _ => none) m₁ := by
  have hcheck : ((buildReadyQueue (Env.upward oneFrame ℕ fun _ => none) (fun _ => some [])
      [some "a"] (booted oneFrame)).toOption.any fun r => r.1 = 0 ∧ r.2.queue = [1] ∧
        (r.2.pcbs 1).pid = 1 ∧ (r.2.pcbs 1).fileLength = 0 ∧
        (runSteps (Env.upward oneFrame ℕ fun _ => none) 2
          (schedule (Env.upward oneFrame ℕ fun _ => none) .aging r.2)).any fun c =>
            executed 1 c.machine.history = [(0, none)]) = true := by
    decide +kernel
  obtain ⟨⟨code, m₁⟩, hr, rfl, hqueue, hpid, hzero, hrest⟩ := Exec.exists_of_any hcheck
  obtain ⟨c, hc, hexec⟩ := exists_of_any hrest
  refine ⟨m₁, hr, fun hall => ?_⟩
  have hprefix := (hall.2 c (.of_runSteps hc) 1 (by rw [hqueue]; exact List.mem_singleton_self 1)).1
  rw [hpid, hexec, hzero] at hprefix
  exact absurd hprefix.length_le (by simp [firstLines])

end PicoShell.Scheduling
