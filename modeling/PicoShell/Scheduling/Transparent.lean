import PicoShell.Scheduling.Exclusive

namespace PicoShell.Scheduling

variable {s : Sizes} {L W : Type} {env : Env s L W} {m m' m₀ m₁ : Machine s L W}
  {c c' c₁ : Sched s L W} {r : List ℕ} {pcb page q n : ℕ} {frame : Fin s.numFrames} {policy : Policy}
  {files : String → Option (List L)} {programs : List (Option String)} {code : ℤ}

theorem Exclusive.steps (hexcl : Exclusive c.machine) {qs : List ℕ}
    (hadv : Advancing (Scope.all s) qs c) (hrun : Steps env (fun _ => True) c c') :
    Exclusive c'.machine ∧ Advancing (Scope.all s) qs c' := by
  induction hrun with
  | refl => exact ⟨hexcl, hadv⟩
  | step _ _ hstep ih =>
    obtain ⟨he, ha⟩ := ih
    exact ⟨he.step ha.mapped ha.cons hstep, ha.step (he.soundFault _ ha.cons) hstep⟩

theorem Steps.trans {ok : Sched s L W → Prop} (h : Steps env ok c c₁) (h' : Steps env ok c₁ c') :
    Steps env ok c c' := by
  induction h' with
  | refl => exact h
  | step _ hok hstep ih => exact .step ih hok hstep

theorem Steps.single (h : c.step env = .ok (some c')) : Steps env (fun _ => True) c c' :=
  .step .refl trivial h

theorem Steps.of_runSteps (h : runSteps env n c = some c') : Steps env (fun _ => True) c c' := by
  induction n generalizing c with
  | zero =>
    rw [← Option.some.inj h]
    exact .refl
  | succ n ih =>
    rw [runSteps] at h
    split at h
    · rename_i c₁ hstep
      exact (Steps.single hstep).trans (ih h)
    · contradiction

theorem Steps.head_cases {ok : Sched s L W → Prop} (h : Steps env ok c c') :
    c = c' ∨ ∃ c₁, c.step env = .ok (some c₁) ∧ Steps env ok c₁ c' := by
  induction h with
  | refl => exact .inl rfl
  | @step c₂ c₃ _ hok hstep ih =>
    rcases ih with rfl | ⟨c₁, hfirst, hrest⟩
    · exact .inr ⟨c₃, hstep, .refl⟩
    · exact .inr ⟨c₁, hfirst, .step hrest hok hstep⟩

/-- Every state of a run that returns is on the way to its end. -/
theorem Steps.to_end {ok : Sched s L W → Prop} (h : Steps env ok c c₁) (hend : Steps env ok c c')
    (hreturn : c'.step env = .ok none) : Steps env ok c₁ c' := by
  induction h with
  | refl => exact hend
  | step _ _ hstep ih =>
    rcases ih.head_cases with rfl | ⟨c₂, hfirst, hrest⟩
    · rw [hreturn] at hstep
      cases hstep
    · rw [hfirst] at hstep
      obtain rfl := Option.some.inj (Except.ok.inj hstep)
      exact hrest

def Sched.Returns (env : Env s L W) (c : Sched s L W) : Prop :=
  ∃ c', Steps env (fun _ => True) c c' ∧ c'.step env = .ok none

theorem Sched.Returns.of_steps (h : c'.Returns env) (hrun : Steps env (fun _ => True) c c') :
    c.Returns env := by
  obtain ⟨last, hlast, hreturn⟩ := h
  exact ⟨last, hrun.trans hlast, hreturn⟩

theorem Exclusive.of_consistent (h : Consistent [] m) (hempty : m.queue = [])
    (hnames : programs.reduceOption.Nodup)
    (hrun : buildReadyQueue env files programs m = .ok (code, m₁)) : Exclusive m₁ := by
  have hnil := h.allocated_nil hempty
  have hmap : m.Mapped (Scope.all s) := fun q hq => absurd hq (by simp [hnil])
  have hexcl : Exclusive m := ⟨fun q hq => absurd hq (by simp [hnil]),
    fun q hq => absurd hq (by simp [hnil])⟩
  exact hexcl.build hmap (.start h hempty) hnames (by simp [hempty]) hrun

theorem Session.exclusive {ok : Sched s L W → Prop} (h : Session env ok (.idle m))
    (hempty : m.queue = []) (hnames : programs.reduceOption.Nodup)
    (hrun : buildReadyQueue env files programs m = .ok (code, m₁)) : Exclusive m₁ :=
  have hcons : Consistent [] m := h.consistent
  .of_consistent hcons hempty hnames hrun

theorem Exclusive.schedule (h : Exclusive m) (policy : Policy) :
    Exclusive (schedule env policy m).machine := by
  obtain ⟨queue, -, hsort⟩ := m.sortReadyQueue_eq
  have hsorted : Exclusive m.sortReadyQueue := by
    rw [hsort]
    exact ⟨h.entry, h.contents⟩
  cases policy with
  | fcfs => exact h
  | sjf => exact hsorted
  | rr _ => exact h
  | aging => exact hsorted

/-- What holds in every run on different programs, whatever the policy. -/
theorem Built.run (h : Built files programs m₀ m) (hexcl : Exclusive m)
    (hrun : Steps env (fun _ => True) (schedule env policy m) c) :
    Exclusive c.machine ∧ Advancing (Scope.all s) m.queue c :=
  (hexcl.schedule policy).steps (h.start policy _) hrun

/-- After any calls of `exec` that left the queue empty, programs with different names are built
and scheduled, under every policy and without a failing step, such that each process executes
the lines of its own file in order, all of them by the time it is released. -/
theorem paging_transparent {ok : Sched s L W → Prop} (h : Session env ok (.idle m))
    (hempty : m.queue = []) (hnames : programs.reduceOption.Nodup)
    (hfiles : ∀ script ∈ programs.reduceOption, ∃ contents, files script = some contents ∧
      contents ≠ [] ∧ contents.length ≤ maxLines) (policy : Policy) :
    ∃ m₁, buildReadyQueue env files programs m = .ok (0, m₁) ∧
      (m₁.queue.map fun q => (m₁.pcbs q).filename) = programs.reduceOption ∧
      ∀ c, Steps env (fun _ => True) (schedule env policy m₁) c →
        (∃ next, c.step env = .ok next) ∧
        ∀ q ∈ m₁.queue, ∃ contents, files (m₁.pcbs q).filename = some contents ∧
          executed (m₁.pcbs q).pid c.machine.history =
            firstLines contents (c.machine.pcbs q).programCounter ∧
          (c.machine.pcbs q).programCounter ≤ contents.length ∧
          (¬ Shell.Live (.active c) q →
            (c.machine.pcbs q).programCounter = contents.length) := by
  have hshort : ∀ script ∈ programs.reduceOption, ∃ contents, files script = some contents ∧
      contents.length ≤ maxLines := by
    intro script hscript
    obtain ⟨contents, hcontents, -, hlen⟩ := hfiles script hscript
    exact ⟨contents, hcontents, hlen⟩
  have hrun : ∃ m₁, buildReadyQueue env files programs m = .ok (0, m₁) :=
    buildReadyQueue_of_contents hfiles
  obtain ⟨m₁, hrun⟩ := hrun
  have hbuilt := h.built hempty hrun
  refine ⟨m₁, hrun, hbuilt.names, fun c hsteps => ?_⟩
  obtain ⟨hexcl, hadv⟩ := hbuilt.run (h.exclusive hempty hnames hrun) hsteps
  have hnonempty : ∀ q ∈ m₁.queue, (c.machine.pcbs q).script ≠ [] := by
    intro q hq
    have hname : (m₁.pcbs q).filename ∈ programs.reduceOption :=
      hbuilt.names ▸ List.mem_map_of_mem hq
    obtain ⟨contents, hcontents, hne, -⟩ := hfiles _ hname
    have hscript := (hbuilt.whole_file hq hshort hsteps).1
    rwa [← Option.some.inj (hcontents.symm.trans hscript)]
  constructor
  · exact Sched.step_ok hadv.cons (hexcl.allReadable hadv.cons)
      (hadv.inFile fun q hq _ => hnonempty q hq)
  · intro q hq
    obtain ⟨hscript, hpid⟩ := hbuilt.whole_file hq hshort hsteps
    obtain ⟨hlines, hle⟩ := hadv.progress.lines q hq fun _ => hnonempty q hq
    rw [hpid] at hlines
    refine ⟨_, hscript, hlines, hle, fun hgone => ?_⟩
    apply (hadv.progress.done q hq _).2
    -- a released process is neither queued nor running
    intro halloc
    rcases List.mem_append.mp (hadv.cons.perm.mem_iff.mp halloc) with hrunning | hqueued
    · apply hgone
      cases hr : c.running with
      | none => simp [Consistent.outside, hr] at hrunning
      | some r =>
        have hqr : q = r.1 := by simpa [Consistent.outside, hr] using hrunning
        exact .inr ⟨r.2, by rw [hr, hqr]⟩
    · exact hgone (.inl hqueued)

/-- Two programs in one frame. -/
theorem paging_transparent_pair : ∃ m₁, buildReadyQueue (Env.upward oneFrame ℕ fun _ => none)
      twoLines [some "a", none, some "b"] (booted oneFrame) = .ok (0, m₁) ∧
    (m₁.queue.map fun q => (m₁.pcbs q).filename) = ["a", "b"] ∧
    ∀ c, Steps (Env.upward oneFrame ℕ fun _ => none) (fun _ => True)
        (schedule (Env.upward oneFrame ℕ fun _ => none) (.rr 2) m₁) c →
      ∃ next, c.step (Env.upward oneFrame ℕ fun _ => none) = .ok next := by
  have hsession := session_booted oneFrame (Env.upward oneFrame ℕ fun _ => none) fun _ => True
  have hfiles : ∀ script ∈ [some "a", none, some "b"].reduceOption, ∃ contents,
      twoLines script = some contents ∧ contents ≠ [] ∧ contents.length ≤ maxLines := by
    intro script _
    exact ⟨[1, 2], rfl, by simp, by simp⟩
  obtain ⟨m₁, hrun, hnames, hsteps⟩ :=
    paging_transparent hsession rfl (by decide) hfiles (.rr 2)
  exact ⟨m₁, hrun, hnames, fun c hc => (hsteps c hc).1⟩

end PicoShell.Scheduling
