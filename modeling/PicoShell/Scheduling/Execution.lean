import PicoShell.Scheduling.Build

namespace PicoShell.Scheduling

variable {s : Sizes} {L W : Type} {env : Env s L W} {m m' : Machine s L W} {c c' : Sched s L W}
  {r qs : List ℕ} {pcb page q pid n : ℕ} {frame : Fin s.numFrames} {policy : Policy}
  {scope : Scope s}

/-- The strings handed to `parseInput` for a process, with its program counter at the time. -/
def executed (pid : ℕ) (history : List (Event L)) : List (ℕ × Option L) :=
  history.filterMap fun
    | .turn _ => none
    | .line p pc value => if p = pid then some (pc, value) else none

def firstLines (script : List L) (n : ℕ) : List (ℕ × Option L) :=
  (List.range n).map fun k => (k, script[k]?)

variable {history : List (Event L)}

theorem executed_turn (p : ℕ) : executed pid (history ++ [.turn p]) = executed pid history := by
  simp [executed]

theorem executed_self (pc : ℕ) (value : Option L) :
    executed pid (history ++ [.line pid pc value]) = executed pid history ++ [(pc, value)] := by
  simp [executed]

theorem executed_other {p : ℕ} (hp : p ≠ pid) (pc : ℕ) (value : Option L) :
    executed pid (history ++ [.line p pc value]) = executed pid history := by
  simp [executed, hp]

theorem executed_new (h : ∀ e ∈ history, e.pid ≠ pid) : executed pid history = [] := by
  apply List.filterMap_eq_nil_iff.mpr
  intro e he
  cases e with
  | turn p => rfl
  | line p pc value => exact if_neg (h _ he)

theorem firstLines_succ (script : List L) (n : ℕ) :
    firstLines script (n + 1) = firstLines script n ++ [(n, script[n]?)] := by
  simp [firstLines, List.range_succ]

/-- The ageing scheduler does not stop at the end of a program without lines. -/
def PCB.Proper (policy : Policy) (x : PCB s L) : Prop := policy = .aging → x.script ≠ []

/-- The processes of `qs`, with their released ones, between two steps or inside of one. -/
structure Progress (policy : Policy) (qs : List ℕ) (m : Machine s L W) : Prop where
  mem : ∀ q ∈ m.allocated, q ∈ qs
  pids : ∀ q ∈ qs, ∀ q' ∈ qs, (m.pcbs q).pid = (m.pcbs q').pid → q = q'
  length : ∀ q ∈ qs, (m.pcbs q).fileLength = (m.pcbs q).script.length
  lines : ∀ q ∈ qs, (m.pcbs q).Proper policy →
    executed (m.pcbs q).pid m.history = firstLines (m.pcbs q).script (m.pcbs q).programCounter ∧
      (m.pcbs q).programCounter ≤ (m.pcbs q).script.length
  done : ∀ q ∈ qs, q ∉ m.allocated →
    (m.pcbs q).Proper policy ∧ (m.pcbs q).programCounter = (m.pcbs q).script.length

/-- Between two iterations of the ageing scheduler every process has a line left. -/
def Waiting (policy : Policy) (m : Machine s L W) : Prop :=
  policy = .aging → ∀ q ∈ m.allocated, (m.pcbs q).script ≠ [] →
    (m.pcbs q).programCounter < (m.pcbs q).script.length

theorem Machine.Mapped.line (h : m.Mapped scope) (hpcb : pcb ∈ m.allocated)
    (hpage : (m.pcbs pcb).pageTable (m.currentPage pcb) = some frame)
    (hlt : (m.pcbs pcb).programCounter < (m.pcbs pcb).script.length) :
    m.memory (frame * s.frameSize + (m.pcbs pcb).programCounter % s.frameSize) =
      (m.pcbs pcb).script[(m.pcbs pcb).programCounter]? := by
  have hdiv : m.currentPage pcb * s.frameSize + (m.pcbs pcb).programCounter % s.frameSize =
      (m.pcbs pcb).programCounter := Nat.div_add_mod' _ _
  have hline := h pcb hpcb _ frame hpage (scope.current _) _ (Nat.mod_lt _ s.frameSize_pos)
    (by rwa [hdiv])
  rwa [hdiv] at hline

namespace Progress

theorem of_same (h : Progress policy qs m) (m' : Machine s L W) (halloc : m'.allocated = m.allocated)
    (hhist : ∀ pid, executed pid m'.history = executed pid m.history)
    (hsame : ∀ q, (m'.pcbs q).pid = (m.pcbs q).pid ∧ (m'.pcbs q).script = (m.pcbs q).script ∧
      (m'.pcbs q).fileLength = (m.pcbs q).fileLength ∧
      (m'.pcbs q).programCounter = (m.pcbs q).programCounter) : Progress policy qs m' where
  mem q hq := h.mem q (halloc ▸ hq)
  pids q hq q' hq' := by
    rw [(hsame q).1, (hsame q').1]
    exact h.pids q hq q' hq'
  length q hq := by
    rw [(hsame q).2.2.1, (hsame q).2.1]
    exact h.length q hq
  lines q hq := by
    unfold PCB.Proper
    rw [hhist, (hsame q).1, (hsame q).2.1, (hsame q).2.2.2]
    exact h.lines q hq
  done q hq hout := by
    unfold PCB.Proper
    rw [(hsame q).2.1, (hsame q).2.2.2]
    exact h.done q hq (halloc ▸ hout)

theorem faults (h : Progress policy qs c.machine) (hfault : c.Faults pcb m') :
    Progress policy qs m' := by
  obtain ⟨halloc, -, hhist, hsame⟩ := hfault.same
  apply h.of_same m' halloc (fun pid => by rw [hhist])
  intro q
  obtain ⟨t, hq⟩ := hsame q
  rw [hq]
  exact ⟨rfl, rfl, rfl, rfl⟩

/-- The line that is executed is the next one of the program. -/
theorem executes (h : Progress policy qs m) (hmap : m.Mapped scope) (hpcb : pcb ∈ m.allocated)
    (hwait : Waiting policy m) (hexec : m.Executes env policy pcb m') : Progress policy qs m' := by
  rcases hexec with ⟨-, rfl⟩ | ⟨frame, rfl, hmore, hpage⟩
  · exact h
  have hsame := m.executeLine_same env pcb frame
  have hself : ((m.executeLine env pcb frame).2.pcbs pcb).programCounter =
      (m.pcbs pcb).programCounter + 1 := by
    rw [Machine.executeLine_pcbs, if_pos rfl]
    rfl
  have hother : ∀ q, q ≠ pcb → (m.executeLine env pcb frame).2.pcbs q = m.pcbs q := by
    intro q hq
    rw [Machine.executeLine_pcbs, if_neg hq]
  have hqs := h.mem pcb hpcb
  refine ⟨h.mem, ?_, ?_, ?_, ?_⟩
  · intro q hq q' hq'
    rw [(hsame q).1, (hsame q').1]
    exact h.pids q hq q' hq'
  · intro q hq
    rw [(hsame q).2.2.1, (hsame q).2.1]
    exact h.length q hq
  · intro q hq hproper
    rw [Machine.executeLine_history]
    by_cases hqp : q = pcb
    · subst hqp
      unfold PCB.Proper at hproper
      rw [(hsame q).2.1] at hproper ⊢
      rw [(hsame q).1, hself]
      obtain ⟨hlines, hle⟩ := h.lines q hq hproper
      have hlen := h.length q hq
      have hlt : (m.pcbs q).programCounter < (m.pcbs q).script.length := by
        rcases hmore with hp | hne
        · exact hwait hp q hpcb (hproper hp)
        · omega
      -- so the page is mapped and its frame holds the line
      rcases hpage with hpage | ⟨-, hout⟩
      · have hline := hmap.line hpcb hpage hlt
        rw [executed_self, hlines, hline, firstLines_succ]
        exact ⟨rfl, hlt⟩
      · have := Nat.div_mul_le_self (m.pcbs q).programCounter s.frameSize
        unfold Machine.currentPage at hout
        omega
    · have hpid : (m.pcbs pcb).pid ≠ (m.pcbs q).pid := fun hp => hqp (h.pids pcb hqs q hq hp).symm
      rw [hother q hqp] at hproper ⊢
      rw [executed_other hpid]
      exact h.lines q hq hproper
  · intro q hq hout
    have hqp : q ≠ pcb := by
      rintro rfl
      exact hout hpcb
    rw [hother q hqp]
    exact h.done q hq hout

/-- In the ageing scheduler a line was executed before the end of the iteration. -/
theorem ends {running : Option (ℕ × ℕ)} (h : Progress policy qs m) (hpcb : pcb ∈ m.allocated)
    (hnodup : m.allocated.Nodup) (hpos : policy = .aging → 0 < (m.pcbs pcb).programCounter)
    (hend : m.Ends policy pcb running m') : Progress policy qs m' := by
  rcases hend with ⟨-, -, rfl⟩ | ⟨-, hpc, hage, rfl⟩ | ⟨-, -, rfl | rfl⟩
  · exact h
  · refine ⟨fun q hq => h.mem q (List.mem_of_mem_erase hq), h.pids, h.length, h.lines, ?_⟩
    intro q hq hout
    by_cases hqp : q = pcb
    · subst hqp
      have hlen := h.length q hq
      have hproper : (m.pcbs q).Proper policy := by
        intro hp hnil
        have hpos := hpos hp
        have hage := hage hp
        rw [hnil] at hlen
        simp only [List.length_nil] at hlen
        omega
      have := (h.lines q hq hproper).2
      exact ⟨hproper, by show (m.pcbs q).programCounter = (m.pcbs q).script.length; omega⟩
    · exact h.done q hq fun hq' => hout (hnodup.mem_erase_iff.mpr ⟨hqp, hq'⟩)
  · exact h.of_same _ rfl (fun _ => rfl) fun q => ⟨rfl, rfl, rfl, rfl⟩
  · obtain ⟨queue, score, -, heq⟩ := m.requeue_eq pcb
    rw [heq]
    exact h.of_same _ rfl (fun _ => rfl) fun q => ⟨rfl, rfl, rfl, rfl⟩

end Progress

structure PCB.Same (x y : PCB s L) : Prop where
  pid : x.pid = y.pid
  filename : x.filename = y.filename
  script : x.script = y.script

theorem PCB.Same.trans {x y z : PCB s L} (h : x.Same y) (h' : y.Same z) : x.Same z :=
  ⟨h.pid.trans h'.pid, h.filename.trans h'.filename, h.script.trans h'.script⟩

theorem Sched.step_same (hstep : c.step env = .ok (some c')) (q : ℕ) :
    (c'.machine.pcbs q).Same (c.machine.pcbs q) := by
  obtain ⟨-, ⟨pcb, queue, -, -, -, hm⟩ | ⟨pcb, i, -, -, m₁, m₂, hfault, hexec, hend⟩⟩ :=
    Sched.step_cases hstep
  · rw [hm]
    exact ⟨rfl, rfl, rfl⟩
  have h₁ : (m₁.pcbs q).Same (c.machine.pcbs q) := by
    obtain ⟨t, hq⟩ := hfault.same.2.2.2 q
    rw [hq]
    exact ⟨rfl, rfl, rfl⟩
  have h₂ : (m₂.pcbs q).Same (m₁.pcbs q) := by
    rcases hexec with ⟨-, rfl⟩ | ⟨frame, rfl, -⟩
    · exact ⟨rfl, rfl, rfl⟩
    · rw [Machine.executeLine_pcbs]
      split_ifs with hq
      · rw [hq]
        exact ⟨rfl, rfl, rfl⟩
      · exact ⟨rfl, rfl, rfl⟩
  have h₃ : (c'.machine.pcbs q).Same (m₂.pcbs q) := by
    obtain ⟨score, hq⟩ := hend.same.2.2.2.2 q
    rw [hq]
    exact ⟨rfl, rfl, rfl⟩
  exact h₃.trans (h₂.trans h₁)

theorem Steps.same {ok : Sched s L W → Prop} (h : Steps env ok c c') (q : ℕ) :
    (c'.machine.pcbs q).Same (c.machine.pcbs q) := by
  induction h with
  | refl => exact ⟨rfl, rfl, rfl⟩
  | step _ _ hstep ih => exact (Sched.step_same hstep q).trans ih

theorem Steps.policy_eq {ok : Sched s L W → Prop} (h : Steps env ok c c') : c'.policy = c.policy := by
  induction h with
  | refl => rfl
  | step _ _ hstep ih => exact (Sched.step_cases hstep).1.trans ih

theorem schedule_pcbs (env : Env s L W) (policy : Policy) (m : Machine s L W) :
    (schedule env policy m).machine.pcbs = m.pcbs := by
  obtain ⟨queue, -, hsort⟩ := m.sortReadyQueue_eq
  have hpcbs : m.sortReadyQueue.pcbs = m.pcbs := by rw [hsort]
  cases policy with
  | fcfs => rfl
  | sjf => exact hpcbs
  | rr _ => rfl
  | aging => exact hpcbs

/-- The invariant of the steps of one scheduler. -/
structure Advancing (scope : Scope s) (qs : List ℕ) (c : Sched s L W) : Prop where
  cons : Consistent (Consistent.outside c.running) c.machine
  mapped : c.machine.Mapped scope
  progress : Progress c.policy qs c.machine
  waiting : Waiting c.policy c.machine

namespace Advancing

theorem step (h : Advancing scope qs c) (hsound : c.SoundFault scope)
    (hstep : c.step env = .ok (some c')) : Advancing scope qs c' := by
  have hcons' := h.cons.step hstep
  have hmap' := h.mapped.step h.cons hsound hstep
  obtain ⟨hpolicy, ⟨pcb, queue, -, -, -, hm⟩ | ⟨pcb, i, hrun, -, m₁, m₂, hfault, hexec, hend⟩⟩ :=
    Sched.step_cases hstep
  · refine ⟨hcons', hmap', ?_, ?_⟩
    · rw [hpolicy, hm]
      exact h.progress.of_same _ rfl (fun _ => executed_turn _) fun _ => ⟨rfl, rfl, rfl, rfl⟩
    · rw [hpolicy, hm]
      exact h.waiting
  obtain ⟨hcons, hpcb⟩ := h.cons.of_running hrun
  obtain ⟨halloc₁, -, -, hsame₁⟩ := hfault.same
  have hpcb₁ : pcb ∈ m₁.allocated := by rwa [halloc₁]
  have hwait₁ : Waiting c.policy m₁ := by
    intro hp q hq
    obtain ⟨t, hsame⟩ := hsame₁ q
    rw [hsame]
    exact h.waiting hp q (halloc₁ ▸ hq)
  have hprog₁ := h.progress.faults hfault
  have hprog₂ := hprog₁.executes (h.mapped.faults hcons hsound hfault) hpcb₁ hwait₁ hexec
  -- what the line leaves alone
  have hexec₂ : m₂.allocated = m₁.allocated ∧ (∀ q, q ≠ pcb → m₂.pcbs q = m₁.pcbs q) ∧
      (c.policy = .aging → 0 < (m₂.pcbs pcb).programCounter) := by
    rcases hexec with ⟨hne, rfl⟩ | ⟨frame, rfl, -⟩
    · exact ⟨rfl, fun _ _ => rfl, fun hp => absurd hp hne⟩
    · refine ⟨rfl, fun q hq => ?_, fun _ => ?_⟩
      · rw [Machine.executeLine_pcbs, if_neg hq]
      · rw [Machine.executeLine_pcbs, if_pos rfl]
        exact Nat.succ_pos _
  obtain ⟨halloc₂, hother₂, hpos₂⟩ := hexec₂
  have hpcb₂ : pcb ∈ m₂.allocated := by rwa [halloc₂]
  have hnodup₂ : m₂.allocated.Nodup := by
    rw [halloc₂, halloc₁]
    exact h.cons.nodup
  refine ⟨hcons', hmap', ?_, ?_⟩
  · rw [hpolicy]
    exact hprog₂.ends hpcb₂ hnodup₂ hpos₂ hend
  · rw [hpolicy]
    intro hp q hq hscript
    have hq₂ := hend.same.2.2.2.1 q hq
    obtain ⟨score, hpcbs⟩ := hend.same.2.2.2.2 q
    rw [hpcbs] at hscript ⊢
    rw [PCB.withScore_script] at hscript ⊢
    rw [PCB.withScore_programCounter]
    by_cases hqp : q = pcb
    · -- the process that ran was put back, so it is not at its end
      subst hqp
      have hqs := hprog₂.mem q hq₂
      have hle := (hprog₂.lines q hqs fun _ => hscript).2
      have hlen := hprog₂.length q hqs
      rcases hend with ⟨hne, -⟩ | ⟨-, -, -, hm⟩ | ⟨-, hne, -⟩
      · exact absurd hp hne
      · rw [hm] at hq
        exact absurd hq hnodup₂.not_mem_erase
      · omega
    · rw [hother₂ q hqp] at hscript ⊢
      exact hwait₁ hp q (halloc₂ ▸ hq₂) hscript

theorem steps (h : Advancing scope qs c) (hrun : Steps env (Sched.SoundFault scope) c c') :
    Advancing scope qs c' := by
  induction hrun with
  | refl => exact h
  | step _ hsound hstep ih => exact ih.step hsound hstep

/-- When the scheduler returns, every process has been released. -/
theorem returned (h : Advancing scope qs c) (hreturn : c.step env = .ok none) (hq : q ∈ qs) :
    (c.machine.pcbs q).Proper c.policy ∧ executed (c.machine.pcbs q).pid c.machine.history =
      firstLines (c.machine.pcbs q).script (c.machine.pcbs q).script.length := by
  obtain ⟨hidle, hqueue⟩ := Sched.step_none hreturn
  have hnil := (h.cons.of_idle hidle).allocated_nil hqueue
  obtain ⟨hproper, hend⟩ := h.progress.done q hq (by simp [hnil])
  have hlines := (h.progress.lines q hq hproper).1
  exact ⟨hproper, hend ▸ hlines⟩

theorem start {m₀ : Machine s L W} (h : Untouched m₀ m) (hevents : ∀ e ∈ m₀.history, e.pid < m₀.nextPid)
    (hmap : m.Mapped scope) (policy : Policy) :
    Advancing scope m.queue (schedule env policy m) := by
  have hsched : ∃ queue, (schedule env policy m).machine = { m with queue := queue } := by
    cases policy with
    | fcfs => exact ⟨m.queue, rfl⟩
    | sjf => exact ⟨_, m.sortReadyQueue_eq.choose_spec.2⟩
    | rr _ => exact ⟨m.queue, rfl⟩
    | aging => exact ⟨_, m.sortReadyQueue_eq.choose_spec.2⟩
  have hcons : Consistent [] (schedule env policy m).machine := h.cons.schedule policy
  have halloc : ∀ q, q ∈ m.allocated ↔ q ∈ m.queue := fun q => h.cons.perm.mem_iff
  obtain ⟨queue, hsched⟩ := hsched
  refine ⟨hcons, ?_, ?_, ?_⟩
  · rw [hsched]
    exact hmap
  · rw [hsched]
    refine ⟨fun q hq => (halloc q).mp hq, fun q hq q' hq' => ?_, fun q hq => ?_, fun q hq _ => ?_,
      fun q hq hout => absurd ((halloc q).mpr hq) hout⟩
    · exact h.cons.pids q ((halloc q).mpr hq) q' ((halloc q').mpr hq')
    · exact h.cons.length q ((halloc q).mpr hq)
    · obtain ⟨hpid, hpc⟩ := h.started q ((halloc q).mpr hq)
      show executed (m.pcbs q).pid m.history = firstLines (m.pcbs q).script
        (m.pcbs q).programCounter ∧ (m.pcbs q).programCounter ≤ _
      rw [hpc, h.history]
      refine ⟨executed_new fun e he => ?_, Nat.zero_le _⟩
      have := hevents e he
      omega
  · rw [hsched]
    intro _ q hq hscript
    have hpc := (h.started q hq).2
    show (m.pcbs q).programCounter < (m.pcbs q).script.length
    rw [hpc]
    exact List.length_pos_iff.mpr hscript

end Advancing

structure Built (files : String → Option (List L)) (programs : List (Option String))
    (m₀ m : Machine s L W) : Prop where
  untouched : Untouched m₀ m
  mapped : m.Mapped (Scope.all s)
  fromFile : ∀ q ∈ m.queue, (m.pcbs q).FromFile files
  names : (m.queue.map fun q => (m.pcbs q).filename) = programs.reduceOption
  events : ∀ e ∈ m₀.history, e.pid < m₀.nextPid

variable {files : String → Option (List L)} {programs : List (Option String)}
  {m₀ m₁ : Machine s L W} {ok : Sched s L W → Prop}

theorem Built.of_consistent (h : Consistent [] m) (hempty : m.queue = [])
    (hrun : buildReadyQueue env files programs m = .ok (0, m₁)) : Built files programs m m₁ := by
  have hstart := Untouched.start h hempty
  have hnil := h.allocated_nil hempty
  have hmap : m.Mapped (Scope.all s) := fun q hq => absurd hq (by simp [hnil])
  have hfile : ∀ q ∈ m.allocated, True → (m.pcbs q).FromFile files := by simp [hnil]
  have hun := hstart.build hrun
  obtain ⟨new, hnew, hnames, -⟩ := hstart.names hrun
  rw [hempty, List.nil_append] at hnew
  subst hnew
  exact ⟨hun, hstart.mapped hmap hrun,
    fun q hq => hstart.fromFile (fun _ => True) hfile hrun q (hun.cons.queue_mem hq) trivial, hnames, h.events⟩

theorem Session.built (h : Session env ok (.idle m)) (hempty : m.queue = [])
    (hrun : buildReadyQueue env files programs m = .ok (0, m₁)) : Built files programs m m₁ :=
  have hcons : Consistent [] m := h.consistent
  .of_consistent hcons hempty hrun

/-- A process that runs the program of its file does so all along. -/
theorem Steps.fromFile (hfile : (m.pcbs q).FromFile files)
    (hrun : Steps env ok (schedule env policy m) c) :
    ∃ contents, files (m.pcbs q).filename = some contents ∧
      (c.machine.pcbs q).script = contents.take maxLines ∧
      (c.machine.pcbs q).pid = (m.pcbs q).pid := by
  obtain ⟨contents, hcontents, hscript⟩ := hfile
  have hsame := hrun.same q
  rw [schedule_pcbs] at hsame
  exact ⟨contents, hcontents, hsame.script.trans hscript, hsame.pid⟩

/-- Files that are not too long are executed as a whole. -/
theorem Steps.wholeFile (hfile : (m.pcbs q).FromFile files)
    (hshort : ∃ contents, files (m.pcbs q).filename = some contents ∧ contents.length ≤ maxLines)
    (hrun : Steps env ok (schedule env policy m) c) :
    files (m.pcbs q).filename = some (c.machine.pcbs q).script ∧
      (c.machine.pcbs q).pid = (m.pcbs q).pid := by
  obtain ⟨contents, hcontents, hlen⟩ := hshort
  obtain ⟨found, hfound, hscript, hpid⟩ := hrun.fromFile hfile
  obtain rfl := Option.some.inj (hcontents.symm.trans hfound)
  rw [hcontents, hscript, List.take_of_length_le hlen]
  exact ⟨rfl, hpid⟩

namespace Built

theorem start (h : Built files programs m₀ m) (policy : Policy) (scope : Scope s) :
    Advancing scope m.queue (schedule env policy m) :=
  .start h.untouched h.events (fun q hq page f hf _ => h.mapped q hq page f hf trivial) policy

theorem whole_file (h : Built files programs m₀ m) (hq : q ∈ m.queue)
    (hfiles : ∀ script ∈ programs.reduceOption, ∃ contents, files script = some contents ∧
      contents.length ≤ maxLines) (hrun : Steps env ok (schedule env policy m) c) :
    files (m.pcbs q).filename = some (c.machine.pcbs q).script ∧
      (c.machine.pcbs q).pid = (m.pcbs q).pid :=
  hrun.wholeFile (h.fromFile q hq) (hfiles _ (h.names ▸ List.mem_map_of_mem hq))

end Built

end PicoShell.Scheduling
