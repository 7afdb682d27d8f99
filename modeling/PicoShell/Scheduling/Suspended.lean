import PicoShell.Scheduling.ErrorCodes
import PicoShell.Scheduling.Exclusive
import PicoShell.Scheduling.Run

/-! The parts of an iteration around the call of `parseInput`, when processes outside the queue
wait for their own schedulers to go on. -/

namespace PicoShell.Scheduling

variable {s : Sizes} {L W : Type} {env : Env s L W} {m m' : Machine s L W} {c c' : Sched s L W}
  {r : List ℕ} {pcb q i : ℕ} {frame : Fin s.numFrames} {policy : Policy} {code : ℤ}

/-- The next line of a process is to be read from the frame: its page has it, unless the ageing
scheduler is behind the end of the file. -/
def Machine.Fetched (m : Machine s L W) (policy : Policy) (pcb : ℕ) (frame : Fin s.numFrames) :
    Prop :=
  (policy = .aging ∨ (m.pcbs pcb).programCounter ≠ (m.pcbs pcb).fileLength) ∧
    ((m.pcbs pcb).pageTable (m.currentPage pcb) = some frame ∨
      (policy = .aging ∧ (m.pcbs pcb).fileLength ≤ m.currentPage pcb * s.frameSize))

namespace Sched

theorem fetch_inv {fault : Machine s L W → Sched s L W} {x : Next s L W}
    (h : c.fetch pcb i fault = .ok x) :
    ((c.machine.pcbs pcb).pageTable (c.machine.currentPage pcb) = none ∧
      ∃ frame m, c.machine.pageFault pcb (c.machine.currentPage pcb) = .ok (frame, m) ∧
        x = .goto (fault m)) ∨
    ∃ frame, (c.machine.pcbs pcb).pageTable (c.machine.currentPage pcb) = some frame ∧
      x = .line c pcb i frame := by
  rw [fetch] at h
  obtain ⟨o, hread, h⟩ := Exec.bind_ok h
  have hpage := Machine.readPage_ok hread
  cases o with
  | none =>
    obtain ⟨⟨frame, m⟩, hfault, h⟩ := Exec.bind_ok h
    exact .inl ⟨hpage, frame, m, hfault, (Except.ok.inj h).symm⟩
  | some frame => exact .inr ⟨frame, hpage, (Except.ok.inj h).symm⟩

/-- What the scheduler does before it comes to a line, or instead of it. -/
inductive Comes (c : Sched s L W) (pcb i : ℕ) : Next s L W → Prop
  | goto {c' : Sched s L W} (m : Machine s L W) (hpolicy : c'.policy = c.policy)
      (hfault : c.Faults pcb m) (hend : m.Ends c.policy pcb c'.running c'.machine) :
      Comes c pcb i (.goto c')
  | line (m : Machine s L W) (frame : Fin s.numFrames) (hfault : c.Faults pcb m)
      (hfetch : m.Fetched c.policy pcb frame) :
      Comes c pcb i (.line { c with machine := m } pcb i frame)

theorem fcfsNext_comes {x : Next s L W} (h : c.fcfsNext pcb i = .ok x)
    (hrun : c.running = some (pcb, i)) (hpolicy : c.policy = .fcfs ∨ c.policy = .sjf) :
    c.Comes pcb i x := by
  have hne : c.policy ≠ .aging := by
    rcases hpolicy with hp | hp
    · simp [hp]
    · simp [hp]
  rw [fcfsNext] at h
  split_ifs at h with hpc
  · rcases fetch_inv h with ⟨hpage, frame, m, hfault, rfl⟩ | ⟨frame, hpage, rfl⟩
    · refine .goto m rfl (.inr ⟨⟨i, hrun, hpage, ?_⟩, frame, hfault⟩) (.inl ⟨hne, ⟨i, hrun⟩, rfl⟩)
      rcases hpolicy with hp | hp
      · simpa [hp] using hpc
      · simpa [hp] using hpc
    · exact .line c.machine frame (.inl rfl) ⟨.inr hpc.ne, .inl hpage⟩
  · obtain rfl := Except.ok.inj h
    exact .goto c.machine rfl (.inl rfl)
      (.inr (.inl ⟨rfl, Nat.not_lt.mp hpc, fun hp => absurd hp hne, rfl⟩))

theorem rrNext_comes {timeSlice : ℕ} {x : Next s L W} (h : c.rrNext timeSlice pcb i = .ok x)
    (hrun : c.running = some (pcb, i)) (hpolicy : c.policy = .rr timeSlice) : c.Comes pcb i x := by
  rw [rrNext] at h
  split_ifs at h with hpc
  · rcases fetch_inv h with ⟨hpage, frame, m, hfault, rfl⟩ | ⟨frame, hpage, rfl⟩
    · obtain ⟨hpol, hends⟩ := rrEndTurn_ends { c with machine := m } pcb
      refine .goto m hpol (.inr ⟨⟨i, hrun, hpage, ?_⟩, frame, hfault⟩) hends
      simpa [hpolicy] using hpc
    · exact .line c.machine frame (.inl rfl) ⟨.inr hpc.2, .inl hpage⟩
  · obtain rfl := Except.ok.inj h
    obtain ⟨hpol, hends⟩ := rrEndTurn_ends c pcb
    exact .goto c.machine hpol (.inl rfl) hends

theorem agingNext_comes {x : Next s L W} (h : c.agingNext pcb i = .ok x)
    (hrun : c.running = some (pcb, i)) (hpolicy : c.policy = .aging) : c.Comes pcb i x := by
  rw [agingNext] at h
  obtain ⟨o, hread, h⟩ := Exec.bind_ok h
  have hpage := Machine.readPage_ok hread
  cases o with
  | none =>
    obtain ⟨⟨frame, m⟩, hfault, h⟩ := Exec.bind_ok h
    obtain rfl := Except.ok.inj h
    refine .line m frame (.inr ⟨⟨i, hrun, hpage, ?_⟩, frame, hfault⟩) ⟨.inl hpolicy, ?_⟩
    · simp [hpolicy]
    -- the page is mapped now, unless it is behind the end of the file
    obtain ⟨m₁, hfree, ⟨hout, heq⟩ | ⟨-, -, heq⟩⟩ := Machine.pageFault_cases hfault
    · obtain ⟨t, hsame, -⟩ := hfree.same pcb
      refine .inr ⟨hpolicy, ?_⟩
      rw [heq, Machine.currentPage, hsame]
      exact hout
    · obtain ⟨t, hsame, -⟩ := hfree.same pcb
      apply Or.inl
      simp only [heq, Machine.currentPage, Machine.loadPage_pcbs, hsame]
      simp
  | some frame =>
    obtain rfl := Except.ok.inj h
    exact .line c.machine frame (.inl rfl) ⟨.inl hpolicy, .inl hpage⟩

theorem next_of_fcfs (hrun : c.running = some (pcb, i))
    (hpolicy : c.policy = .fcfs ∨ c.policy = .sjf) : c.next = c.fcfsNext pcb i := by
  rw [next]
  rcases hpolicy with hp | hp
  · simp only [hrun, hp]
  · simp only [hrun, hp]

theorem next_of_rr {timeSlice : ℕ} (hrun : c.running = some (pcb, i))
    (hpolicy : c.policy = .rr timeSlice) : c.next = c.rrNext timeSlice pcb i := by
  rw [next]
  simp only [hrun, hpolicy]

theorem next_of_aging (hrun : c.running = some (pcb, i)) (hpolicy : c.policy = .aging) :
    c.next = c.agingNext pcb i := by
  rw [next]
  simp only [hrun, hpolicy]

/-- While a process runs the scheduler comes to a line of it, or to another iteration. -/
theorem next_running {x : Next s L W} (hrun : c.running = some (pcb, i)) (h : c.next = .ok x) :
    c.Comes pcb i x := by
  cases hpolicy : c.policy with
  | fcfs => exact fcfsNext_comes (next_of_fcfs hrun (.inl hpolicy) ▸ h) hrun (.inl hpolicy)
  | sjf => exact fcfsNext_comes (next_of_fcfs hrun (.inr hpolicy) ▸ h) hrun (.inr hpolicy)
  | rr timeSlice => exact rrNext_comes (next_of_rr hrun hpolicy ▸ h) hrun hpolicy
  | aging => exact agingNext_comes (next_of_aging hrun hpolicy ▸ h) hrun hpolicy

/-- Between two turns the scheduler returns, or pops a process. -/
theorem next_idle {x : Next s L W} (hidle : c.running = none) (h : c.next = .ok x) :
    (x = .ret ∧ c.machine.queue = []) ∨ ∃ pcb queue, c.machine.queue = pcb :: queue ∧
      x = .goto { c with
        machine := { c.machine with queue := queue }.recordTurn pcb
        running := some (pcb, 0) } := by
  rw [next] at h
  simp only [hidle] at h
  cases hqueue : c.machine.queue with
  | nil =>
    simp only [Machine.popProcess, hqueue] at h
    exact .inl ⟨(Except.ok.inj h).symm, rfl⟩
  | cons pcb queue =>
    simp only [Machine.popProcess, hqueue] at h
    exact .inr ⟨pcb, queue, rfl, (Except.ok.inj h).symm⟩

/-- A scheduler comes to a line only while a process runs. -/
theorem next_line (h : c.next = .ok (.line c' pcb i frame)) : c.running = some (pcb, i) ∧
    ∃ m, c.Faults pcb m ∧ m.Fetched c.policy pcb frame ∧ c' = { c with machine := m } := by
  rcases hrun : c.running with _ | ⟨p, j⟩
  · rcases next_idle hrun h with ⟨hx, -⟩ | ⟨_, _, -, hx⟩
    · cases hx
    · cases hx
  · rw [← hrun]
    cases next_running hrun h with
    | line m frame hfault hfetch => exact ⟨hrun, m, hfault, hfetch, rfl⟩

theorem next_ret (h : c.next = .ok .ret) : c.running = none ∧ c.machine.queue = [] := by
  rcases hrun : c.running with _ | ⟨pcb, i⟩
  · rcases next_idle hrun h with ⟨-, hqueue⟩ | ⟨_, _, -, hx⟩
    · exact ⟨rfl, hqueue⟩
    · cases hx
  · cases next_running hrun h

theorem next_goto (h : c.next = .ok (.goto c')) : c'.policy = c.policy ∧
    ((∃ pcb queue, c.running = none ∧ c.machine.queue = pcb :: queue ∧
        c'.running = some (pcb, 0) ∧
        c'.machine = { c.machine with queue := queue }.recordTurn pcb) ∨
      ∃ pcb i m, c.running = some (pcb, i) ∧ c.Faults pcb m ∧
        m.Ends c.policy pcb c'.running c'.machine) := by
  rcases hrun : c.running with _ | ⟨pcb, i⟩
  · rcases next_idle hrun h with ⟨hx, -⟩ | ⟨pcb, queue, hqueue, hx⟩
    · cases hx
    · obtain rfl := Next.goto.inj hx
      exact ⟨rfl, .inl ⟨pcb, queue, rfl, hqueue, rfl, rfl⟩⟩
  · cases next_running hrun h with
    | goto m hpolicy hfault hend => exact ⟨hpolicy, .inr ⟨pcb, i, m, rfl, hfault, hend⟩⟩

theorem resume_ends (hrun : c.running = some (pcb, i)) (frame : Fin s.numFrames) (code : ℤ)
    (m : Machine s L W) : (c.resume pcb i frame code m).policy = c.policy ∧
      (c.counted pcb frame m).Ends c.policy pcb (c.resume pcb i frame code m).running
        (c.resume pcb i frame code m).machine := by
  unfold resume
  cases hpolicy : c.policy with
  | fcfs => exact ⟨rfl, .inl ⟨by simp, ⟨i, hrun⟩, rfl⟩⟩
  | sjf => exact ⟨rfl, .inl ⟨by simp, ⟨i, hrun⟩, rfl⟩⟩
  | rr timeSlice => exact ⟨rfl, .inl ⟨by simp, ⟨i + 1, rfl⟩, rfl⟩⟩
  | aging =>
    simp only [agingEndTurn]
    split_ifs with hpc
    · exact ⟨hpolicy, .inr (.inl ⟨rfl, hpc.ge, fun _ => hpc, rfl⟩)⟩
    · exact ⟨hpolicy, .inr (.inr ⟨rfl, hpc, .inr rfl⟩)⟩

end Sched

@[simp] theorem Sched.counted_pcbs (c : Sched s L W) (pcb : ℕ) (frame : Fin s.numFrames)
    (m : Machine s L W) (q : ℕ) : (c.counted pcb frame m).pcbs q =
      if q = pcb then (m.pcbs pcb).advance else m.pcbs q :=
  Function.update_apply _ _ _ _

namespace Consistent

theorem withWorld (h : Consistent r m) (world : W) : Consistent r { m with world := world } :=
  h.of_same _ rfl (.refl _) rfl (fun _ => ⟨rfl, rfl, rfl⟩) h.inRange h.events h.occupied

theorem accessFrame (h : Consistent r m) (frame : Fin s.numFrames) :
    Consistent r (m.accessFrame frame) :=
  h.of_same _ rfl (.refl _) rfl (fun _ => ⟨rfl, rfl, rfl⟩) h.inRange h.events h.occupied

theorem reorder (h : Consistent r m) {queue : List ℕ} (hperm : queue.Perm m.queue) :
    Consistent r { m with queue := queue } :=
  h.of_same _ rfl (hperm.append_left r) rfl (fun _ => ⟨rfl, rfl, rfl⟩) h.inRange h.events h.occupied

theorem pop (h : Consistent r m) {queue : List ℕ} (hqueue : m.queue = pcb :: queue) :
    Consistent (pcb :: r) ({ m with queue := queue }.recordTurn pcb) := by
  have hpcb : pcb ∈ m.allocated := h.queue_mem (by simp [hqueue])
  refine h.of_same _ rfl ?_ rfl (fun _ => ⟨rfl, rfl, rfl⟩) h.inRange ?_ h.occupied
  · rw [hqueue]
    exact List.perm_middle.symm
  · intro e he
    rcases List.mem_append.mp he with he | he
    · exact h.events e he
    · rw [List.mem_singleton.mp he]
      exact h.fresh pcb hpcb

theorem release (h : Consistent (pcb :: r) m) : Consistent r (m.pcbDeinit pcb) where
  perm := by
    have := h.perm.erase pcb
    rwa [List.cons_append, List.erase_cons_head] at this
  nodup := h.nodup.erase pcb
  fresh q hq := h.fresh q (List.mem_of_mem_erase hq)
  pids q hq q' hq' := h.pids q (List.mem_of_mem_erase hq) q' (List.mem_of_mem_erase hq')
  events := h.events
  length q hq := h.length q (List.mem_of_mem_erase hq)
  short q hq := h.short q (List.mem_of_mem_erase hq)
  inRange q hq := h.inRange q (List.mem_of_mem_erase hq)
  occupied := h.occupied

/-- The end of an iteration, while the processes of `r` wait. -/
theorem leaves {running : Option (ℕ × ℕ)} (h : Consistent (pcb :: r) m)
    (hend : m.Ends policy pcb running m') : Consistent (outside running ++ r) m' := by
  rcases hend with ⟨-, ⟨i, rfl⟩, rfl⟩ | ⟨rfl, -, -, rfl⟩ | ⟨rfl, -, rfl | rfl⟩
  · exact h
  · exact h.release
  · exact h.appendProcess
  · obtain ⟨queue, score, hperm, heq⟩ := m.requeue_eq pcb
    rw [heq]
    refine h.of_same _ rfl ?_ rfl (fun _ => ⟨rfl, rfl, rfl⟩) h.inRange h.events h.occupied
    exact (hperm.append_left r).trans List.perm_middle

theorem counted (h : Consistent (pcb :: r) m) (hpid : (c.machine.pcbs pcb).pid = (m.pcbs pcb).pid)
    (frame : Fin s.numFrames) : Consistent (pcb :: r) (c.counted pcb frame m) := by
  apply h.of_same (c.counted pcb frame m) rfl (.refl _) rfl
  · intro q
    rw [Sched.counted_pcbs]
    split_ifs with hq
    · rw [hq]
      exact ⟨rfl, rfl, rfl⟩
    · exact ⟨rfl, rfl, rfl⟩
  · intro q hq page f hf
    rw [Sched.counted_pcbs] at hf
    split_ifs at hf with hqp
    · rw [hqp] at hq ⊢
      exact h.inRange pcb hq page f hf
    · exact h.inRange q hq page f hf
  · intro e he
    rcases List.mem_append.mp he with he | he
    · exact h.events e he
    · rw [List.mem_singleton.mp he]
      show (c.machine.pcbs pcb).pid < m.nextPid
      rw [hpid]
      exact h.fresh pcb (h.running_mem List.mem_cons_self)
  · exact h.occupied

end Consistent

/-- A program is added to the queue: a duplicate, or a new process with the lines of its file. -/
inductive Machine.Adds (env : Env s L W) (files : String → Option (List L)) (m : Machine s L W) :
    Machine s L W → Prop
  | dup {script : String} {dup : ℕ} (hfind : m.findDuplicateScript script = some dup) :
      Adds env files m ((m.pcbDupInit env dup).2.appendProcess (m.pcbDupInit env dup).1)
  | init {script : String} {contents : List L} {pcb : ℕ} {m₁ : Machine s L W}
      (hfind : m.findDuplicateScript script = none) (hfile : files script = some contents)
      (hinit : m.pcbInit env script (contents.take maxLines) = .ok (pcb, m₁)) :
      Adds env files m (m₁.appendProcess pcb)

section Loading

variable {files : String → Option (List L)}

theorem buildReadyQueue_adds {programs : List (Option String)}
    (h : buildReadyQueue env files programs m = .ok (code, m')) :
    Relation.ReflTransGen (Machine.Adds env files) m m' :=
  buildReadyQueue_induction (P := Relation.ReflTransGen (Machine.Adds env files) m)
    (fun _ _ _ hm hfind => hm.tail (.dup hfind))
    (fun _ _ _ _ _ hm hfind hfile hinit => hm.tail (.init hfind hfile hinit)) h .refl

theorem loadPrograms_adds {programs : List Pointer}
    (h : loadPrograms env files programs m = .ok (code, m')) :
    Relation.ReflTransGen (Machine.Adds env files) m m' := by
  induction programs generalizing m with
  | nil =>
    obtain ⟨-, rfl⟩ := Exec.ok_inj h
    exact .refl
  | cons program programs ih =>
    cases program with
    | null => exact ih h
    | wild => cases h
    | string script =>
      rw [loadPrograms] at h
      obtain ⟨⟨errCode, m₁⟩, hbuild, h⟩ := Exec.bind_ok h
      simp only at h
      split_ifs at h
      · obtain ⟨-, rfl⟩ := Exec.ok_inj h
        exact buildReadyQueue_adds hbuild
      · exact (buildReadyQueue_adds hbuild).trans (ih h)

theorem schedule_eq (env : Env s L W) (policy : Policy) (m : Machine s L W) :
    ∃ queue : List ℕ, queue.Perm m.queue ∧
      (schedule env policy m).machine = { m with queue := queue } := by
  cases policy with
  | fcfs => exact ⟨m.queue, .refl _, rfl⟩
  | sjf => exact m.sortReadyQueue_eq
  | rr _ => exact ⟨m.queue, .refl _, rfl⟩
  | aging => exact m.sortReadyQueue_eq

/-- Whatever `exec` comes to, it has only added processes to the queue, and sorted it. -/
theorem launch_adds {programs : List Pointer} {policy : String} {x : Launch s L W}
    (h : launch env files programs policy m = .ok x) : ∃ m',
    Relation.ReflTransGen (Machine.Adds env files) m m' ∧
      ((∃ code, x = .returned code m' ∧ 0 ≤ code) ∨ ∃ p, x = .started (schedule env p m')) := by
  rw [launch] at h
  obtain ⟨⟨errCode, m'⟩, hload, h⟩ := Exec.bind_ok h
  refine ⟨m', loadPrograms_adds hload, ?_⟩
  simp only at h
  split_ifs at h with hcode
  · refine .inl ⟨errCode, (Except.ok.inj h).symm, ?_⟩
    rcases loadPrograms_cases env files programs m with ⟨-, hrun⟩ | ⟨e, hrun⟩ |
      ⟨code, m₁, hrun, -, hcodes⟩
    · rw [hrun] at hload
      exact (Exec.ok_inj hload).1.le
    · rw [hrun] at hload
      cases hload
    · rw [hrun] at hload
      rw [← (Exec.ok_inj hload).1]
      rcases hcodes with hcodes | ⟨hcodes, -⟩
      · rw [hcodes]
        decide
      · exact hcodes.ge
  · cases hpolicy : policyOf policy with
    | none =>
      rw [hpolicy] at h
      exact .inl ⟨badcommandInvalidPolicy, (Except.ok.inj h).symm, by decide⟩
    | some p =>
      rw [hpolicy] at h
      exact .inr ⟨p, (Except.ok.inj h).symm⟩

theorem Consistent.adds (h : Consistent r m) (hadds : m.Adds env files m') : Consistent r m' := by
  cases hadds with
  | dup hfind =>
    exact (h.pcbDupInit (h.queue_mem (List.mem_of_find?_eq_some hfind))).appendProcess
  | init _ _ hinit => exact (h.pcbInit (List.length_take_le _ _) hinit).appendProcess

/-- What was there before processes were added. -/
structure Machine.Extends (m m' : Machine s L W) : Prop where
  queue : m.queue <+: m'.queue
  allocated : ∀ q ∈ m.allocated, q ∈ m'.allocated
  pcbs : ∀ q ∈ m.allocated, m'.pcbs q = m.pcbs q
  nextPid : m.nextPid ≤ m'.nextPid
  history : m'.history = m.history

theorem Machine.Extends.refl (m : Machine s L W) : m.Extends m :=
  ⟨List.prefix_refl _, fun _ hq => hq, fun _ _ => rfl, Nat.le_refl _, rfl⟩

theorem Machine.Extends.trans {m₁ m₂ m₃ : Machine s L W} (h : m₁.Extends m₂) (h' : m₂.Extends m₃) :
    m₁.Extends m₃ where
  queue := h.queue.trans h'.queue
  allocated q hq := h'.allocated q (h.allocated q hq)
  pcbs q hq := (h'.pcbs q (h.allocated q hq)).trans (h.pcbs q hq)
  nextPid := h.nextPid.trans h'.nextPid
  history := h'.history.trans h.history

theorem Machine.Adds.extends (h : m.Adds env files m') : m.Extends m' := by
  cases h with
  | @dup script dup hfind =>
    obtain ⟨-, hother⟩ := m.pcbDupInit_spec env dup
    refine ⟨List.prefix_append _ _, fun q hq => List.mem_cons_of_mem _ hq, ?_, Nat.le_succ _, rfl⟩
    exact fun q hq => hother q (env.ne_malloc rfl hq)
  | @init script contents pcb m₁ hfind hfile hinit =>
    obtain ⟨hpcb, halloc, hqueue, hhist, hpid, -, hother⟩ := Machine.pcbInit_spec hinit
    refine ⟨?_, ?_, fun q hq => hother q (env.ne_malloc hpcb hq), ?_, hhist⟩
    · show m.queue <+: m₁.queue ++ [pcb]
      rw [hqueue]
      exact List.prefix_append _ _
    · intro q hq
      show q ∈ m₁.allocated
      rw [halloc]
      exact List.mem_cons_of_mem _ hq
    · show m.nextPid ≤ m₁.nextPid
      rw [hpid]
      exact Nat.le_succ _

theorem Machine.extends_of_adds (h : Relation.ReflTransGen (Machine.Adds env files) m m') :
    m.Extends m' := by
  induction h with
  | refl => exact .refl m
  | tail _ hadds ih => exact ih.trans hadds.extends

theorem Consistent.loads (h : Consistent r m)
    (hadds : Relation.ReflTransGen (Machine.Adds env files) m m') : Consistent r m' := by
  induction hadds with
  | refl => exact h
  | tail _ hadds ih => exact ih.adds hadds

end Loading

/-- The process is the same and has executed nothing between two times. -/
structure PCB.Rests (x y : PCB s L) : Prop extends x.Same y where
  fileLength : x.fileLength = y.fileLength
  programCounter : x.programCounter = y.programCounter

theorem PCB.Rests.refl (x : PCB s L) : x.Rests x := ⟨⟨rfl, rfl, rfl⟩, rfl, rfl⟩

theorem PCB.Rests.trans {x y z : PCB s L} (h : x.Rests y) (h' : y.Rests z) : x.Rests z :=
  ⟨h.toSame.trans h'.toSame, h.fileLength.trans h'.fileLength,
    h.programCounter.trans h'.programCounter⟩

theorem Sched.Faults.rests (h : c.Faults pcb m) (q : ℕ) : (m.pcbs q).Rests (c.machine.pcbs q) := by
  obtain ⟨t, hq⟩ := h.same.2.2.2 q
  rw [hq]
  exact ⟨⟨rfl, rfl, rfl⟩, rfl, rfl⟩

theorem Machine.Ends.rests {running : Option (ℕ × ℕ)} (h : m.Ends policy pcb running m') (q : ℕ) :
    (m'.pcbs q).Rests (m.pcbs q) := by
  obtain ⟨score, hq⟩ := h.same.2.2.2.2 q
  rw [hq]
  exact ⟨⟨rfl, rfl, rfl⟩, rfl, rfl⟩

theorem Sched.Faults.nextPid (h : c.Faults pcb m) : m.nextPid = c.machine.nextPid := by
  rcases h with rfl | ⟨-, frame, hpage⟩
  · rfl
  obtain ⟨m₁, hfree, hload⟩ := Machine.pageFault_cases hpage
  have hfreed : m₁.nextPid = c.machine.nextPid := by
    rcases hfree with ⟨-, rfl⟩ | ⟨-, -, entry, -, rfl⟩
    · rfl
    · rfl
  rcases hload with ⟨-, rfl⟩ | ⟨-, -, rfl⟩
  · exact hfreed
  · exact hfreed

theorem Machine.Ends.nextPid {running : Option (ℕ × ℕ)} (h : m.Ends policy pcb running m') :
    m'.nextPid = m.nextPid := by
  rcases h with ⟨-, -, rfl⟩ | ⟨-, -, -, rfl⟩ | ⟨-, -, rfl | rfl⟩
  · rfl
  · rfl
  · rfl
  · obtain ⟨queue, score, -, heq⟩ := m.requeue_eq pcb
    rw [heq]

/-- The ageing scheduler ends each turn at once. -/
theorem Machine.Ends.not_aging {running : Option (ℕ × ℕ)} (h : m.Ends policy pcb running m')
    {x : ℕ × ℕ} (hrun : running = some x) : policy ≠ .aging := by
  rcases h with ⟨hne, -⟩ | ⟨rfl, -⟩ | ⟨rfl, -⟩
  · exact hne
  · cases hrun
  · cases hrun

/-- All lines of a program are good for its name. -/
def Machine.Scripted (good : String → L → Prop) (m : Machine s L W) : Prop :=
  ∀ q ∈ m.allocated, ∀ line ∈ (m.pcbs q).script, good (m.pcbs q).filename line

namespace Machine.Scripted

variable {good : String → L → Prop} {files : String → Option (List L)}

theorem of_subset (h : m.Scripted good) (halloc : ∀ q ∈ m'.allocated, q ∈ m.allocated)
    (hsame : ∀ q, (m'.pcbs q).Same (m.pcbs q)) : m'.Scripted good := by
  intro q hq line hline
  rw [(hsame q).script] at hline
  rw [(hsame q).filename]
  exact h q (halloc q hq) line hline

theorem adds (h : m.Scripted good) (hcons : Consistent r m)
    (hfiles : ∀ name, ∀ contents ∈ files name, ∀ line ∈ contents, good name line)
    (hadds : m.Adds env files m') : m'.Scripted good := by
  intro q hq
  cases hadds with
  | @dup script dup hfind =>
    obtain ⟨hself, hother⟩ := m.pcbDupInit_spec env dup
    show ∀ line ∈ ((m.pcbDupInit env dup).2.pcbs q).script,
      good ((m.pcbDupInit env dup).2.pcbs q).filename line
    rcases List.mem_cons.mp hq with hqp | hq
    · rw [hqp, show (m.pcbDupInit env dup).2.pcbs (env.malloc m) = _ from hself]
      exact h dup (hcons.queue_mem (List.mem_of_find?_eq_some hfind))
    · rw [hother q (env.ne_malloc rfl hq)]
      exact h q hq
  | @init script contents pcb m₁ _ hfile hinit =>
    obtain ⟨hpcb, halloc, -, -, -, ⟨t, hself⟩, hother⟩ := Machine.pcbInit_spec hinit
    have hq : q ∈ m₁.allocated := hq
    rw [halloc] at hq
    show ∀ line ∈ (m₁.pcbs q).script, good (m₁.pcbs q).filename line
    rcases List.mem_cons.mp hq with rfl | hq
    · rw [hself]
      exact fun line hline => hfiles script contents hfile line (List.mem_of_mem_take hline)
    · rw [hother q (env.ne_malloc hpcb hq)]
      exact h q hq

theorem loads (h : m.Scripted good) (hcons : Consistent r m)
    (hfiles : ∀ name, ∀ contents ∈ files name, ∀ line ∈ contents, good name line)
    (hadds : Relation.ReflTransGen (Machine.Adds env files) m m') : m'.Scripted good := by
  induction hadds with
  | refl => exact h
  | tail hadds hadd ih => exact ih.adds (hcons.loads hadds) hfiles hadd

end Machine.Scripted

end PicoShell.Scheduling
