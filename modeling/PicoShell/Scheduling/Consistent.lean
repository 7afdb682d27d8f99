import PicoShell.Scheduling.Scheduler

/-! What holds in every state of every session, shared frames or not: the allocated
processes are the running and the queued ones, their numbers are distinct, and a frame
that is in use has an entry in the frame table. -/

namespace PicoShell.Scheduling

variable {s : Sizes} {L W : Type} {env : Env s L W} {m m' : Machine s L W} {c c' : Sched s L W}
  {r r' : List ℕ} {pcb page q : ℕ} {frame : Fin s.numFrames}

/-- The processes of `r` are outside the queue. -/
structure Consistent (r : List ℕ) (m : Machine s L W) : Prop where
  perm : m.allocated.Perm (r ++ m.queue)
  nodup : m.allocated.Nodup
  fresh : ∀ q ∈ m.allocated, (m.pcbs q).pid < m.nextPid
  pids : ∀ q ∈ m.allocated, ∀ q' ∈ m.allocated, (m.pcbs q).pid = (m.pcbs q').pid → q = q'
  events : ∀ e ∈ m.history, e.pid < m.nextPid
  length : ∀ q ∈ m.allocated, (m.pcbs q).fileLength = (m.pcbs q).script.length
  short : ∀ q ∈ m.allocated, (m.pcbs q).fileLength ≤ maxLines
  inRange : ∀ q ∈ m.allocated, ∀ page f, (m.pcbs q).pageTable page = some f →
    page * s.frameSize < (m.pcbs q).fileLength
  occupied : ∀ f : Fin s.numFrames, m.memory (f * s.frameSize) ≠ none → m.frameTable f ≠ none

theorem consistent_memInit (heap : ℕ → PCB s L) (world : W) : Consistent [] (memInit heap world) where
  perm := .refl _
  nodup := List.nodup_nil
  fresh := by simp [memInit]
  pids := by simp [memInit]
  events := by simp [memInit]
  length := by simp [memInit]
  short := by simp [memInit]
  inRange := by simp [memInit]
  occupied _ h := absurd rfl h

namespace Consistent

theorem queue_mem (h : Consistent r m) (hq : q ∈ m.queue) : q ∈ m.allocated :=
  h.perm.mem_iff.mpr (List.mem_append_right r hq)

theorem running_mem (h : Consistent r m) (hq : q ∈ r) : q ∈ m.allocated :=
  h.perm.mem_iff.mpr (List.mem_append_left m.queue hq)

theorem allocated_nil (h : Consistent [] m) (hempty : m.queue = []) : m.allocated = [] := by
  have hperm := h.perm
  rw [hempty] at hperm
  exact hperm.eq_nil

/-- A change that keeps the processes and their identity, and maps no new page out of range. -/
theorem of_same (h : Consistent r m) (m' : Machine s L W) (halloc : m'.allocated = m.allocated)
    (hperm : (r' ++ m'.queue).Perm (r ++ m.queue)) (hnext : m'.nextPid = m.nextPid)
    (hsame : ∀ q, (m'.pcbs q).pid = (m.pcbs q).pid ∧ (m'.pcbs q).script = (m.pcbs q).script ∧
      (m'.pcbs q).fileLength = (m.pcbs q).fileLength)
    (hpages : ∀ q ∈ m.allocated, ∀ page f, (m'.pcbs q).pageTable page = some f →
      page * s.frameSize < (m.pcbs q).fileLength)
    (hevents : ∀ e ∈ m'.history, e.pid < m.nextPid)
    (hocc : ∀ f : Fin s.numFrames, m'.memory (f * s.frameSize) ≠ none → m'.frameTable f ≠ none) :
    Consistent r' m' where
  perm := by
    rw [halloc]
    exact h.perm.trans hperm.symm
  nodup := by rw [halloc]; exact h.nodup
  fresh q hq := by
    rw [(hsame q).1, hnext]
    exact h.fresh q (halloc ▸ hq)
  pids q hq q' hq' := by
    rw [(hsame q).1, (hsame q').1]
    exact h.pids q (halloc ▸ hq) q' (halloc ▸ hq')
  events e he := by rw [hnext]; exact hevents e he
  length q hq := by
    rw [(hsame q).2.2, (hsame q).2.1]
    exact h.length q (halloc ▸ hq)
  short q hq := by
    rw [(hsame q).2.2]
    exact h.short q (halloc ▸ hq)
  inRange q hq page f hf := by
    rw [(hsame q).2.2]
    exact hpages q (halloc ▸ hq) page f hf
  occupied := hocc

theorem evictFrame (h : Consistent r m) (frame : Fin s.numFrames) (entry : ℕ × ℕ) :
    Consistent r (m.evictFrame frame entry) := by
  apply h.of_same (m.evictFrame frame entry) rfl (.refl _) rfl
  · intro q
    rw [Machine.evictFrame_pcbs]
    exact ⟨rfl, rfl, rfl⟩
  · intro q hq page f hf
    rw [Machine.evictFrame_pcbs] at hf
    simp only [PCB.withPages_pageTable] at hf
    split_ifs at hf
    exact h.inRange q hq page f hf
  · exact h.events
  · intro f hf
    have hcell := m.evictFrame_cell frame entry f s.frameSize_pos
    simp only [Nat.add_zero] at hcell
    rw [hcell] at hf
    rw [Machine.evictFrame_frameTable]
    split_ifs at hf ⊢ with hframe
    · exact absurd rfl hf
    · exact h.occupied f hf

theorem loadPage (h : Consistent r m) (hpage : page * s.frameSize < (m.pcbs pcb).fileLength) :
    Consistent r (m.loadPage pcb page frame) := by
  apply h.of_same (m.loadPage pcb page frame) rfl (.refl _) rfl
  · intro q
    rw [Machine.loadPage_pcbs]
    exact ⟨rfl, rfl, rfl⟩
  · intro q hq i f hf
    rw [Machine.loadPage_pcbs] at hf
    simp only [PCB.withPages_pageTable] at hf
    split_ifs at hf with hnew
    · obtain ⟨rfl, rfl⟩ := hnew
      exact hpage
    · exact h.inRange q hq i f hf
  · exact h.events
  · intro f hf
    have hcell := m.loadPage_cell pcb page frame f s.frameSize_pos
    simp only [Nat.add_zero] at hcell
    rw [hcell] at hf
    rw [Machine.loadPage_frameTable]
    by_cases hframe : f = frame
    · rw [if_pos hframe]
      exact Option.some_ne_none _
    · rw [if_neg fun hc => hframe hc.1] at hf
      rw [if_neg hframe]
      exact h.occupied f hf

theorem frees (h : Consistent r m) (hfree : m.Frees frame m') : Consistent r m' := by
  rcases hfree with ⟨-, rfl⟩ | ⟨-, -, entry, -, rfl⟩
  · exact h
  · exact h.evictFrame frame entry

theorem faults (h : Consistent r c.machine) (hfault : c.Faults pcb m') : Consistent r m' := by
  rcases hfault with rfl | ⟨-, frame, hrun⟩
  · exact h
  · obtain ⟨m₁, hfree, ⟨-, rfl⟩ | ⟨hpage, -, rfl⟩⟩ := Machine.pageFault_cases hrun
    · exact h.frees hfree
    · obtain ⟨t, hsame, -⟩ := hfree.same pcb
      apply (h.frees hfree).loadPage
      rwa [hsame]

theorem executeLine (h : Consistent r m) (hpcb : pcb ∈ m.allocated) (frame : Fin s.numFrames) :
    Consistent r (m.executeLine env pcb frame).2 := by
  have hsame := m.executeLine_same env pcb frame
  apply h.of_same (m.executeLine env pcb frame).2 rfl (.refl _) rfl
  · exact fun q => ⟨(hsame q).1, (hsame q).2.1, (hsame q).2.2.1⟩
  · intro q hq page f hf
    rw [(hsame q).2.2.2.2] at hf
    exact h.inRange q hq page f hf
  · intro e he
    rw [Machine.executeLine_history] at he
    rcases List.mem_append.mp he with he | he
    · exact h.events e he
    · rw [List.mem_singleton.mp he]
      exact h.fresh pcb hpcb
  · exact h.occupied

theorem executes {policy : Policy} (h : Consistent r m) (hpcb : pcb ∈ m.allocated)
    (hexec : m.Executes env policy pcb m') : Consistent r m' := by
  rcases hexec with ⟨-, rfl⟩ | ⟨frame, rfl, -⟩
  · exact h
  · exact h.executeLine hpcb frame

theorem appendProcess (h : Consistent (pcb :: r) m) : Consistent r (m.appendProcess pcb) := by
  apply h.of_same (m.appendProcess pcb) rfl _ rfl (fun _ => ⟨rfl, rfl, rfl⟩) h.inRange h.events
    h.occupied
  show (r ++ (m.queue ++ [pcb])).Perm (pcb :: r ++ m.queue)
  rw [← List.append_assoc]
  exact List.perm_append_singleton pcb (r ++ m.queue)

theorem sortReadyQueue (h : Consistent r m) : Consistent r m.sortReadyQueue := by
  obtain ⟨queue, hperm, heq⟩ := m.sortReadyQueue_eq
  rw [heq]
  exact h.of_same { m with queue := queue } rfl (hperm.append_left r) rfl
    (fun _ => ⟨rfl, rfl, rfl⟩) h.inRange h.events h.occupied

theorem requeue (h : Consistent [pcb] m) :
    Consistent [] (m.ageReadyQueue.appendleftProcess pcb).sortReadyQueue := by
  obtain ⟨queue, score, hperm, heq⟩ := m.requeue_eq pcb
  rw [heq]
  exact h.of_same _ rfl hperm rfl (fun _ => ⟨rfl, rfl, rfl⟩) h.inRange h.events h.occupied

theorem pcbDeinit (h : Consistent [pcb] m) : Consistent [] (m.pcbDeinit pcb) where
  perm := by
    have := h.perm.erase pcb
    rwa [List.singleton_append, List.erase_cons_head] at this
  nodup := h.nodup.erase pcb
  fresh q hq := h.fresh q (List.mem_of_mem_erase hq)
  pids q hq q' hq' := h.pids q (List.mem_of_mem_erase hq) q' (List.mem_of_mem_erase hq')
  events := h.events
  length q hq := h.length q (List.mem_of_mem_erase hq)
  short q hq := h.short q (List.mem_of_mem_erase hq)
  inRange q hq := h.inRange q (List.mem_of_mem_erase hq)
  occupied := h.occupied

def outside (running : Option (ℕ × ℕ)) : List ℕ := running.toList.map Prod.fst

theorem of_running {i : ℕ} (h : Consistent (outside c.running) c.machine)
    (hrun : c.running = some (pcb, i)) : Consistent [pcb] c.machine ∧ pcb ∈ c.machine.allocated := by
  rw [hrun] at h
  exact ⟨h, h.running_mem (List.mem_singleton_self pcb)⟩

theorem of_idle (h : Consistent (outside c.running) c.machine) (hidle : c.running = none) :
    Consistent [] c.machine := by
  rwa [hidle] at h

theorem ends {policy : Policy} {running : Option (ℕ × ℕ)} (h : Consistent [pcb] m)
    (hend : m.Ends policy pcb running m') : Consistent (outside running) m' := by
  rcases hend with ⟨-, ⟨i, rfl⟩, rfl⟩ | ⟨rfl, -, -, rfl⟩ | ⟨rfl, -, rfl | rfl⟩
  · exact h
  · exact h.pcbDeinit
  · exact h.appendProcess
  · exact h.requeue

theorem step (h : Consistent (outside c.running) c.machine) (hstep : c.step env = .ok (some c')) :
    Consistent (outside c'.running) c'.machine := by
  obtain ⟨-, ⟨pcb, queue, hrun, hqueue, hrun', hm⟩ |
    ⟨pcb, i, hrun, -, m₁, m₂, hfault, hexec, hend⟩⟩ := Sched.step_cases hstep
  · have h := h.of_idle hrun
    rw [hrun', hm]
    have hpcb : pcb ∈ c.machine.allocated := h.queue_mem (by simp [hqueue])
    refine h.of_same _ rfl ?_ rfl (fun _ => ⟨rfl, rfl, rfl⟩) h.inRange ?_ h.occupied
    · rw [hqueue]
      exact .refl _
    · intro e he
      rcases List.mem_append.mp he with he | he
      · exact h.events e he
      · rw [List.mem_singleton.mp he]
        exact h.fresh pcb hpcb
  · have h₁ := (h.of_running hrun).1.faults hfault
    exact (h₁.executes (h₁.running_mem (List.mem_singleton_self pcb)) hexec).ends hend

theorem allocate (h : Consistent r m) (hfresh : pcb ∉ m.allocated) {x : PCB s L}
    (hpid : x.pid = m.nextPid) (hlen : x.fileLength = x.script.length)
    (hshort : x.fileLength ≤ maxLines)
    (hrange : ∀ page f, x.pageTable page = some f → page * s.frameSize < x.fileLength) :
    Consistent (pcb :: r) (m.allocate pcb x) := by
  have hold := fun q hq => m.allocate_old (q := q) x hfresh hq
  have hself : (m.allocate pcb x).pcbs pcb = x := by rw [Machine.allocate_pcbs, if_pos rfl]
  refine ⟨h.perm.cons pcb, List.nodup_cons.mpr ⟨hfresh, h.nodup⟩, ?_, ?_, ?_, ?_, ?_, ?_, h.occupied⟩
  · intro q hq
    show _ < m.nextPid + 1
    rcases List.mem_cons.mp hq with rfl | hq
    · rw [hself, hpid]
      omega
    · rw [hold q hq]
      have := h.fresh q hq
      omega
  · intro q hq q' hq' heq
    rcases List.mem_cons.mp hq with hqp | hq
    · rcases List.mem_cons.mp hq' with hqp' | hq'
      · rw [hqp, hqp']
      · rw [hqp, hself, hold q' hq', hpid] at heq
        have := h.fresh q' hq'
        omega
    · rcases List.mem_cons.mp hq' with hqp' | hq'
      · rw [hqp', hself, hold q hq, hpid] at heq
        have := h.fresh q hq
        omega
      · rw [hold q hq, hold q' hq'] at heq
        exact h.pids q hq q' hq' heq
  · intro e he
    have := h.events e he
    show _ < m.nextPid + 1
    omega
  all_goals
    intro q hq
    rcases List.mem_cons.mp hq with rfl | hq
  · rwa [hself]
  · rw [hold q hq]
    exact h.length q hq
  · rwa [hself]
  · rw [hold q hq]
    exact h.short q hq
  · rwa [hself]
  · rw [hold q hq]
    exact h.inRange q hq

theorem pcbDupInit (h : Consistent r m) {dup : ℕ} (hdup : dup ∈ m.allocated) :
    Consistent ((m.pcbDupInit env dup).1 :: r) (m.pcbDupInit env dup).2 :=
  h.allocate (env.malloc_fresh m) rfl (h.length dup hdup) (h.short dup hdup) (h.inRange dup hdup)

theorem pcbInit (h : Consistent r m) {script : String} {lines : List L} (hlen : lines.length ≤ 100)
    (hrun : m.pcbInit env script lines = .ok (pcb, m')) : Consistent (pcb :: r) m' := by
  obtain ⟨rfl, hpre⟩ := Machine.pcbInit_ok hrun
  refine Machine.preload_induction (fun m page frame hm hpage _ _ => hm.loadPage hpage) hpre ?_
  exact h.allocate (env.malloc_fresh m) rfl rfl hlen fun _ _ hf => absurd hf (by simp [Machine.newPCB])

theorem buildReadyQueue {files : String → Option (List L)} {programs : List (Option String)} {code : ℤ}
    (h : Consistent [] m) (hrun : buildReadyQueue env files programs m = .ok (code, m')) :
    Consistent [] m' := by
  refine buildReadyQueue_induction (fun m script dup hm hfind => ?_)
    (fun m script contents pcb m' hm _ _ hinit => ?_) hrun h
  · exact (hm.pcbDupInit (hm.queue_mem (List.mem_of_find?_eq_some hfind))).appendProcess
  · exact (hm.pcbInit (by simp) hinit).appendProcess

theorem schedule (h : Consistent [] m) (policy : Policy) :
    Consistent [] (schedule env policy m).machine := by
  cases policy with
  | fcfs => exact h
  | sjf => exact h.sortReadyQueue
  | rr _ => exact h
  | aging => exact h.sortReadyQueue

end Consistent

def Shell.Consistent : Shell s L W → Prop
  | .idle m => Scheduling.Consistent [] m
  | .active c => Scheduling.Consistent (Consistent.outside c.running) c.machine

theorem exec_cases {files : String → Option (List L)} {programs : List (Option String)}
    {policy : String} {sh : Shell s L W} (h : exec env files programs policy m = .ok sh) :
    ∃ code m', buildReadyQueue env files programs m = .ok (code, m') ∧
      (sh = .idle m' ∨ code = 0 ∧ ∃ p, policyOf policy = some p ∧
        sh = .active (schedule env p m')) := by
  rw [exec] at h
  obtain ⟨⟨code, m'⟩, hrun, h⟩ := Exec.bind_ok h
  refine ⟨code, m', hrun, ?_⟩
  simp only at h
  split_ifs at h with hcode
  · exact .inl (Except.ok.inj h).symm
  · cases hpolicy : policyOf policy with
    | none =>
      rw [hpolicy] at h
      exact .inl (Except.ok.inj h).symm
    | some p =>
      rw [hpolicy] at h
      exact .inr ⟨by simpa using hcode, p, rfl, (Except.ok.inj h).symm⟩

theorem Session.consistent {ok : Sched s L W → Prop} {sh : Shell s L W} (h : Session env ok sh) :
    sh.Consistent := by
  induction h with
  | init heap world => exact consistent_memInit heap world
  | call _ hcall ih =>
    obtain ⟨code, m', hrun, rfl | ⟨-, p, -, rfl⟩⟩ := exec_cases hcall
    · exact Consistent.buildReadyQueue ih hrun
    · exact (Consistent.buildReadyQueue ih hrun).schedule p
  | step _ _ hstep ih => exact Consistent.step ih hstep
  | @ret c _ hret ih =>
    have ih : Scheduling.Consistent (Consistent.outside c.running) c.machine := ih
    exact ih.of_idle (Sched.step_none hret).1

end PicoShell.Scheduling
