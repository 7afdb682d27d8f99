import PicoShell.Scheduling.Sorting

namespace PicoShell.Scheduling

variable {s : Sizes} {L W : Type} {env : Env s L W} {m m' m₁ : Machine s L W}
  {c c' c'' : Sched s L W} {qs queue : List ℕ} {pcb p q i : ℕ} {frame : Fin s.numFrames}

/-- The line of the process is in the frame, which was loaded if there was none. -/
def Sched.Loads (c : Sched s L W) (pcb : ℕ) (frame : Fin s.numFrames) (m : Machine s L W) : Prop :=
  (m = c.machine ∧ (c.machine.pcbs pcb).pageTable (c.machine.currentPage pcb) = some frame) ∨
  ((c.machine.pcbs pcb).pageTable (c.machine.currentPage pcb) = none ∧
    c.machine.pageFault pcb (c.machine.currentPage pcb) = .ok (frame, m))

/-- An iteration of the ageing scheduler: a line is executed, and the process is released or put
back. -/
inductive Sched.Iteration (env : Env s L W) (pcb : ℕ) (c : Sched s L W) : Machine s L W → Prop
  | release (frame : Fin s.numFrames) (m : Machine s L W) (hload : c.Loads pcb frame m)
      (hend : ((m.executeLine env pcb frame).2.pcbs pcb).programCounter =
        ((m.executeLine env pcb frame).2.pcbs pcb).fileLength) :
      Iteration env pcb c ((m.executeLine env pcb frame).2.pcbDeinit pcb)
  | requeue (frame : Fin s.numFrames) (m : Machine s L W) (hload : c.Loads pcb frame m)
      (hmore : ((m.executeLine env pcb frame).2.pcbs pcb).programCounter ≠
        ((m.executeLine env pcb frame).2.pcbs pcb).fileLength) :
      Iteration env pcb c
        ((m.executeLine env pcb frame).2.ageReadyQueue.appendleftProcess pcb).sortReadyQueue

theorem Sched.agingLine_iteration (c₁ : Sched s L W) (hload : c.Loads pcb frame c₁.machine) :
    c.Iteration env pcb (c₁.agingLine env pcb frame).machine ∧
      (c₁.agingLine env pcb frame).running = none := by
  unfold agingLine
  simp only
  split_ifs with hend
  · exact ⟨.release frame c₁.machine hload hend, rfl⟩
  · exact ⟨.requeue frame c₁.machine hload hend, rfl⟩

theorem Sched.iteration_of_step (hrun : c.running = some (pcb, i)) (hpolicy : c.policy = .aging)
    (h : c.step env = .ok (some c')) : c.Iteration env pcb c'.machine ∧ c'.running = none := by
  have hstep := step_running hrun h
  rw [hpolicy] at hstep
  rcases agingStep_inv hstep with ⟨hpage, frame, m, hfault, rfl⟩ | ⟨frame, hpage, rfl⟩
  · exact agingLine_iteration { c with machine := m } (.inr ⟨hpage, hfault⟩)
  · exact agingLine_iteration c (.inl ⟨rfl, hpage⟩)

theorem Sched.Loads.same (h : c.Loads pcb frame m) : m.queue = c.machine.queue ∧
    ∀ q, ∃ t, m.pcbs q = (c.machine.pcbs q).withPages t := by
  rcases h with ⟨rfl, -⟩ | ⟨-, hfault⟩
  · exact ⟨rfl, fun q => ⟨_, (PCB.withPages_self _).symm⟩⟩
  · obtain ⟨-, hqueue, -, hsame⟩ := Machine.pageFault_processes hfault
    exact ⟨hqueue, hsame⟩

/-- What a line and the page fault before it leave alone. -/
theorem Sched.Loads.executeLine (h : c.Loads pcb frame m) (env : Env s L W) :
    (m.executeLine env pcb frame).2.queue = c.machine.queue ∧
    ∀ q, ((m.executeLine env pcb frame).2.pcbs q).jobScore = (c.machine.pcbs q).jobScore ∧
      ((m.executeLine env pcb frame).2.pcbs q).fileLength = (c.machine.pcbs q).fileLength ∧
      (q ≠ pcb → ((m.executeLine env pcb frame).2.pcbs q).programCounter =
        (c.machine.pcbs q).programCounter) := by
  obtain ⟨hqueue, hsame⟩ := h.same
  refine ⟨hqueue, fun q => ?_⟩
  rw [Machine.executeLine_pcbs]
  split_ifs with hq
  · obtain ⟨t, hpcb⟩ := hsame pcb
    rw [hq, hpcb]
    exact ⟨rfl, rfl, fun hne => absurd rfl hne⟩
  · obtain ⟨t, hpcb⟩ := hsame q
    rw [hpcb]
    exact ⟨rfl, rfl, fun _ => rfl⟩

/-- The score of a process that waited. -/
def PCB.agedScore (x : PCB s L) : ℤ := if 0 < x.jobScore then x.jobScore - 1 else x.jobScore

theorem PCB.agedScore_eq {x : PCB s L} (h : 0 ≤ x.jobScore) :
    x.agedScore = max (x.jobScore - 1) 0 := by
  unfold agedScore
  split_ifs
  · omega
  · omega

namespace Machine

theorem ageReadyQueue_pcbs (h : m.queue.Nodup) (q : ℕ) : m.ageReadyQueue.pcbs q =
    if q ∈ m.queue then (m.pcbs q).withScore (m.pcbs q).agedScore else m.pcbs q := by
  suffices hall : ∀ l : List ℕ, l.Nodup → ∀ m : Machine s L W, (l.foldl (fun m pcb =>
      if 0 < (m.pcbs pcb).jobScore then
        m.modify pcb fun x => { x with jobScore := x.jobScore - 1 }
      else m) m).pcbs q =
        if q ∈ l then (m.pcbs q).withScore (m.pcbs q).agedScore else m.pcbs q from hall _ h m
  intro l hl
  induction l with
  | nil =>
    intro m
    rw [if_neg List.not_mem_nil]
    rfl
  | cons p l ih =>
    intro m
    obtain ⟨hp, hl⟩ := List.nodup_cons.mp hl
    have hstep : ∀ q, (if 0 < (m.pcbs p).jobScore then
        m.modify p fun x => { x with jobScore := x.jobScore - 1 } else m).pcbs q =
          if q = p then (m.pcbs p).withScore (m.pcbs p).agedScore else m.pcbs q := by
      intro q
      unfold PCB.agedScore
      split_ifs with hpos hq hq
      · rw [pcbs_modify, if_pos hq]
        rfl
      · rw [pcbs_modify, if_neg hq]
      · rw [hq, PCB.withScore_self]
      · rfl
    rw [List.foldl_cons, ih hl, hstep]
    by_cases hq : q = p
    · subst hq
      rw [if_neg hp, if_pos rfl, if_pos List.mem_cons_self]
    · simp [hq]

structure Requeued (m : Machine s L W) (pcb : ℕ) (m' : Machine s L W) : Prop where
  perm : m'.queue.Perm (pcb :: m.queue)
  aged : ∀ q ∈ m.queue, m'.pcbs q = (m.pcbs q).withScore (m.pcbs q).agedScore
  others : ∀ q, q ∉ m.queue → m'.pcbs q = m.pcbs q
  order : m'.InOrder m'.queue
  first : (∀ q ∈ m.queue, (m'.pcbs pcb).jobScore ≤ (m'.pcbs q).jobScore) →
    m'.queue[0]? = some pcb

theorem requeue_spec (hnodup : (pcb :: m.queue).Nodup)
    (hfew : (pcb :: m.queue).length ≤ maxNumPrograms) :
    m.Requeued pcb (m.ageReadyQueue.appendleftProcess pcb).sortReadyQueue := by
  obtain ⟨score, hage⟩ := m.ageReadyQueue_eq
  have hqueue : (m.ageReadyQueue.appendleftProcess pcb).queue = pcb :: m.queue := by
    rw [hage]
    rfl
  have hsort : (m.ageReadyQueue.appendleftProcess pcb).sortReadyQueue.queue =
      (Exchange.pairs maxNumPrograms).foldl
        (Exchange.exchange fun q => (m.ageReadyQueue.pcbs q).jobScore) (pcb :: m.queue) := by
    rw [sortReadyQueue_exchange, hqueue, List.drop_eq_nil_of_le hfew, List.take_of_length_le hfew]
    rfl
  have hpcbs := (m.ageReadyQueue.appendleftProcess pcb).sortReadyQueue_pcbs
  have hscores := m.ageReadyQueue_pcbs (List.nodup_cons.mp hnodup).2
  refine ⟨?_, fun q hq => ?_, fun q hq => ?_, ?_, fun hleast => ?_⟩
  · rw [hsort]
    exact Exchange.perm_foldl_exchange _ _ _
  · rw [hpcbs]
    exact (hscores q).trans (if_pos hq)
  · rw [hpcbs]
    exact (hscores q).trans (if_neg hq)
  · rw [InOrder, hpcbs]
    exact sortReadyQueue_sorted _ (by rwa [hqueue])
  · rw [hpcbs] at hleast
    rw [hsort]
    exact Exchange.head_foldl_pairs hleast maxNumPrograms

end Machine

def Sched.live (c : Sched s L W) : List ℕ := Consistent.outside c.running ++ c.machine.queue

/-- The invariant of the ageing scheduler on the processes `qs`. -/
structure Prioritized (qs : List ℕ) (c : Sched s L W) : Prop where
  policy : c.policy = .aging
  mem : ∀ q ∈ c.live, q ∈ qs
  nodup : c.live.Nodup
  few : c.live.length ≤ maxNumPrograms
  order : c.machine.InOrder c.live
  nonneg : ∀ q ∈ qs, 0 ≤ (c.machine.pcbs q).jobScore
  released : ∀ q ∈ qs, q ∉ c.live →
    (c.machine.pcbs q).programCounter = (c.machine.pcbs q).fileLength

namespace Prioritized

theorem live_running (hrun : c.running = some (pcb, i)) : c.live = pcb :: c.machine.queue := by
  rw [Sched.live, hrun]
  rfl

theorem live_idle (hidle : c.running = none) : c.live = c.machine.queue := by
  rw [Sched.live, hidle]
  rfl

theorem start (hnodup : m.queue.Nodup) (hfew : m.queue.length ≤ maxNumPrograms)
    (hscore : ∀ q ∈ m.queue, 0 ≤ (m.pcbs q).jobScore) :
    Prioritized m.queue (schedule env .aging m) := by
  obtain ⟨queue, hperm, hsort⟩ := m.sortReadyQueue_eq
  have hqueue : m.sortReadyQueue.queue.Perm m.queue := by rwa [hsort]
  have hpcbs := m.sortReadyQueue_pcbs
  refine ⟨rfl, fun q hq => hqueue.mem_iff.mp hq, hqueue.nodup_iff.mpr hnodup, ?_, ?_, ?_, ?_⟩
  · show m.sortReadyQueue.queue.length ≤ _
    rwa [hqueue.length_eq]
  · show m.sortReadyQueue.InOrder m.sortReadyQueue.queue
    rw [Machine.InOrder, hpcbs]
    exact m.sortReadyQueue_sorted hfew
  · intro q hq
    show 0 ≤ (m.sortReadyQueue.pcbs q).jobScore
    rw [hpcbs]
    exact hscore q hq
  · exact fun q hq hout => absurd (hqueue.mem_iff.mpr hq) hout

theorem pop (h : Prioritized qs c) (hidle : c.running = none) (hqueue : c.machine.queue = pcb :: queue)
    (hpolicy : c'.policy = c.policy) (hrun : c'.running = some (pcb, 0))
    (hm : c'.machine = { c.machine with queue := queue }.recordTurn pcb) : Prioritized qs c' := by
  have hlive : c'.live = c.live := by
    rw [live_running hrun, live_idle hidle, hqueue, hm]
    rfl
  have hpcbs : c'.machine.pcbs = c.machine.pcbs := by
    rw [hm]
    rfl
  refine ⟨hpolicy.trans h.policy, ?_, ?_, ?_, ?_, ?_, ?_⟩
  · rw [hlive]
    exact h.mem
  · rw [hlive]
    exact h.nodup
  · rw [hlive]
    exact h.few
  · rw [hlive, Machine.InOrder, hpcbs]
    exact h.order
  · rw [hpcbs]
    exact h.nonneg
  · rw [hlive, hpcbs]
    exact h.released

theorem release (h : Prioritized qs c) (hrun : c.running = some (pcb, i)) (hload : c.Loads pcb frame m)
    (hend : ((m.executeLine env pcb frame).2.pcbs pcb).programCounter =
      ((m.executeLine env pcb frame).2.pcbs pcb).fileLength)
    (hpolicy : c'.policy = c.policy) (hidle : c'.running = none)
    (hm : c'.machine = (m.executeLine env pcb frame).2.pcbDeinit pcb) : Prioritized qs c' := by
  obtain ⟨hqueue, hsame⟩ := hload.executeLine env
  have hlive : c.live = pcb :: c'.live := by
    rw [live_running hrun, live_idle hidle, hm]
    exact congrArg (pcb :: ·) hqueue.symm
  have hpcbs : c'.machine.pcbs = (m.executeLine env pcb frame).2.pcbs := by
    rw [hm]
    rfl
  have horder := h.order
  have hnodup := h.nodup
  have hfew := h.few
  rw [hlive] at horder hnodup hfew
  refine ⟨hpolicy.trans h.policy, fun q hq => ?_, (List.nodup_cons.mp hnodup).2, ?_, ?_, ?_, ?_⟩
  · apply h.mem
    rw [hlive]
    exact List.mem_cons_of_mem pcb hq
  · exact (Nat.le_succ _).trans hfew
  · apply (List.pairwise_cons.mp horder).2.imp
    intro p q hpq
    rw [hpcbs, (hsame p).1, (hsame q).1]
    exact hpq
  · intro q hq
    rw [hpcbs, (hsame q).1]
    exact h.nonneg q hq
  · intro q hq hout
    rw [hpcbs]
    by_cases hqp : q = pcb
    · rw [hqp]
      exact hend
    · rw [(hsame q).2.1, (hsame q).2.2 hqp]
      apply h.released q hq
      rw [hlive]
      exact List.not_mem_cons_of_ne_of_not_mem hqp hout

/-- What an iteration that does not release the process does to the scores. -/
theorem requeued (h : Prioritized qs c) (hrun : c.running = some (pcb, i)) (env : Env s L W)
    (hload : c.Loads pcb frame m) : (m.executeLine env pcb frame).2.Requeued pcb
      ((m.executeLine env pcb frame).2.ageReadyQueue.appendleftProcess pcb).sortReadyQueue := by
  have hqueue := (hload.executeLine env).1
  have hnodup := h.nodup
  have hfew := h.few
  rw [live_running hrun, ← hqueue] at hnodup hfew
  exact Machine.requeue_spec hnodup hfew

theorem requeue (h : Prioritized qs c) (hrun : c.running = some (pcb, i)) (hload : c.Loads pcb frame m)
    (hpolicy : c'.policy = c.policy) (hidle : c'.running = none)
    (hback : (m.executeLine env pcb frame).2.Requeued pcb c'.machine) : Prioritized qs c' := by
  obtain ⟨hqueue, hsame⟩ := hload.executeLine env
  have hperm : c'.live.Perm c.live := by
    rw [live_running hrun, live_idle hidle, ← hqueue]
    exact hback.perm
  have hpcbs : ∀ q, ∃ score, (0 ≤ (c.machine.pcbs q).jobScore → 0 ≤ score) ∧
      c'.machine.pcbs q = ((m.executeLine env pcb frame).2.pcbs q).withScore score := by
    intro q
    rw [← (hsame q).1]
    by_cases hq : q ∈ (m.executeLine env pcb frame).2.queue
    · refine ⟨_, fun hnonneg => ?_, hback.aged q hq⟩
      rw [PCB.agedScore_eq hnonneg]
      exact le_max_right _ _
    · exact ⟨_, id, hback.others q hq⟩
  refine ⟨hpolicy.trans h.policy, fun q hq => h.mem q (hperm.mem_iff.mp hq),
    hperm.nodup_iff.mpr h.nodup, ?_, ?_, ?_, ?_⟩
  · rw [hperm.length_eq]
    exact h.few
  · rw [live_idle hidle]
    exact hback.order
  · intro q hq
    obtain ⟨score, hscore, hq'⟩ := hpcbs q
    rw [hq']
    exact hscore (h.nonneg q hq)
  · intro q hq hout
    have hout : q ∉ c.live := fun hin => hout (hperm.mem_iff.mpr hin)
    have hqp : q ≠ pcb := by
      rintro rfl
      rw [live_running hrun] at hout
      exact hout List.mem_cons_self
    obtain ⟨score, -, hq'⟩ := hpcbs q
    rw [hq']
    exact ((hsame q).2.2 hqp).trans ((h.released q hq hout).trans (hsame q).2.1.symm)

theorem step (h : Prioritized qs c) (hstep : c.step env = .ok (some c')) : Prioritized qs c' := by
  obtain ⟨hpolicy, ⟨pcb, queue, hidle, hqueue, hrun, hm⟩ | ⟨pcb, i, hrun, -⟩⟩ :=
    Sched.step_cases hstep
  · exact h.pop hidle hqueue hpolicy hrun hm
  · obtain ⟨hiter, hidle⟩ := Sched.iteration_of_step hrun h.policy hstep
    generalize hm : c'.machine = m at hiter
    cases hiter with
    | release frame m₁ hload hend => exact h.release hrun hload hend hpolicy hidle hm
    | requeue frame m₁ hload hmore =>
      have hback := h.requeued hrun env hload
      rw [← hm] at hback
      exact h.requeue hrun hload hpolicy hidle hback

theorem steps (h : Prioritized qs c) (hrun : Steps env (fun _ => True) c c') : Prioritized qs c' := by
  induction hrun with
  | refl => exact h
  | step _ _ hstep ih => exact ih.step hstep

/-- The running process has a score that no process with lines left is below. -/
theorem least (h : Prioritized qs c) (hrun : c.running = some (pcb, i)) (hq : q ∈ qs)
    (hmore : (c.machine.pcbs q).programCounter ≠ (c.machine.pcbs q).fileLength) :
    (c.machine.pcbs pcb).jobScore ≤ (c.machine.pcbs q).jobScore := by
  have hlive : q ∈ c.live := by
    by_contra hout
    exact hmore (h.released q hq hout)
  have horder := h.order
  rw [live_running hrun] at hlive horder
  rcases List.mem_cons.mp hlive with rfl | hq
  · exact le_refl _
  · exact (List.pairwise_cons.mp horder).1 q hq

end Prioritized

/-- With at most `MAX_NUM_PROGRAMS` processes: no score gets negative; a process with the lowest
score of those with lines left runs; and when it has lines left after that, its score is what it
was, those of the waiting processes are one less but not below 0, and it runs next unless one of
them is less now. -/
theorem aging_priorities (hnodup : m.queue.Nodup) (hfew : m.queue.length ≤ maxNumPrograms)
    (hscore : ∀ q ∈ m.queue, 0 ≤ (m.pcbs q).jobScore)
    (hsteps : Steps env (fun _ => True) (schedule env .aging m) c) :
    (∀ q ∈ m.queue, 0 ≤ (c.machine.pcbs q).jobScore) ∧
    ∀ pcb i, c.running = some (pcb, i) →
      (∀ q ∈ m.queue, (c.machine.pcbs q).programCounter ≠ (c.machine.pcbs q).fileLength →
        (c.machine.pcbs pcb).jobScore ≤ (c.machine.pcbs q).jobScore) ∧
      ∀ c', c.step env = .ok (some c') →
        (c'.machine.pcbs pcb).programCounter ≠ (c'.machine.pcbs pcb).fileLength →
        (c'.machine.pcbs pcb).jobScore = (c.machine.pcbs pcb).jobScore ∧
        (∀ q ∈ c.machine.queue,
          (c'.machine.pcbs q).jobScore = max ((c.machine.pcbs q).jobScore - 1) 0) ∧
        ((∀ q ∈ c.machine.queue, (c'.machine.pcbs pcb).jobScore ≤ (c'.machine.pcbs q).jobScore) →
          ∃ c'', c'.step env = .ok (some c'') ∧ c''.running = some (pcb, 0)) := by
  have h : Prioritized m.queue c := (Prioritized.start hnodup hfew hscore).steps hsteps
  refine ⟨h.nonneg, fun pcb i hrun => ⟨fun q hq hmore => h.least hrun hq hmore, ?_⟩⟩
  intro c' hstep hmore
  obtain ⟨hiter, hidle⟩ := Sched.iteration_of_step hrun h.policy hstep
  generalize hm : c'.machine = m' at hiter hmore
  cases hiter with
  | release frame m₁ hload hend => exact absurd hend hmore
  | requeue frame m₁ hload _ =>
    -- The process goes back to the queue, which is sorted and aged behind it.
    have hback := h.requeued hrun env hload
    obtain ⟨hqueue, hsame⟩ := hload.executeLine env
    have hout : pcb ∉ c.machine.queue := by
      have hnodup := h.nodup
      rw [Prioritized.live_running hrun] at hnodup
      exact (List.nodup_cons.mp hnodup).1
    rw [← hm] at hback ⊢
    rw [← hqueue] at hout ⊢
    refine ⟨?_, fun q hq => ?_, fun hleast => ?_⟩
    · rw [hback.others pcb hout, (hsame pcb).1]
    · have hq' : q ∈ m.queue := by
        apply h.mem
        rw [Prioritized.live_running hrun, ← hqueue]
        exact List.mem_cons_of_mem pcb hq
      have hnonneg : 0 ≤ ((m₁.executeLine env pcb frame).2.pcbs q).jobScore := by
        rw [(hsame q).1]
        exact h.nonneg q hq'
      rw [hback.aged q hq, PCB.withScore_jobScore, PCB.agedScore_eq hnonneg, (hsame q).1]
    · obtain ⟨queue, hqueue'⟩ : ∃ queue, c'.machine.queue = pcb :: queue := by
        have hfirst := hback.first hleast
        cases hq : c'.machine.queue with
        | nil =>
          rw [hq] at hfirst
          cases hfirst
        | cons p queue =>
          rw [hq, List.getElem?_cons_zero, Option.some.injEq] at hfirst
          exact ⟨queue, by rw [hfirst]⟩
      obtain ⟨c'', hnext, hrun'', -⟩ := Sched.pop env hidle hqueue'
      exact ⟨c'', hnext, hrun''⟩

/-- Two programs of two lines in one frame. -/
theorem aging_priorities_pair : ∃ m₁, buildReadyQueue (Env.upward oneFrame ℕ fun _ => none) twoLines
      [some "a", some "b"] (booted oneFrame) = .ok (0, m₁) ∧ m₁.queue = [1, 2] ∧
    ∀ c, Steps (Env.upward oneFrame ℕ fun _ => none) (fun _ => True)
      (schedule (Env.upward oneFrame ℕ fun _ => none) .aging m₁) c →
        ∀ q ∈ m₁.queue, 0 ≤ (c.machine.pcbs q).jobScore := by
  have hcheck : ((buildReadyQueue (Env.upward oneFrame ℕ fun _ => none) twoLines
      [some "a", some "b"] (booted oneFrame)).toOption.any fun r => r.1 = 0 ∧ r.2.queue = [1, 2] ∧
        ∀ q ∈ r.2.queue, 0 ≤ (r.2.pcbs q).jobScore) = true := by
    decide +kernel
  obtain ⟨⟨code, m₁⟩, hr, rfl, hqueue, hscore⟩ := Exec.exists_of_any hcheck
  have hqueue : m₁.queue = [1, 2] := hqueue
  refine ⟨m₁, hr, hqueue, fun c hsteps => ?_⟩
  exact (aging_priorities (by rw [hqueue]; decide) (by rw [hqueue]; decide) hscore hsteps).1

end PicoShell.Scheduling
