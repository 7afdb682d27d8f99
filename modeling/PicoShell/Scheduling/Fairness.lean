import PicoShell.Lib.Rounds
import PicoShell.Scheduling.Idle
import PicoShell.Scheduling.RoundRobin

namespace PicoShell.Scheduling

variable {s : Sizes} {L W : Type} {env : Env s L W} {ok : Sched s L W → Prop}
  {m m' m₀ m₁ : Machine s L W} {c c' : Sched s L W} {r : Option (ℕ × ℕ)} {queue : List ℕ}
  {pcb p q i ts : ℕ} {frame : Fin s.numFrames} {es : List (Event L)}

def Event.started : Event L → Option ℕ
  | turn pid => some pid
  | line .. => none

namespace Machine

def numbers (m : Machine s L W) (qs : List ℕ) : List ℕ := qs.map fun q => (m.pcbs q).pid

def since (m₀ m : Machine s L W) : List (Event L) := m.history.drop m₀.history.length

def turns (m₀ m : Machine s L W) : List ℕ := (m₀.since m).filterMap Event.started

/-- The turn of the process started last, and `i` lines were executed in it. -/
def InTurn (m₀ m : Machine s L W) (pcb i : ℕ) : Prop :=
  ∃ before lines, m₀.since m = before ++ .turn (m₀.pcbs pcb).pid :: lines ∧ lines.length = i ∧
    ∀ e ∈ lines, ∃ pc value, e = .line (m₀.pcbs pcb).pid pc value

theorem since_append (hpre : m₀.history <+: m.history) (h : m'.history = m.history ++ es) :
    m₀.since m' = m₀.since m ++ es := by
  rw [since, since, h, List.drop_append_of_le_length hpre.length_le]

theorem turns_append (hpre : m₀.history <+: m.history) (h : m'.history = m.history ++ es) :
    m₀.turns m' = m₀.turns m ++ es.filterMap Event.started := by
  rw [turns, since_append hpre h, List.filterMap_append]
  rfl

theorem InTurn.line (h : m₀.InTurn m pcb i) (hpre : m₀.history <+: m.history) {pc : ℕ}
    {value : Option L} (hm : m'.history = m.history ++ [.line (m₀.pcbs pcb).pid pc value]) :
    m₀.InTurn m' pcb (i + 1) := by
  obtain ⟨before, lines, hsince, hlen, hlines⟩ := h
  refine ⟨before, lines ++ [.line (m₀.pcbs pcb).pid pc value], ?_, by simp [hlen], ?_⟩
  · rw [since_append hpre hm, hsince, List.append_assoc, List.cons_append]
  · intro e he
    rcases List.mem_append.mp he with he | he
    · exact hlines e he
    · exact ⟨pc, value, List.mem_singleton.mp he⟩

theorem InTurn.turns (h : m₀.InTurn m pcb i) : ∃ u, m₀.turns m = u ++ [(m₀.pcbs pcb).pid] := by
  obtain ⟨before, lines, hsince, -, hlines⟩ := h
  have hnone : lines.filterMap Event.started = [] := by
    apply List.filterMap_eq_nil_iff.mpr
    intro e he
    obtain ⟨pc, value, rfl⟩ := hlines e he
    rfl
  refine ⟨before.filterMap Event.started, ?_⟩
  rw [Machine.turns, hsince, List.filterMap_append]
  show _ ++ (m₀.pcbs pcb).pid :: lines.filterMap Event.started = _
  rw [hnone]

def order (m₀ m : Machine s L W) : List ℕ :=
  (m₀.numbers m₀.queue).filter (· ∈ m₀.numbers m.allocated)

def served (m₀ m : Machine s L W) : List ℕ :=
  (m₀.turns m).filter (· ∈ m₀.numbers m.allocated)

theorem order_congr (halloc : m'.allocated = m.allocated) : m₀.order m' = m₀.order m := by
  rw [order, halloc]
  rfl

theorem served_congr (hhist : m'.history = m.history) (halloc : m'.allocated = m.allocated) :
    m₀.served m' = m₀.served m := by
  rw [served, turns, since, hhist, halloc]
  rfl

end Machine

/-- The invariant of a round-robin run that started on the queue of `m₀`. -/
structure Cyclic (m₀ : Machine s L W) (ts : ℕ) (m : Machine s L W) (running : Option (ℕ × ℕ)) :
    Prop where
  cons : Consistent (Consistent.outside running) m
  nodup : (m₀.numbers m₀.queue).Nodup
  mem : ∀ q ∈ m.allocated, q ∈ m₀.queue
  pid : ∀ q, (m.pcbs q).pid = (m₀.pcbs q).pid
  history : m₀.history <+: m.history
  rounds : Rounds (m₀.order m) (m₀.served m ++ m₀.numbers m.queue)
  turn : ∀ pcb i, running = some (pcb, i) → i ≤ ts ∧ m₀.InTurn m pcb i
  lines : ∀ q ∈ m₀.queue, (executed (m₀.pcbs q).pid m.history).map Prod.fst =
    List.range (m.pcbs q).programCounter

namespace Cyclic

theorem numbers_inj (h : Cyclic m₀ ts m r) (hq : q ∈ m₀.queue) (hp : p ∈ m₀.queue)
    (heq : (m₀.pcbs q).pid = (m₀.pcbs p).pid) : q = p :=
  List.inj_on_of_nodup_map h.nodup hq hp heq

theorem nodup_numbers (h : Cyclic m₀ ts m r) : (m₀.numbers m.allocated).Nodup :=
  h.cons.nodup.map_on fun q hq p hp => h.numbers_inj (h.mem q hq) (h.mem p hp)

/-- Everybody that was not released is in the order once. -/
theorem length_order (h : Cyclic m₀ ts m r) : (m₀.order m).length = m.allocated.length := by
  have hperm : (m₀.order m).Perm (m₀.numbers m.allocated) := by
    apply (List.perm_ext_iff_of_nodup (h.nodup.filter _) h.nodup_numbers).mpr
    intro x
    rw [List.mem_filter, decide_eq_true_eq, and_iff_right_iff_imp]
    intro hx
    obtain ⟨q, hq, rfl⟩ := List.mem_map.mp hx
    exact List.mem_map_of_mem (h.mem q hq)
  rw [hperm.length_eq, Machine.numbers, List.length_map]

/-- The last turn that counts is that of the running process. -/
theorem served_running (h : Cyclic m₀ ts m (some (pcb, i))) :
    ∃ u, m₀.served m = u ++ [(m₀.pcbs pcb).pid] := by
  obtain ⟨u, hu⟩ := (h.turn pcb i rfl).2.turns
  have hpcb : (m₀.pcbs pcb).pid ∈ m₀.numbers m.allocated :=
    List.mem_map_of_mem (h.cons.running_mem (List.mem_singleton_self pcb))
  refine ⟨u.filter (· ∈ m₀.numbers m.allocated), ?_⟩
  rw [Machine.served, hu, List.filter_append, List.filter_cons_of_pos (by simpa using hpcb)]
  rfl

theorem start (h : Consistent [] m) (hnew : ∀ q ∈ m.queue, executed (m.pcbs q).pid m.history = [] ∧
    (m.pcbs q).programCounter = 0) : Cyclic m ts m none := by
  have hperm : m.allocated.Perm m.queue := h.perm
  have hnone : m.turns m = [] := by
    rw [Machine.turns, Machine.since, List.drop_length]
    rfl
  have hnodup : (m.numbers m.queue).Nodup := by
    apply (hperm.nodup_iff.mp h.nodup).map_on
    exact fun q hq p hp => h.pids q (h.queue_mem hq) p (h.queue_mem hp)
  refine ⟨h, hnodup, fun q hq => hperm.mem_iff.mp hq, fun _ => rfl, List.prefix_refl _, ?_, by simp,
    ?_⟩
  · have hall : m.order m = m.numbers m.queue := by
      apply List.filter_eq_self.mpr
      intro x hx
      rw [decide_eq_true_eq]
      exact (hperm.map fun q => (m.pcbs q).pid).mem_iff.mpr hx
    rw [hall, Machine.served, hnone]
    exact .start _
  · intro q hq
    rw [(hnew q hq).1, (hnew q hq).2]
    rfl

theorem pop (h : Cyclic m₀ ts m none) (hqueue : m.queue = pcb :: queue)
    (hcons : Consistent [pcb] ({ m with queue := queue }.recordTurn pcb)) :
    Cyclic m₀ ts ({ m with queue := queue }.recordTurn pcb) (some (pcb, 0)) := by
  have hhist : ({ m with queue := queue }.recordTurn pcb).history =
      m.history ++ [.turn (m₀.pcbs pcb).pid] := by
    rw [← h.pid]
    rfl
  have hpcb : (m₀.pcbs pcb).pid ∈ m₀.numbers m.allocated :=
    List.mem_map_of_mem (h.cons.queue_mem (by simp [hqueue]))
  refine ⟨hcons, h.nodup, h.mem, h.pid, ?_, ?_, ?_, ?_⟩
  · rw [hhist]
    exact h.history.trans (List.prefix_append _ _)
  · have hserved : m₀.served ({ m with queue := queue }.recordTurn pcb) =
        m₀.served m ++ [(m₀.pcbs pcb).pid] := by
      rw [Machine.served, Machine.turns_append h.history hhist, List.filter_append]
      show m₀.served m ++ List.filter (· ∈ m₀.numbers m.allocated) [(m₀.pcbs pcb).pid] = _
      rw [List.filter_cons_of_pos (by simpa using hpcb)]
      rfl
    -- the process moves from the queue to the turns
    have hrounds := h.rounds
    rw [hqueue] at hrounds
    rw [hserved, List.append_assoc]
    exact hrounds
  · intro p j hpj
    obtain ⟨rfl, rfl⟩ := Prod.mk.inj (Option.some.inj hpj)
    exact ⟨Nat.zero_le _, m₀.since m, [], Machine.since_append h.history hhist, rfl, by simp⟩
  · intro q hq
    rw [hhist, executed_turn]
    exact h.lines q hq

theorem line (h : Cyclic m₀ ts m (some (pcb, i))) (env : Env s L W) (frame : Fin s.numFrames)
    (hi : i < ts) : Cyclic m₀ ts (m.executeLine env pcb frame).2 (some (pcb, i + 1)) := by
  have hpcb := h.cons.running_mem (List.mem_singleton_self pcb)
  have hhist := m.executeLine_history env pcb frame
  rw [h.pid] at hhist
  have hpid : ∀ q, ((m.executeLine env pcb frame).2.pcbs q).pid = (m₀.pcbs q).pid :=
    fun q => (m.executeLine_same env pcb frame q).1.trans (h.pid q)
  refine ⟨h.cons.executeLine hpcb frame, h.nodup, h.mem, hpid, ?_, ?_, ?_, ?_⟩
  · rw [hhist]
    exact h.history.trans (List.prefix_append _ _)
  · have hserved : m₀.served (m.executeLine env pcb frame).2 = m₀.served m := by
      rw [Machine.served, Machine.turns_append h.history hhist, List.filter_append]
      exact List.append_nil _
    rw [hserved]
    exact h.rounds
  · intro p j hpj
    obtain ⟨rfl, rfl⟩ := Prod.mk.inj (Option.some.inj hpj)
    exact ⟨hi, (h.turn pcb i rfl).2.line h.history hhist⟩
  · intro q hq
    rw [hhist, Machine.executeLine_pcbs]
    split_ifs with hqp
    · rw [hqp, executed_self, List.map_append, h.lines pcb (hqp ▸ hq), PCB.advance_programCounter,
        List.range_succ]
      rfl
    · have hne : (m₀.pcbs pcb).pid ≠ (m₀.pcbs q).pid :=
        fun heq => hqp (h.numbers_inj (h.mem pcb hpcb) hq heq).symm
      rw [executed_other hne]
      exact h.lines q hq

theorem requeue (h : Cyclic m₀ ts m (some (pcb, i))) (hsame : m.SameProcesses m₁)
    (hcons : Consistent [] (m₁.appendProcess pcb)) :
    Cyclic m₀ ts (m₁.appendProcess pcb) none := by
  have hkeep := hsame.same
  obtain ⟨halloc, hqueue, hhist, -⟩ := hsame
  refine ⟨hcons, h.nodup, fun q hq => h.mem q (halloc ▸ hq), fun q => (hkeep q).1.trans (h.pid q),
    ?_, ?_, by simp, ?_⟩
  · show m₀.history <+: m₁.history
    rw [hhist]
    exact h.history
  · have horder : m₀.order (m₁.appendProcess pcb) = m₀.order m := Machine.order_congr halloc
    have hserved : m₀.served (m₁.appendProcess pcb) = m₀.served m :=
      Machine.served_congr hhist halloc
    obtain ⟨u, hu⟩ := h.served_running
    have hrounds := h.rounds
    rw [hu, List.append_assoc, List.singleton_append] at hrounds
    have hlen : ((m₀.pcbs pcb).pid :: m₀.numbers m.queue).length = (m₀.order m).length := by
      rw [h.length_order, h.cons.perm.length_eq]
      simp [Machine.numbers, Consistent.outside]
    have hnext := hrounds.append hlen
    show Rounds _ (_ ++ m₀.numbers (m₁.queue ++ [pcb]))
    rw [horder, hserved, hqueue, hu]
    simpa [Machine.numbers] using hnext
  · intro q hq
    show (executed _ m₁.history).map Prod.fst = List.range (m₁.pcbs q).programCounter
    rw [hhist, (hkeep q).2.1]
    exact h.lines q hq

theorem release (h : Cyclic m₀ ts m (some (pcb, i))) (hcons : Consistent [] (m.pcbDeinit pcb)) :
    Cyclic m₀ ts (m.pcbDeinit pcb) none := by
  have hpcb := h.cons.running_mem (List.mem_singleton_self pcb)
  have hleft : ∀ x, x ∈ m₀.numbers (m.pcbDeinit pcb).allocated ↔
      x ∈ m₀.numbers m.allocated ∧ x ≠ (m₀.pcbs pcb).pid := by
    intro x
    constructor
    · intro hx
      obtain ⟨q, hq, rfl⟩ := List.mem_map.mp hx
      obtain ⟨hne, hq⟩ := h.cons.nodup.mem_erase_iff.mp hq
      refine ⟨List.mem_map_of_mem hq, fun heq => hne ?_⟩
      exact h.numbers_inj (h.mem q hq) (h.mem pcb hpcb) heq
    · rintro ⟨hx, hne⟩
      obtain ⟨q, hq, rfl⟩ := List.mem_map.mp hx
      apply List.mem_map_of_mem
      refine h.cons.nodup.mem_erase_iff.mpr ⟨?_, hq⟩
      rintro rfl
      exact hne rfl
  have hfilter : ∀ l : List ℕ, l.filter (· ∈ m₀.numbers (m.pcbDeinit pcb).allocated) =
      (l.filter (· ∈ m₀.numbers m.allocated)).filter (· ≠ (m₀.pcbs pcb).pid) := by
    intro l
    rw [List.filter_filter]
    apply List.filter_congr
    intro x _
    simp [hleft, Bool.and_comm]
  have hqueue : (m₀.numbers m.queue).filter (· ≠ (m₀.pcbs pcb).pid) = m₀.numbers m.queue := by
    apply List.filter_eq_self.mpr
    intro x hx
    obtain ⟨q, hq, rfl⟩ := List.mem_map.mp hx
    rw [decide_eq_true_eq]
    intro heq
    have := h.numbers_inj (h.mem q (h.cons.queue_mem hq)) (h.mem pcb hpcb) heq
    exact Consistent.running_not_queued h.cons (this ▸ hq)
  refine ⟨hcons, h.nodup, fun q hq => h.mem q (List.mem_of_mem_erase hq), h.pid, h.history, ?_,
    by simp, h.lines⟩
  have hrounds := h.rounds.filter (· ≠ (m₀.pcbs pcb).pid)
  rw [List.filter_append, hqueue] at hrounds
  rw [Machine.order, Machine.served, hfilter, hfilter]
  exact hrounds

theorem step (h : Cyclic m₀ ts c.machine c.running) (hpolicy : c.policy = .rr ts)
    (hstep : c.step env = .ok (some c')) : Cyclic m₀ ts c'.machine c'.running := by
  have hcons := h.cons.step hstep
  cases hrun : c.running with
  | none =>
    rw [hrun] at h
    cases hqueue : c.machine.queue with
    | nil =>
      simp only [Sched.step, hrun, Machine.popProcess, hqueue] at hstep
      cases hstep
    | cons pcb queue =>
      obtain ⟨c₁, hstep₁, hrun₁, hm⟩ := Sched.pop env hrun hqueue
      obtain rfl := Option.some.inj (Except.ok.inj (hstep₁.symm.trans hstep))
      rw [hrun₁, hm] at hcons ⊢
      exact h.pop hqueue hcons
  | some r =>
    obtain ⟨pcb, i⟩ := r
    rw [hrun] at h
    have hturn := Sched.turn_of_step hrun hpolicy hstep
    generalize c'.machine = m' at hturn hcons ⊢
    generalize c'.running = r at hturn hcons ⊢
    cases hturn with
    | line frame hi => exact h.line env frame hi
    | fault frame m hi hmore hpage hfault =>
      exact h.requeue (Machine.pageFault_processes hfault) hcons
    | release hend => exact h.release hcons
    | expire hi hmore =>
      exact h.requeue (.refl c.machine) hcons

theorem run (h : Session env ok (.idle m))
    (hrun : Steps env (fun _ => True) (schedule env (.rr ts) m) c) :
    Cyclic m ts c.machine c.running := by
  induction hrun with
  | refl =>
    obtain ⟨m₀, hun, hevents⟩ := h.untouched
    refine Cyclic.start hun.cons fun q hq => ?_
    obtain ⟨hpid, hpc⟩ := hun.started q (hun.cons.queue_mem hq)
    refine ⟨executed_new fun e he => ?_, hpc⟩
    rw [hun.history] at he
    have := hevents e he
    omega
  | step before _ hstep ih => exact ih.step before.policy_eq hstep

/-- Between two turns of a process everybody else has one. -/
theorem isRotated (h : Cyclic m₀ ts m r) (hq : q ∈ m.allocated) {a b d : List ℕ}
    (hturns : m₀.turns m = a ++ (m₀.pcbs q).pid :: (b ++ (m₀.pcbs q).pid :: d))
    (hb : (m₀.pcbs q).pid ∉ b) :
    ((m₀.pcbs q).pid :: b.filter (· ∈ m₀.numbers m.allocated)).IsRotated (m₀.order m) := by
  have hrounds := h.rounds.of_prefix
  rw [Machine.served, hturns] at hrounds
  apply hrounds.isRotated_filter (h.nodup.filter _) _ hb
  exact decide_eq_true (List.mem_map_of_mem hq)

end Cyclic

/-- A turn ends at the end of the slice or of the program, or with a page fault. -/
theorem Sched.Turn.ends (h : c.Turn env ts pcb i m' r) (hr : r = none) (hi : i ≤ ts) :
    m'.history = c.machine.history ∧
      (i = ts ∨ (c.machine.pcbs pcb).programCounter = (c.machine.pcbs pcb).fileLength ∨
        (c.machine.pcbs pcb).pageTable (c.machine.currentPage pcb) = none) := by
  cases h with
  | line => contradiction
  | fault frame m _ _ hpage hfault =>
    exact ⟨(Machine.pageFault_processes hfault).2.2.1, .inr (.inr hpage)⟩
  | release hend => exact ⟨rfl, .inr (.inl hend)⟩
  | expire hexp => exact ⟨rfl, .inl (Nat.le_antisymm hi hexp)⟩

/-- Only the running process is released, at the end of its program. -/
theorem Sched.Turn.releases (h : c.Turn env ts pcb i m' r) (hnodup : c.machine.allocated.Nodup)
    (hq : q ∈ c.machine.allocated) : q ∉ m'.allocated ↔
      q = pcb ∧ (c.machine.pcbs q).programCounter = (c.machine.pcbs q).fileLength := by
  have hkeep : (c.machine.pcbs pcb).programCounter ≠ (c.machine.pcbs pcb).fileLength →
      ∀ m₁ : Machine s L W, m₁.allocated = c.machine.allocated → (q ∉ m₁.allocated ↔
        q = pcb ∧ (c.machine.pcbs q).programCounter = (c.machine.pcbs q).fileLength) := by
    intro hmore m₁ halloc
    rw [halloc]
    constructor
    · exact fun hnot => absurd hq hnot
    · rintro ⟨rfl, hend⟩
      exact absurd hend hmore
  cases h with
  | line frame _ hmore => exact hkeep hmore _ rfl
  | fault frame m _ hmore _ hfault => exact hkeep hmore _ (Machine.pageFault_processes hfault).1
  | release hend =>
    show q ∉ c.machine.allocated.erase pcb ↔ _
    rw [hnodup.mem_erase_iff]
    constructor
    · intro hnot
      have heq : q = pcb := by
        by_contra hne
        exact hnot ⟨hne, hq⟩
      exact ⟨heq, heq ▸ hend⟩
    · rintro ⟨rfl, -⟩ ⟨hne, -⟩
      exact hne rfl
  | expire _ hmore => exact hkeep hmore _ rfl

/-- What has happened, and happens next, in a state of a round-robin run that started on the queue
of `m`. -/
structure FairTurns (env : Env s L W) (m : Machine s L W) (ts : ℕ) (c : Sched s L W) : Prop where
  distinct : (m.numbers m.queue).Nodup
  queued : ∀ q ∈ c.machine.allocated, q ∈ m.queue
  /-- Between two turns of a process that is not released everybody else who is not released had
  one turn, in the order of the queue. -/
  cyclic : ∀ q ∈ c.machine.allocated, ∀ a b d,
    m.turns c.machine = a ++ (m.pcbs q).pid :: (b ++ (m.pcbs q).pid :: d) → (m.pcbs q).pid ∉ b →
    ((m.pcbs q).pid :: b.filter (· ∈ m.numbers c.machine.allocated)).IsRotated (m.order c.machine)
  slice : ∀ pcb i, c.running = some (pcb, i) → i ≤ ts ∧ m.InTurn c.machine pcb i
  ends : ∀ pcb i c', c.running = some (pcb, i) → c.step env = .ok (some c') → c'.running = none →
    c'.machine.history = c.machine.history ∧
      (i = ts ∨ (c.machine.pcbs pcb).programCounter = (c.machine.pcbs pcb).fileLength ∨
        (c.machine.pcbs pcb).pageTable (c.machine.currentPage pcb) = none)
  /-- A process is released when all its lines were executed, each once. -/
  released : ∀ c', c.step env = .ok (some c') → ∀ q ∈ c.machine.allocated,
    (q ∉ c'.machine.allocated ↔ (∃ i, c.running = some (q, i)) ∧
      (executed (m.pcbs q).pid c.machine.history).map Prod.fst = List.range (m.pcbs q).script.length)
  gone : ∀ c', Steps env (fun _ => True) c c' → ∀ q, q ∉ c.machine.allocated →
    q ∉ c'.machine.allocated ∧ q ∉ c'.machine.queue

theorem Cyclic.releases (h : Cyclic m₀ ts c.machine c.running) (hpolicy : c.policy = .rr ts)
    (hstep : c.step env = .ok (some c')) (hq : q ∈ c.machine.allocated) :
    q ∉ c'.machine.allocated ↔ (∃ i, c.running = some (q, i)) ∧
      (executed (m₀.pcbs q).pid c.machine.history).map Prod.fst =
        List.range (c.machine.pcbs q).script.length := by
  rw [h.lines q (h.mem q hq), ← h.cons.length q hq]
  cases hrun : c.running with
  | none =>
    obtain ⟨-, ⟨pcb, queue, -, -, -, hm⟩ | ⟨pcb, i, hrun', -⟩⟩ := Sched.step_cases hstep
    · rw [hm]
      constructor
      · exact fun hnot => absurd hq hnot
      · rintro ⟨⟨i, hi⟩, -⟩
        contradiction
    · rw [hrun] at hrun'
      contradiction
  | some r =>
    obtain ⟨pcb, i⟩ := r
    rw [(Sched.turn_of_step hrun hpolicy hstep).releases h.cons.nodup hq]
    constructor
    · rintro ⟨rfl, hend⟩
      exact ⟨⟨i, rfl⟩, congrArg List.range hend⟩
    · rintro ⟨⟨j, hj⟩, hend⟩
      have hlen := congrArg List.length hend
      rw [List.length_range, List.length_range] at hlen
      exact ⟨(congrArg Prod.fst (Option.some.inj hj)).symm, hlen⟩

theorem Sched.step_allocated (hstep : c.step env = .ok (some c')) (hq : q ∈ c'.machine.allocated) :
    q ∈ c.machine.allocated := by
  obtain ⟨-, ⟨pcb, queue, -, -, -, hm⟩ | ⟨pcb, i, -, -, m₁, m₂, hfault, hexec, hend⟩⟩ :=
    Sched.step_cases hstep
  · rw [hm] at hq
    exact hq
  · have hq₂ := hend.same.2.2.2.1 q hq
    rw [← hfault.same.1]
    rcases hexec with ⟨-, rfl⟩ | ⟨frame, rfl, -⟩
    · exact hq₂
    · exact hq₂

theorem Steps.allocated {ok : Sched s L W → Prop} (h : Steps env ok c c')
    (hq : q ∈ c'.machine.allocated) : q ∈ c.machine.allocated := by
  induction h with
  | refl => exact hq
  | step _ _ hstep ih => exact ih (Sched.step_allocated hstep hq)

/-- After any calls of `exec`, with any duplicates in the queue, every state of a round-robin run
is as it should be. -/
theorem round_robin_fair (h : Session env ok (.idle m))
    (hrun : Steps env (fun _ => True) (schedule env (.rr ts) m) c) : FairTurns env m ts c := by
  have hcyc := Cyclic.run h hrun
  have hpolicy : c.policy = .rr ts := hrun.policy_eq
  have hscript : ∀ q, (c.machine.pcbs q).script = (m.pcbs q).script := fun q => (hrun.same q).script
  refine ⟨hcyc.nodup, hcyc.mem, fun q hq a b d => hcyc.isRotated hq, hcyc.turn, ?_, ?_, ?_⟩
  · intro pcb i c' hrunning hstep hidle
    have hturn := Sched.turn_of_step hrunning hpolicy hstep
    exact hturn.ends hidle (hcyc.turn pcb i hrunning).1
  · intro c' hstep q hq
    rw [← hscript]
    exact hcyc.releases hpolicy hstep hq
  · intro c' hsteps q hq
    have hout : q ∉ c'.machine.allocated := fun hmem => hq (hsteps.allocated hmem)
    have hcons := (Cyclic.run h (hrun.trans hsteps)).cons
    exact ⟨hout, fun hmem => hout (hcons.queue_mem hmem)⟩

/-- Two programs of two lines in one frame: the second one loses its page to the first one, and
both have another turn. -/
theorem round_robin_fair_pair : ∃ m c, buildReadyQueue (Env.upward oneFrame ℕ fun _ => none)
      twoLines [some "a", some "b"] (booted oneFrame) = .ok (0, m) ∧
    runSteps (Env.upward oneFrame ℕ fun _ => none) 6
      (schedule (Env.upward oneFrame ℕ fun _ => none) (.rr 1) m) = some c ∧
    m.turns c.machine = [1, 2, 1] ∧ FairTurns (Env.upward oneFrame ℕ fun _ => none) m 1 c := by
  have hcheck : ((buildReadyQueue (Env.upward oneFrame ℕ fun _ => none) twoLines
      [some "a", some "b"] (booted oneFrame)).toOption.any fun r => r.1 = 0 ∧
        (runSteps (Env.upward oneFrame ℕ fun _ => none) 6
          (schedule (Env.upward oneFrame ℕ fun _ => none) (.rr 1) r.2)).any fun c =>
            r.2.turns c.machine = [1, 2, 1]) = true := by
    decide +kernel
  obtain ⟨⟨code, m⟩, hrun, rfl, hrest⟩ := Exec.exists_of_any hcheck
  obtain ⟨c, hc, hturns⟩ := exists_of_any hrest
  have hsession := (session_booted oneFrame _ fun _ => True).build hrun
  exact ⟨m, c, hrun, hc, hturns, round_robin_fair hsession (.of_runSteps hc)⟩

end PicoShell.Scheduling
