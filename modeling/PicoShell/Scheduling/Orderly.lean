import PicoShell.Scheduling.Suspended

/-! Every process has executed the first lines of its program and nothing else, and was released
at its end, whichever schedulers came and went. -/

namespace PicoShell.Scheduling

variable {s : Sizes} {L W : Type} {env : Env s L W} {m m' m₀ : Machine s L W} {c c' : Sched s L W}
  {r : List ℕ} {pcb q i : ℕ} {frame : Fin s.numFrames} {policy : Policy} {S S' : ℕ → List L}
  {files : String → Option (List L)}

/-- The process has executed its lines in front of the program counter, in order. -/
def PCB.InOrder (x : PCB s L) (history : List (Event L)) : Prop :=
  executed x.pid history = firstLines x.script x.programCounter ∧
    x.programCounter ≤ x.script.length

/-- Processes do what their programs say; `S` has the programs of all numbers given so far. -/
structure Orderly (S : ℕ → List L) (m : Machine s L W) : Prop where
  mapped : m.Mapped (Scope.all s)
  excl : Exclusive m
  queued : ∀ q ∈ m.queue, (m.pcbs q).programCounter < (m.pcbs q).script.length
  programs : ∀ q ∈ m.allocated, (m.pcbs q).script = S (m.pcbs q).pid
  lines : ∀ q ∈ m.allocated, (m.pcbs q).InOrder m.history
  done : ∀ p < m.nextPid, (∀ q ∈ m.allocated, (m.pcbs q).pid ≠ p) →
    executed p m.history = firstLines (S p) (S p).length

/-- With exclusive frames every page fault is sound, wherever the other processes are. -/
theorem Exclusive.soundFault_of_mem (h : Exclusive c.machine) (scope : Scope s)
    (hrun : ∀ pcb i, c.running = some (pcb, i) → pcb ∈ c.machine.allocated) :
    c.SoundFault scope := by
  rintro pcb ⟨i, hpcb, -⟩
  refine ⟨fun o _ hlt => h.contents pcb (hrun pcb i hpcb) _ hlt, ?_⟩
  intro _ entry hentry q hq page hpage _
  have := h.entry q hq page _ hpage
  rwa [hentry, Option.some.injEq] at this

theorem orderly_memInit (heap : ℕ → PCB s L) (world : W) :
    Orderly (fun _ => []) (memInit heap world) where
  mapped _ hq := absurd hq List.not_mem_nil
  excl := ⟨fun _ hq => absurd hq List.not_mem_nil, fun _ hq => absurd hq List.not_mem_nil⟩
  queued _ hq := absurd hq List.not_mem_nil
  programs _ hq := absurd hq List.not_mem_nil
  lines _ hq := absurd hq List.not_mem_nil
  done _ _ _ := rfl

namespace Orderly

theorem of_rests (h : Orderly S m) (hmap : m'.Mapped (Scope.all s)) (hexcl : Exclusive m')
    (halloc : m'.allocated = m.allocated) (hqueue : ∀ q ∈ m'.queue, q ∈ m.queue)
    (hnext : m'.nextPid = m.nextPid) (hhist : ∀ p, executed p m'.history = executed p m.history)
    (hrests : ∀ q, (m'.pcbs q).Rests (m.pcbs q)) : Orderly S m' where
  mapped := hmap
  excl := hexcl
  queued q hq := by
    rw [(hrests q).programCounter, (hrests q).script]
    exact h.queued q (hqueue q hq)
  programs q hq := by
    rw [(hrests q).pid, (hrests q).script]
    exact h.programs q (halloc ▸ hq)
  lines q hq := by
    unfold PCB.InOrder
    rw [hhist, (hrests q).pid, (hrests q).script, (hrests q).programCounter]
    exact h.lines q (halloc ▸ hq)
  done p hp hfree := by
    rw [hhist]
    apply h.done p (hnext ▸ hp)
    intro q hq
    rw [← (hrests q).pid]
    exact hfree q (halloc ▸ hq)

theorem withWorld (h : Orderly S m) (world : W) : Orderly S { m with world := world } :=
  h.of_rests h.mapped ⟨h.excl.entry, h.excl.contents⟩ rfl (fun _ hq => hq) rfl (fun _ => rfl)
    fun _ => .refl _

theorem accessFrame (h : Orderly S m) (frame : Fin s.numFrames) : Orderly S (m.accessFrame frame) :=
  h.of_rests h.mapped ⟨h.excl.entry, h.excl.contents⟩ rfl (fun _ hq => hq) rfl (fun _ => rfl)
    fun _ => .refl _

theorem reorder (h : Orderly S m) {queue : List ℕ} (hperm : queue.Perm m.queue) :
    Orderly S { m with queue := queue } :=
  h.of_rests h.mapped ⟨h.excl.entry, h.excl.contents⟩ rfl (fun _ hq => hperm.mem_iff.mp hq) rfl
    (fun _ => rfl) fun _ => .refl _

theorem pop (h : Orderly S m) {queue : List ℕ} (hqueue : m.queue = pcb :: queue) :
    Orderly S ({ m with queue := queue }.recordTurn pcb) := by
  refine h.of_rests h.mapped ⟨h.excl.entry, h.excl.contents⟩ rfl ?_ rfl (fun _ => executed_turn _)
    fun _ => .refl _
  intro q hq
  rw [hqueue]
  exact List.mem_cons_of_mem _ hq

theorem faults (h : Orderly S c.machine) (hcons : Consistent r c.machine)
    (hrun : ∀ pcb i, c.running = some (pcb, i) → pcb ∈ c.machine.allocated)
    (hfault : c.Faults pcb m) : Orderly S m := by
  have hmap := h.mapped.faults hcons (h.excl.soundFault_of_mem (Scope.all s) hrun) hfault
  have hexcl := h.excl.faults h.mapped hcons hfault
  obtain ⟨halloc, hqueue, hhist, -⟩ := hfault.same
  refine h.of_rests hmap hexcl halloc ?_ hfault.nextPid (fun p => by rw [hhist]) hfault.rests
  intro q hq
  rwa [← hqueue]

/-- A process that is released has come to its end; one that is put back has not. -/
theorem leaves {running : Option (ℕ × ℕ)} (h : Orderly S m) (hcons : Consistent (pcb :: r) m)
    (hend : m.Ends policy pcb running m') : Orderly S m' := by
  have hmap := h.mapped.ends hend
  have hexcl := h.excl.ends hend
  have hpcb := hcons.running_mem List.mem_cons_self
  have hlen := hcons.length pcb hpcb
  have hle := (h.lines pcb hpcb).2
  rcases hend with ⟨-, -, rfl⟩ | ⟨-, hpc, -, rfl⟩ | ⟨-, hpc, rfl | rfl⟩
  · exact h
  · refine ⟨hmap, hexcl, h.queued, ?_, ?_, ?_⟩
    · exact fun q hq => h.programs q (List.mem_of_mem_erase hq)
    · exact fun q hq => h.lines q (List.mem_of_mem_erase hq)
    · intro p hp hfree
      by_cases hself : (m.pcbs pcb).pid = p
      · have hpc : (m.pcbs pcb).programCounter = (m.pcbs pcb).script.length := by omega
        show executed p m.history = _
        rw [← hself, (h.lines pcb hpcb).1, hpc, h.programs pcb hpcb]
      · apply h.done p hp
        intro q hq
        by_cases hqp : q = pcb
        · rwa [hqp]
        · exact hfree q (hcons.nodup.mem_erase_iff.mpr ⟨hqp, hq⟩)
  · refine ⟨hmap, hexcl, fun q hq => ?_, h.programs, h.lines, h.done⟩
    rcases List.mem_append.mp hq with hq | hq
    · exact h.queued q hq
    · rw [List.mem_singleton.mp hq]
      show (m.pcbs pcb).programCounter < (m.pcbs pcb).script.length
      omega
  · obtain ⟨queue, score, hperm, heq⟩ := m.requeue_eq pcb
    rw [heq] at hmap hexcl ⊢
    refine ⟨hmap, hexcl, fun q hq => ?_, h.programs, h.lines, h.done⟩
    show (m.pcbs q).programCounter < (m.pcbs q).script.length
    rcases List.mem_cons.mp (hperm.mem_iff.mp hq) with rfl | hq
    · omega
    · exact h.queued q hq

/-- What is read from the frame is the next line of the program. -/
theorem fetched (h : Orderly S m) (hcons : Consistent r m) (hpcb : pcb ∈ m.allocated)
    (hfetch : m.Fetched policy pcb frame)
    (hready : policy = .aging → (m.pcbs pcb).programCounter < (m.pcbs pcb).script.length) :
    (m.pcbs pcb).programCounter < (m.pcbs pcb).script.length ∧
      m.memory (frame * s.frameSize + (m.pcbs pcb).programCounter % s.frameSize) =
        (m.pcbs pcb).script[(m.pcbs pcb).programCounter]? := by
  obtain ⟨hpc, hpage⟩ := hfetch
  have hlen := hcons.length pcb hpcb
  have hle := (h.lines pcb hpcb).2
  have hlt : (m.pcbs pcb).programCounter < (m.pcbs pcb).script.length := by
    rcases hpc with hpc | hpc
    · exact hready hpc
    · omega
  refine ⟨hlt, ?_⟩
  rcases hpage with hpage | ⟨-, hout⟩
  · exact h.mapped.line hpcb hpage hlt
  · have := Nat.div_mul_le_self (m.pcbs pcb).programCounter s.frameSize
    unfold Machine.currentPage at hout
    omega

/-- The line that is counted is the next one of its process. -/
theorem counted (h : Orderly S m) (hcons : Consistent (pcb :: r) m)
    (hrests : (m.pcbs pcb).Rests (c.machine.pcbs pcb))
    (hqueue : pcb ∉ m.queue)
    (hlt : (c.machine.pcbs pcb).programCounter < (c.machine.pcbs pcb).script.length)
    (hline : c.lineIn pcb frame =
      (c.machine.pcbs pcb).script[(c.machine.pcbs pcb).programCounter]?) :
    Orderly S (c.counted pcb frame m) := by
  have hpcb := hcons.running_mem List.mem_cons_self
  rw [← hrests.programCounter, ← hrests.script] at hlt hline
  have hhist : (c.counted pcb frame m).history = m.history ++ [.line (m.pcbs pcb).pid
      (m.pcbs pcb).programCounter (m.pcbs pcb).script[(m.pcbs pcb).programCounter]?] := by
    rw [← hline, hrests.pid, hrests.programCounter]
    rfl
  -- Counting a line moves the program counter of one process, and adds to the history.
  have hsame : ∀ q, ((c.counted pcb frame m).pcbs q).pid = (m.pcbs q).pid ∧
      ((c.counted pcb frame m).pcbs q).script = (m.pcbs q).script ∧
      ((c.counted pcb frame m).pcbs q).fileLength = (m.pcbs q).fileLength ∧
      ((c.counted pcb frame m).pcbs q).fileContents = (m.pcbs q).fileContents ∧
      ((c.counted pcb frame m).pcbs q).pageTable = (m.pcbs q).pageTable := by
    intro q
    rw [Sched.counted_pcbs]
    split_ifs with hq
    · rw [hq]
      exact ⟨rfl, rfl, rfl, rfl, rfl⟩
    · exact ⟨rfl, rfl, rfl, rfl, rfl⟩
  have hother : ∀ q, q ≠ pcb → (c.counted pcb frame m).pcbs q = m.pcbs q := by
    intro q hq
    rw [Sched.counted_pcbs, if_neg hq]
  refine ⟨?_, ⟨?_, ?_⟩, ?_, ?_, ?_, ?_⟩
  · apply h.mapped.of_same (c.counted pcb frame m) (fun _ hq => hq) rfl
    exact fun q _ => ⟨(hsame q).2.2.2.2, (hsame q).2.1, fun _ _ => trivial⟩
  · intro q hq page f hf
    rw [(hsame q).2.2.2.2] at hf
    exact h.excl.entry q hq page f hf
  · intro q hq line hline
    rw [(hsame q).2.2.1] at hline
    rw [(hsame q).2.2.2.1, (hsame q).2.1]
    exact h.excl.contents q hq line hline
  · intro q hq
    rw [hother q fun heq => hqueue (heq ▸ hq)]
    exact h.queued q hq
  · intro q hq
    rw [(hsame q).1, (hsame q).2.1]
    exact h.programs q hq
  · intro q hq
    unfold PCB.InOrder
    rw [hhist]
    -- By the numbers of the processes the new line is one of `pcb` only.
    by_cases hqp : q = pcb
    · subst hqp
      rw [(hsame q).1, (hsame q).2.1, Sched.counted_pcbs, if_pos rfl, executed_self,
        (h.lines q hpcb).1]
      exact ⟨(firstLines_succ _ _).symm, hlt⟩
    · rw [hother q hqp, executed_other fun heq => hqp (hcons.pids q hq pcb hpcb heq.symm)]
      exact h.lines q hq
  · intro p hp hfree
    have hne : (m.pcbs pcb).pid ≠ p := by
      rw [← (hsame pcb).1]
      exact hfree pcb hpcb
    rw [hhist, executed_other hne]
    apply h.done p hp
    intro q hq
    rw [← (hsame q).1]
    exact hfree q hq

/-- While a line is left, its page is mapped or can be loaded. -/
theorem page_ok (h : Orderly S m) (hcons : Consistent r m) (hpcb : pcb ∈ m.allocated)
    (hlt : (m.pcbs pcb).programCounter < (m.pcbs pcb).fileLength) :
    m.readPage pcb ((m.pcbs pcb).programCounter / s.frameSize) =
        .ok ((m.pcbs pcb).pageTable ((m.pcbs pcb).programCounter / s.frameSize)) ∧
      ∃ res, m.pageFault pcb ((m.pcbs pcb).programCounter / s.frameSize) = .ok res := by
  refine ⟨if_pos (s.page_lt (hlt.trans_le (hcons.short pcb hpcb))), ?_⟩
  exact Machine.pageFault_ok hcons.occupied fun o _ ho => h.excl.allReadable hcons pcb hpcb _ ho

/-- A scheduler always comes to the next line, to another iteration, or to its end. -/
theorem next_ok (h : Orderly S c.machine) (hcons : Consistent r c.machine)
    (hrun : ∀ pcb i, c.running = some (pcb, i) → pcb ∈ c.machine.allocated ∧
      (c.policy = .aging →
        (c.machine.pcbs pcb).programCounter < (c.machine.pcbs pcb).script.length)) :
    ∃ x, c.next = .ok x := by
  rw [Sched.next]
  rcases hrunning : c.running with _ | ⟨pcb, i⟩
  · cases c.machine.popProcess with
    | mk popped m =>
      cases popped with
      | none => exact ⟨.ret, rfl⟩
      | some pcb => exact ⟨_, rfl⟩
  obtain ⟨hpcb, hready⟩ := hrun pcb i hrunning
  have hlen := hcons.length pcb hpcb
  have hle := (h.lines pcb hpcb).2
  have hfetch : ∀ fault : Machine s L W → Sched s L W,
      (c.machine.pcbs pcb).programCounter < (c.machine.pcbs pcb).fileLength →
        ∃ x, c.fetch pcb i fault = .ok x := by
    intro fault hlt
    obtain ⟨hpage, res, hres⟩ := h.page_ok hcons hpcb hlt
    simp only [Sched.fetch, bind, Except.bind, hpage, hres]
    cases (c.machine.pcbs pcb).pageTable _ with
    | none => exact ⟨_, rfl⟩
    | some frame => exact ⟨_, rfl⟩
  have hfcfs : ∃ x, c.fcfsNext pcb i = .ok x := by
    rw [Sched.fcfsNext]
    split_ifs with hpc
    · exact hfetch _ hpc
    · exact ⟨_, rfl⟩
  cases hpolicy : c.policy with
  | fcfs => exact hfcfs
  | sjf => exact hfcfs
  | rr timeSlice =>
    show ∃ x, c.rrNext timeSlice pcb i = .ok x
    rw [Sched.rrNext]
    split_ifs with hpc
    · apply hfetch
      omega
    · exact ⟨_, rfl⟩
  -- This scheduler reads the page without a look at the counter, so the line has to be there.
  | aging =>
    have hlt := hready hpolicy
    rw [← hlen] at hlt
    obtain ⟨hpage, res, hres⟩ := h.page_ok hcons hpcb hlt
    show ∃ x, c.agingNext pcb i = .ok x
    simp only [Sched.agingNext, bind, Except.bind, hpage, hres]
    cases (c.machine.pcbs pcb).pageTable _ with
    | none => exact ⟨_, rfl⟩
    | some frame => exact ⟨_, rfl⟩

end Orderly

/-- Since `m` no process was queued that is empty or has the name of another one in the queue. -/
def Machine.Distinct (m m' : Machine s L W) : Prop :=
  ∀ q ∈ m'.queue, m.nextPid ≤ (m'.pcbs q).pid → (m'.pcbs q).script ≠ [] ∧
    ∀ q' ∈ m'.queue, (m'.pcbs q').filename = (m'.pcbs q).filename → q' = q

namespace Orderly

/-- A new process starts with the lines of its file in front of it. -/
theorem adds (h : Orderly S m) (hcons : Consistent r m) (hadds : m.Adds env files m')
    (hdistinct : m.Distinct m') :
    ∃ S', (∀ p < m.nextPid, S' p = S p) ∧ Orderly S' m' := by
  cases hadds with
  | @dup script dup hfind =>
    -- a duplicate has the name of the process it was copied from
    obtain ⟨hself, hother⟩ := m.pcbDupInit_spec env dup
    have hdup := List.mem_of_find?_eq_some hfind
    have hne : dup ≠ env.malloc m := env.ne_malloc rfl (hcons.queue_mem hdup)
    have hnew := hdistinct (env.malloc m) (List.mem_append_right _ List.mem_cons_self) (by
      show m.nextPid ≤ ((m.pcbDupInit env dup).2.pcbs (env.malloc m)).pid
      rw [hself])
    refine absurd (hnew.2 dup (List.mem_append_left _ hdup) ?_) hne
    show ((m.pcbDupInit env dup).2.pcbs dup).filename =
      ((m.pcbDupInit env dup).2.pcbs (env.malloc m)).filename
    rw [hself, hother dup hne]
  | @init script contents pcb m₁ hfind hfile hinit =>
    have hlen : (contents.take maxLines).length ≤ maxLines := List.length_take_le _ _
    have hmap := h.mapped.pcbInit hcons hlen hinit
    have hexcl := h.excl.appendInit h.mapped hcons hlen hinit
    obtain ⟨hpcb, halloc, hqueue, hhist, hpid, ⟨t, hself⟩, hother⟩ := Machine.pcbInit_spec hinit
    have hold : ∀ q ∈ m.allocated, m₁.pcbs q = m.pcbs q :=
      fun q hq => hother q (env.ne_malloc hpcb hq)
    have hscript : (m₁.pcbs pcb).script ≠ [] := by
      refine (hdistinct pcb (List.mem_append_right _ List.mem_cons_self) ?_).1
      show m.nextPid ≤ (m₁.pcbs pcb).pid
      rw [hself]
      exact Nat.le_refl _
    have hexec : executed m.nextPid m.history = [] :=
      executed_new fun e he => (hcons.events e he).ne
    refine ⟨Function.update S m.nextPid (contents.take maxLines),
      fun p hp => Function.update_of_ne hp.ne _ _, hmap, ⟨hexcl.entry, hexcl.contents⟩, ?_, ?_, ?_, ?_⟩
    · intro q hq
      have hq : q ∈ m₁.queue ++ [pcb] := hq
      show (m₁.pcbs q).programCounter < (m₁.pcbs q).script.length
      rw [hqueue] at hq
      rcases List.mem_append.mp hq with hq | hq
      · rw [hold q (hcons.queue_mem hq)]
        exact h.queued q hq
      · have hpc : (m₁.pcbs pcb).programCounter = 0 := by
          rw [hself]
          rfl
        rw [List.mem_singleton.mp hq, hpc]
        exact List.length_pos_iff.mpr hscript
    · intro q hq
      have hq : q ∈ m₁.allocated := hq
      show (m₁.pcbs q).script = Function.update S m.nextPid _ (m₁.pcbs q).pid
      rw [halloc] at hq
      rcases List.mem_cons.mp hq with rfl | hq
      · rw [hself]
        exact (Function.update_self m.nextPid _ S).symm
      · rw [hold q hq, Function.update_of_ne (hcons.fresh q hq).ne]
        exact h.programs q hq
    · intro q hq
      have hq : q ∈ m₁.allocated := hq
      show (m₁.pcbs q).InOrder m₁.history
      rw [hhist]
      rw [halloc] at hq
      rcases List.mem_cons.mp hq with rfl | hq
      · rw [hself]
        exact ⟨hexec, Nat.zero_le _⟩
      · rw [hold q hq]
        exact h.lines q hq
    · intro p hp hfree
      have hp : p < m₁.nextPid := hp
      have hfree : ∀ q ∈ m₁.allocated, (m₁.pcbs q).pid ≠ p := hfree
      show executed p m₁.history = _
      rw [hhist]
      rw [halloc] at hfree
      have hne : m.nextPid ≠ p := by
        have := hfree pcb List.mem_cons_self
        rwa [hself] at this
      rw [Function.update_of_ne hne.symm]
      apply h.done p (by omega)
      intro q hq
      rw [← hold q hq]
      exact hfree q (List.mem_cons_of_mem _ hq)

theorem loads (h : Orderly S m) (hcons : Consistent r m)
    (hadds : Relation.ReflTransGen (Machine.Adds env files) m m') (hdistinct : m.Distinct m') :
    ∃ S', (∀ p < m.nextPid, S' p = S p) ∧ Orderly S' m' := by
  induction hadds using Relation.ReflTransGen.head_induction_on generalizing S with
  | refl => exact ⟨S, fun _ _ => rfl, h⟩
  | @head m m₁ hadd hrest ih =>
    have hcons₁ := hcons.adds hadd
    have hout := hadd.extends
    have hlater := Machine.extends_of_adds hrest
    -- what was added last is still there in the end
    have hdistinct₁ : m.Distinct m₁ := by
      have hkeep : ∀ q ∈ m₁.queue, q ∈ m'.queue ∧ m'.pcbs q = m₁.pcbs q :=
        fun q hq => ⟨hlater.queue.subset hq, hlater.pcbs q (hcons₁.queue_mem hq)⟩
      intro q hq hpid
      have := hdistinct q (hkeep q hq).1 (by rwa [(hkeep q hq).2])
      rw [(hkeep q hq).2] at this
      refine ⟨this.1, fun q' hq' hname => this.2 q' (hkeep q' hq').1 ?_⟩
      rwa [(hkeep q' hq').2]
    obtain ⟨S₁, hS₁, h₁⟩ := h.adds hcons hadd hdistinct₁
    obtain ⟨S', hS', h'⟩ := ih h₁ hcons₁ fun q hq hpid => hdistinct q hq (hout.nextPid.trans hpid)
    exact ⟨S', fun p hp => (hS' p (hp.trans_le hout.nextPid)).trans (hS₁ p hp), h'⟩

end Orderly

end PicoShell.Scheduling
