import PicoShell.Scheduling.Execution

namespace PicoShell.Scheduling

variable {s : Sizes} {L W : Type} {env : Env s L W} {m m' m₀ m₁ : Machine s L W}
  {c c' : Sched s L W} {r : List ℕ} {pcb page q : ℕ} {frame : Fin s.numFrames} {policy : Policy}
  {files : String → Option (List L)} {programs : List (Option String)} {code : ℤ}

/-- Every mapping of a live process is the one in the frame table, and every page can be loaded. -/
structure Exclusive (m : Machine s L W) : Prop where
  entry : ∀ q ∈ m.allocated, ∀ page f, (m.pcbs q).pageTable page = some f →
    m.frameTable f = some (q, page)
  contents : ∀ q ∈ m.allocated, ∀ line < (m.pcbs q).fileLength,
    (m.pcbs q).fileContents line = (m.pcbs q).script[line]?

namespace Exclusive

theorem soundFault (h : Exclusive c.machine) (scope : Scope s)
    (hcons : Consistent (Consistent.outside c.running) c.machine) : c.SoundFault scope := by
  rintro pcb ⟨i, hrun, -⟩
  refine ⟨fun o _ hlt => h.contents pcb (hcons.of_running hrun).2 _ hlt, ?_⟩
  intro _ entry hentry q hq page hpage _
  have := h.entry q hq page _ hpage
  rwa [hentry, Option.some.injEq] at this

theorem evictFrame (h : Exclusive m) {entry : ℕ × ℕ} (hentry : m.frameTable frame = some entry) :
    Exclusive (m.evictFrame frame entry) ∧
      ∀ q ∈ m.allocated, ∀ i, ((m.evictFrame frame entry).pcbs q).pageTable i ≠ some frame := by
  have hnot : ∀ q ∈ m.allocated, ∀ i,
      ((m.evictFrame frame entry).pcbs q).pageTable i ≠ some frame := by
    intro q hq i hi
    rw [Machine.evictFrame_pcbs] at hi
    simp only [PCB.withPages_pageTable] at hi
    split_ifs at hi with hgone
    have := h.entry q hq i frame hi
    rw [hentry, Option.some.injEq] at this
    exact hgone ⟨congrArg Prod.fst this.symm, congrArg Prod.snd this.symm⟩
  refine ⟨⟨?_, ?_⟩, hnot⟩
  · intro q hq page f hf
    have hframe : f ≠ frame := by
      rintro rfl
      exact hnot q hq page hf
    rw [Machine.evictFrame_pcbs] at hf
    simp only [PCB.withPages_pageTable] at hf
    split_ifs at hf
    rw [Machine.evictFrame_frameTable, if_neg hframe]
    exact h.entry q hq page f hf
  · intro q hq
    rw [Machine.evictFrame_pcbs]
    exact h.contents q hq

theorem loadPage (h : Exclusive m) (hfree : ∀ q ∈ m.allocated, ∀ i,
    (m.pcbs q).pageTable i ≠ some frame) : Exclusive (m.loadPage pcb page frame) := by
  refine ⟨?_, ?_⟩
  · intro q hq i f hf
    rw [Machine.loadPage_pcbs] at hf
    simp only [PCB.withPages_pageTable] at hf
    rw [Machine.loadPage_frameTable]
    split_ifs at hf with hnew
    · rw [if_pos (Option.some.inj hf).symm, hnew.1, hnew.2]
    · have hframe : f ≠ frame := by
        rintro rfl
        exact hfree q hq i hf
      rw [if_neg hframe]
      exact h.entry q hq i f hf
  · intro q hq
    rw [Machine.loadPage_pcbs]
    exact h.contents q hq

theorem available (hmap : m.Mapped (Scope.all s)) (hcons : Consistent r m)
    (hfind : m.fstoreFindAvailableFrame = some frame) :
    ∀ q ∈ m.allocated, ∀ i, (m.pcbs q).pageTable i ≠ some frame :=
  fun q hq i hi => hmap.available hcons hfind q hq i hi trivial

theorem faults (h : Exclusive c.machine) (hmap : c.machine.Mapped (Scope.all s))
    (hcons : Consistent r c.machine) (hfault : c.Faults pcb m') : Exclusive m' := by
  rcases hfault with rfl | ⟨-, frame, hrun⟩
  · exact h
  obtain ⟨m₁, hfree, hload⟩ := Machine.pageFault_cases hrun
  have hfreed : Exclusive m₁ ∧ ∀ q ∈ m₁.allocated, ∀ i, (m₁.pcbs q).pageTable i ≠ some frame := by
    rcases hfree with ⟨hfind, rfl⟩ | ⟨-, -, entry, hentry, rfl⟩
    · exact ⟨h, available hmap hcons hfind⟩
    · exact h.evictFrame hentry
  rcases hload with ⟨-, rfl⟩ | ⟨-, -, rfl⟩
  · exact hfreed.1
  · exact hfreed.1.loadPage hfreed.2

theorem executes (h : Exclusive m) (hexec : m.Executes env policy pcb m') : Exclusive m' := by
  rcases hexec with ⟨-, rfl⟩ | ⟨frame, rfl, -⟩
  · exact h
  · have hsame := m.executeLine_same env pcb frame
    refine ⟨?_, ?_⟩
    · intro q hq page f hf
      rw [(hsame q).2.2.2.2] at hf
      exact h.entry q hq page f hf
    · intro q hq line hline
      rw [(hsame q).2.2.2.1, (hsame q).2.1]
      rw [(hsame q).2.2.1] at hline
      exact h.contents q hq line hline

theorem ends {running : Option (ℕ × ℕ)} (h : Exclusive m) (hend : m.Ends policy pcb running m') :
    Exclusive m' := by
  obtain ⟨-, htable, -, halloc, hsame⟩ := hend.same
  refine ⟨?_, ?_⟩
  · intro q hq page f hf
    obtain ⟨score, hpcbs⟩ := hsame q
    rw [hpcbs] at hf
    rw [htable]
    exact h.entry q (halloc q hq) page f hf
  · intro q hq
    obtain ⟨score, hpcbs⟩ := hsame q
    rw [hpcbs]
    exact h.contents q (halloc q hq)

theorem step (h : Exclusive c.machine) (hmap : c.machine.Mapped (Scope.all s))
    (hcons : Consistent (Consistent.outside c.running) c.machine)
    (hstep : c.step env = .ok (some c')) : Exclusive c'.machine := by
  obtain ⟨-, ⟨pcb, queue, -, -, -, hm⟩ | ⟨pcb, i, -, -, m₁, m₂, hfault, hexec, hend⟩⟩ :=
    Sched.step_cases hstep
  · rw [hm]
    exact ⟨h.entry, h.contents⟩
  · exact ((h.faults hmap hcons hfault).executes hexec).ends hend

theorem appendInit {lines : List L} {script : String} (h : Exclusive m)
    (hmap : m.Mapped (Scope.all s)) (hcons : Consistent r m) (hlen : lines.length ≤ maxLines)
    (hinit : m.pcbInit env script lines = .ok (pcb, m')) : Exclusive m' := by
  obtain ⟨rfl, hpre⟩ := Machine.pcbInit_ok hinit
  have hfresh := env.malloc_fresh m
  have hnew : ∀ page f, (Machine.newPCB (s := s) m.nextPid script lines).pageTable page ≠ some f :=
    fun _ _ => by simp [Machine.newPCB]
  refine (Machine.preload_induction (P := fun m' => Exclusive m' ∧ m'.Mapped (Scope.all s) ∧
    Consistent (env.malloc m :: r) m' ∧ env.malloc m ∈ m'.allocated) ?_ hpre ⟨⟨?_, ?_⟩, ?_, ?_, ?_⟩).1
  · rintro m₁ page frame ⟨hm, hmap, hc, hmem⟩ hpage - hfind
    have hread : m₁.ReadsScript (env.malloc m) page :=
      fun o _ hlt => hm.contents (env.malloc m) hmem _ hlt
    exact ⟨hm.loadPage (available hmap hc hfind), hmap.loadPage hc hread (hmap.available hc hfind),
      hc.loadPage hpage, hmem⟩
  · intro q hq page f hf
    rcases List.mem_cons.mp hq with rfl | hq
    · rw [Machine.allocate_pcbs, if_pos rfl] at hf
      exact absurd hf (hnew page f)
    · rw [m.allocate_old _ hfresh hq] at hf
      exact h.entry q hq page f hf
  · intro q hq line hline
    rcases List.mem_cons.mp hq with rfl | hq
    · rw [Machine.allocate_pcbs, if_pos rfl]
      rfl
    · rw [m.allocate_old _ hfresh hq] at hline ⊢
      exact h.contents q hq line hline
  · exact hmap.allocate hfresh fun page f hf => absurd hf (hnew page f)
  · exact hcons.allocate hfresh rfl rfl hlen fun page f hf => absurd hf (hnew page f)
  · exact List.mem_cons_self

/-- Processes made of different programs have frames of their own. -/
theorem build (h : Exclusive m) (hmap : m.Mapped (Scope.all s)) (hun : Untouched m₀ m)
    (hnames : programs.reduceOption.Nodup)
    (hnew : ∀ q ∈ m.queue, (m.pcbs q).filename ∉ programs.reduceOption)
    (hrun : buildReadyQueue env files programs m = .ok (code, m')) : Exclusive m' := by
  induction programs generalizing m with
  | nil =>
    rw [← (Exec.ok_inj hrun).2]
    exact h
  | cons program programs ih =>
    cases program with
    | none =>
      rw [List.reduceOption_cons_of_none] at hnames hnew
      exact ih h hmap hun hnames hnew hrun
    | some script =>
      rw [List.reduceOption_cons_of_some] at hnames hnew
      obtain ⟨hscript, hnames⟩ := List.nodup_cons.mp hnames
      rcases buildReadyQueue_cons hrun with ⟨dup, hfind, -⟩ | ⟨-, rfl⟩ |
        ⟨-, contents, pcb, m₁, -, hinit, hrest⟩
      · have hname : (m.pcbs dup).filename = script := by simpa using List.find?_some hfind
        exact absurd (by simp [hname]) (hnew dup (List.mem_of_find?_eq_some hfind))
      · exact h
      · have hlen : (contents.take maxLines).length ≤ maxLines := List.length_take_le _ _
        obtain ⟨hpcb, -, hqueue, -, -, ⟨t, hself⟩, hother⟩ := Machine.pcbInit_spec hinit
        have hexcl := h.appendInit hmap hun.cons hlen hinit
        have hexcl' : Exclusive (m₁.appendProcess pcb) := ⟨hexcl.entry, hexcl.contents⟩
        have hmap₁ := hmap.pcbInit hun.cons hlen hinit
        have hmap' : (m₁.appendProcess pcb).Mapped (Scope.all s) := hmap₁
        refine ih hexcl' hmap' (hun.appendInit hlen hinit) hnames ?_ hrest
        intro q hq
        have hq : q ∈ m₁.queue ++ [pcb] := hq
        show (m₁.pcbs q).filename ∉ _
        rw [hqueue] at hq
        rcases List.mem_append.mp hq with hold | hq
        · have hne := env.ne_malloc hpcb (hun.cons.queue_mem hold)
          rw [hother q hne]
          exact fun hmem => hnew q hold (List.mem_cons_of_mem _ hmem)
        · rw [List.mem_singleton.mp hq, hself]
          exact hscript

end Exclusive

def Machine.AllReadable (m : Machine s L W) : Prop :=
  ∀ q ∈ m.allocated, ∀ line < (m.pcbs q).fileLength, (m.pcbs q).fileContents line ≠ none

theorem Exclusive.allReadable (h : Exclusive m) (hcons : Consistent r m) : m.AllReadable := by
  intro q hq line hline
  rw [h.contents q hq line hline, List.getElem?_eq_getElem (by rwa [← hcons.length q hq])]
  exact Option.some_ne_none _

theorem Machine.pageFault_ok
    (hocc : ∀ f : Fin s.numFrames, m.memory (f * s.frameSize) ≠ none → m.frameTable f ≠ none)
    (hread : m.Readable pcb page) : ∃ res, m.pageFault pcb page = .ok res := by
  rw [pageFault]
  cases hfind : m.fstoreFindAvailableFrame with
  | some frame =>
    obtain ⟨m', hload⟩ := memLoadPageIntoFrame_ok frame hread
    exact ⟨(frame, m'), by simp only [bind, Except.bind, hload]; rfl⟩
  | none =>
    -- all frames are in use, so the oldest one is in the frame table
    have hentry := hocc m.getLruFrame (fstoreFindAvailableFrame_none hfind _)
    obtain ⟨entry, hentry⟩ := Option.ne_none_iff_exists'.mp hentry
    have hread' : (m.evictFrame m.getLruFrame entry).Readable pcb page := by
      unfold Readable
      rw [evictFrame_pcbs]
      exact hread
    obtain ⟨m', hload⟩ := memLoadPageIntoFrame_ok m.getLruFrame hread'
    refine ⟨(m.getLruFrame, m'), ?_⟩
    simp only [memFreeMemoryFrame_eq, hentry, bind, Except.bind, hload]
    rfl

/-- The process that runs is not past its end, nor at it in the ageing scheduler. -/
def Sched.InFile (c : Sched s L W) : Prop :=
  ∀ pcb i, c.running = some (pcb, i) →
    (c.machine.pcbs pcb).programCounter < (c.machine.pcbs pcb).fileLength ∨
    c.policy ≠ .aging ∧ (c.machine.pcbs pcb).programCounter = (c.machine.pcbs pcb).fileLength

theorem Sched.step_ok (hcons : Consistent (Consistent.outside c.running) c.machine)
    (hread : c.machine.AllReadable) (hin : c.InFile) : ∃ o, c.step env = .ok o := by
  rw [step]
  cases hrun : c.running with
  | none =>
    cases c.machine.popProcess with
    | mk popped m =>
      cases popped with
      | none => exact ⟨none, rfl⟩
      | some pcb => exact ⟨_, rfl⟩
  | some r =>
    obtain ⟨pcb, i⟩ := r
    have hok : ∀ x : Exec (Sched s L W), (∃ c', x = .ok c') → ∃ o, some <$> x = .ok o := by
      rintro x ⟨c', rfl⟩
      exact ⟨some c', rfl⟩
    obtain ⟨hcons, hpcb⟩ := hcons.of_running hrun
    -- reading the page table and loading the page both work while a line is left
    have hline : (c.machine.pcbs pcb).programCounter < (c.machine.pcbs pcb).fileLength →
        c.machine.readPage pcb ((c.machine.pcbs pcb).programCounter / s.frameSize) =
          .ok ((c.machine.pcbs pcb).pageTable ((c.machine.pcbs pcb).programCounter / s.frameSize)) ∧
        ∃ res, c.machine.pageFault pcb ((c.machine.pcbs pcb).programCounter / s.frameSize) =
          .ok res := by
      intro hlt
      refine ⟨if_pos (s.page_lt (hlt.trans_le (hcons.short pcb hpcb))), ?_⟩
      exact Machine.pageFault_ok hcons.occupied fun o _ ho => hread pcb hpcb _ ho
    have hfcfs : ∃ c', c.fcfsStep env pcb = .ok c' := by
      rw [fcfsStep]
      split_ifs with hpc
      · obtain ⟨hpage, res, hres⟩ := hline hpc
        simp only [bind, Except.bind, hpage, hres]
        cases (c.machine.pcbs pcb).pageTable _ with
        | none => exact ⟨_, rfl⟩
        | some frame => exact ⟨_, rfl⟩
      · exact ⟨_, rfl⟩
    cases hpolicy : c.policy with
    | fcfs => exact hok _ hfcfs
    | sjf => exact hok _ hfcfs
    | rr timeSlice =>
      apply hok (c.rrStep env timeSlice pcb i)
      rw [rrStep]
      split_ifs with hpc
      · have hlt := (hin pcb i hrun).resolve_right fun hend => hpc.2 hend.2
        obtain ⟨hpage, res, hres⟩ := hline hlt
        simp only [bind, Except.bind, hpage, hres]
        cases (c.machine.pcbs pcb).pageTable _ with
        | none => exact ⟨_, rfl⟩
        | some frame => exact ⟨_, rfl⟩
      · exact ⟨_, rfl⟩
    | aging =>
      have hlt := (hin pcb i hrun).resolve_right fun hend => hend.1 hpolicy
      obtain ⟨hpage, res, hres⟩ := hline hlt
      apply hok (c.agingStep env pcb)
      simp only [agingStep, bind, Except.bind, hpage, hres]
      cases (c.machine.pcbs pcb).pageTable _ with
      | none => exact ⟨_, rfl⟩
      | some frame => exact ⟨_, rfl⟩

theorem Advancing.inFile {qs : List ℕ} {scope : Scope s} (h : Advancing scope qs c)
    (hproper : ∀ q ∈ qs, (c.machine.pcbs q).Proper c.policy) : c.InFile := by
  intro pcb i hrun
  have hpcb := (h.cons.of_running hrun).2
  have hqs := h.progress.mem pcb hpcb
  have hle := (h.progress.lines pcb hqs (hproper pcb hqs)).2
  have hlen := h.progress.length pcb hqs
  by_cases hlt : (c.machine.pcbs pcb).programCounter < (c.machine.pcbs pcb).fileLength
  · exact .inl hlt
  · refine .inr ⟨fun hp => ?_, by omega⟩
    have := h.waiting hp pcb hpcb (hproper pcb hqs hp)
    omega

namespace Advancing

variable {qs queue : List ℕ} {scope : Scope s} {i : ℕ}

theorem running (h : Advancing scope qs c) (hpolicy : c.policy ≠ .aging)
    (hrun : c.running = some (pcb, i)) : Consistent [pcb] c.machine ∧ pcb ∈ qs ∧
      (c.machine.pcbs pcb).programCounter ≤ (c.machine.pcbs pcb).fileLength := by
  obtain ⟨hcons, halloc⟩ := h.cons.of_running hrun
  have hpcb := h.progress.mem pcb halloc
  refine ⟨hcons, hpcb, ?_⟩
  rw [h.progress.length pcb hpcb]
  exact (h.progress.lines pcb hpcb fun hp => absurd hp hpolicy).2

theorem next (h : Advancing scope qs c) (hexcl : Exclusive c.machine) (hpolicy : c.policy ≠ .aging)
    (env : Env s L W) (hrun : c.running = some (pcb, i)) : ∃ c', c.step env = .ok (some c') := by
  have hok : ∃ o, c.step env = .ok o :=
    Sched.step_ok h.cons (hexcl.allReadable h.cons) (h.inFile fun _ _ hp => absurd hp hpolicy)
  obtain ⟨o, ho⟩ := hok
  cases o with
  | none =>
    have := (Sched.step_none ho).1
    rw [hrun] at this
    contradiction
  | some c' => exact ⟨c', ho⟩

end Advancing

end PicoShell.Scheduling
