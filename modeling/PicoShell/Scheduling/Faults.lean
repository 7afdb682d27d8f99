import PicoShell.Scheduling.Exclusive

namespace PicoShell.Scheduling

variable {s : Sizes} {L W : Type} {m m' m₁ : Machine s L W} {c : Sched s L W}
  {pcb page p q i : ℕ} {frame f : Fin s.numFrames}

/-- The string of a line of the program, and the null pointer behind the last one. -/
def PCB.line (x : PCB s L) (k : ℕ) : Option L := if k < x.fileLength then x.fileContents k else none

namespace Machine

/-- No frame is shared: each has a page of a live process, that has it in its page table, and holds
the lines of the page and nothing else, or is free and empty. -/
structure CoherentFrames (m : Machine s L W) : Prop where
  live : ∀ f q page, m.frameTable f = some (q, page) → q ∈ m.allocated
  mirror : ∀ q ∈ m.allocated, ∀ page f,
    (m.pcbs q).pageTable page = some f ↔ m.frameTable f = some (q, page)
  inFile : ∀ f q page, m.frameTable f = some (q, page) →
    page * s.frameSize < (m.pcbs q).fileLength
  lines : ∀ f q page, m.frameTable f = some (q, page) → ∀ o < s.frameSize,
    m.memory (f * s.frameSize + o) = (m.pcbs q).line (page * s.frameSize + o)
  free : ∀ f, m.frameTable f = none → ∀ o < s.frameSize, m.memory (f * s.frameSize + o) = none
  strings : m.AllReadable
  short : ∀ q ∈ m.allocated, (m.pcbs q).fileLength ≤ maxLines

/-- A page was loaded into a frame: the lowest free one, or the least recently used one if there
is none.  Only the process that had the frame loses its mapping. -/
structure Faulted (m : Machine s L W) (pcb page : ℕ) (frame : Fin s.numFrames)
    (m' : Machine s L W) : Prop where
  choice : (m.frameTable frame = none ∧ ∀ f < frame, m.frameTable f ≠ none) ∨
    ((∀ f, m.frameTable f ≠ none) ∧ frame = m.lru.oldest)
  mapped : (m'.pcbs pcb).pageTable page = some frame
  recent : m'.lru = m.lru.touch frame ∧ m'.lru.rank frame = 0
  entries : ∀ q i, (q ≠ pcb ∨ i ≠ page) → (m'.pcbs q).pageTable i =
    if m.frameTable frame = some (q, i) then none else (m.pcbs q).pageTable i
  frameTable : ∀ f, m'.frameTable f = if f = frame then some (pcb, page) else m.frameTable f
  frames : ∀ f, f ≠ frame → ∀ o < s.frameSize,
    m'.memory (f * s.frameSize + o) = m.memory (f * s.frameSize + o)
  processes : m.SameProcesses m'
  coherent : m'.CoherentFrames

namespace CoherentFrames

/-- A frame is in use exactly when its first string is there. -/
theorem first_eq_none (h : m.CoherentFrames) (f : Fin s.numFrames) :
    m.memory (f * s.frameSize) = none ↔ m.frameTable f = none := by
  constructor
  · intro hnone
    by_contra hused
    obtain ⟨entry, hentry⟩ := Option.ne_none_iff_exists'.mp hused
    have hin := h.inFile f entry.1 entry.2 hentry
    have hline := h.lines f entry.1 entry.2 hentry 0 s.frameSize_pos
    rw [Nat.add_zero, Nat.add_zero, PCB.line, if_pos hin, hnone] at hline
    exact h.strings entry.1 (h.live f entry.1 entry.2 hentry) _ hin hline.symm
  · intro hfree
    exact h.free f hfree 0 s.frameSize_pos

theorem available_some (h : m.CoherentFrames) (hfind : m.fstoreFindAvailableFrame = some frame) :
    m.frameTable frame = none ∧ ∀ f < frame, m.frameTable f ≠ none := by
  refine ⟨(h.first_eq_none frame).mp (fstoreFindAvailableFrame_some hfind), fun f hf hfree => ?_⟩
  obtain ⟨-, n, hn, hframe, hbefore⟩ := List.find?_eq_some_iff_getElem.mp hfind
  rw [List.getElem_finRange] at hframe
  have hlt : f.val < n := by
    rw [← hframe] at hf
    exact hf
  have := hbefore f.val hlt
  rw [List.getElem_finRange] at this
  simp [(h.first_eq_none f).mpr hfree] at this

theorem available_none (h : m.CoherentFrames) (hfind : m.fstoreFindAvailableFrame = none)
    (f : Fin s.numFrames) : m.frameTable f ≠ none :=
  fun hfree => fstoreFindAvailableFrame_none hfind f ((h.first_eq_none f).mpr hfree)

theorem frees (h : m.CoherentFrames) (hfree : m.Frees frame m₁) :
    (∀ q i, (m₁.pcbs q).pageTable i =
      if m.frameTable frame = some (q, i) then none else (m.pcbs q).pageTable i) ∧
    (∀ f, f ≠ frame → m₁.frameTable f = m.frameTable f) ∧
    ∀ (f : Fin s.numFrames), ∀ o < s.frameSize, m₁.memory (f * s.frameSize + o) =
      if f = frame then none else m.memory (f * s.frameSize + o) := by
  rcases hfree with ⟨hfind, rfl⟩ | ⟨-, -, entry, hentry, rfl⟩
  · have hnone := (h.available_some hfind).1
    refine ⟨fun q i => by simp [hnone], fun _ _ => rfl, fun f o ho => ?_⟩
    split_ifs with hf
    · rw [hf]
      exact h.free frame hnone o ho
    · rfl
  · refine ⟨fun q i => ?_, fun f hf => ?_, fun f o ho => evictFrame_cell m frame entry f ho⟩
    · rw [evictFrame_pcbs, PCB.withPages_pageTable, hentry]
      apply if_congr _ rfl rfl
      rw [Option.some.injEq, Prod.ext_iff]
      exact ⟨fun ⟨hq, hi⟩ => ⟨hq.symm, hi.symm⟩, fun ⟨hq, hi⟩ => ⟨hq.symm, hi.symm⟩⟩
    · rw [evictFrame_frameTable, if_neg hf]

/-- A page in a frame that was made free: it was empty, so behind the last line it stays so. -/
theorem loadPage_frees (h : m.CoherentFrames) (hfree : m.Frees frame m₁) (pcb page : ℕ) :
    (∀ q i, ((m₁.loadPage pcb page frame).pcbs q).pageTable i =
      if q = pcb ∧ i = page then some frame
      else if m.frameTable frame = some (q, i) then none else (m.pcbs q).pageTable i) ∧
    (∀ f, (m₁.loadPage pcb page frame).frameTable f =
      if f = frame then some (pcb, page) else m.frameTable f) ∧
    ∀ (f : Fin s.numFrames), ∀ o < s.frameSize,
      (m₁.loadPage pcb page frame).memory (f * s.frameSize + o) =
        if f = frame then (m.pcbs pcb).line (page * s.frameSize + o)
        else m.memory (f * s.frameSize + o) := by
  obtain ⟨hpages, htable, hcells⟩ := h.frees hfree
  refine ⟨fun q i => ?_, fun f => ?_, fun f o ho => ?_⟩
  · rw [loadPage_pcbs, PCB.withPages_pageTable, hpages]
  · rw [loadPage_frameTable]
    split_ifs with hf
    · rfl
    · exact htable f hf
  · obtain ⟨t, hold⟩ := hfree.processes.2.2.2 pcb
    rw [loadPage_cell _ _ _ _ _ ho, hcells f o ho, hold, PCB.withPages_fileLength,
      PCB.withPages_fileContents]
    unfold PCB.line
    by_cases hf : f = frame
    · simp [hf]
    · simp [hf]

/-- The page tables and the frame table agree about the page that was loaded, about the one that
was evicted, and about all others. -/
theorem mirror_loadPage (h : m.CoherentFrames) (hnone : (m.pcbs pcb).pageTable page = none)
    (hfree : m.Frees frame m₁) (hq : q ∈ m.allocated) :
    ((m₁.loadPage pcb page frame).pcbs q).pageTable i = some f ↔
      (m₁.loadPage pcb page frame).frameTable f = some (q, i) := by
  obtain ⟨hentry, hframes, -⟩ := h.loadPage_frees hfree pcb page
  have hmirror := h.mirror q hq i
  rw [hentry, hframes]
  by_cases hnew : q = pcb ∧ i = page
  · obtain ⟨rfl, rfl⟩ := hnew
    have hother : m.frameTable f ≠ some (q, i) := by
      intro hf
      rw [← hmirror, hnone] at hf
      contradiction
    by_cases hf : f = frame
    · simp [hf]
    · simp [hf, hother, Ne.symm hf]
  have hne : some (pcb, page) ≠ some (q, i) := by
    intro heq
    obtain ⟨rfl, rfl⟩ := Prod.mk.inj (Option.some.inj heq)
    exact hnew ⟨rfl, rfl⟩
  rw [if_neg hnew]
  by_cases hf : f = frame
  · rw [if_pos hf]
    apply iff_of_false _ hne
    split_ifs with hgone
    · exact not_false
    · rwa [hf, hmirror frame]
  · rw [if_neg hf]
    split_ifs with hgone
    · apply iff_of_false not_false
      rw [← hmirror f, (hmirror frame).mpr hgone, Option.some.injEq]
      exact Ne.symm hf
    · exact hmirror f

theorem loadPage (h : m.CoherentFrames) (hpcb : pcb ∈ m.allocated)
    (hpage : page * s.frameSize < (m.pcbs pcb).fileLength)
    (hnone : (m.pcbs pcb).pageTable page = none) (hfree : m.Frees frame m₁) :
    (m₁.loadPage pcb page frame).CoherentFrames := by
  obtain ⟨-, hframes, hcell⟩ := h.loadPage_frees hfree pcb page
  obtain ⟨halloc, -, -, hsame⟩ := hfree.processes.loadPage pcb page frame
  have hfile : ∀ q, ((m₁.loadPage pcb page frame).pcbs q).fileLength = (m.pcbs q).fileLength ∧
      ((m₁.loadPage pcb page frame).pcbs q).fileContents = (m.pcbs q).fileContents ∧
      ((m₁.loadPage pcb page frame).pcbs q).line = (m.pcbs q).line := by
    intro q
    obtain ⟨t, hq⟩ := hsame q
    rw [hq]
    exact ⟨rfl, rfl, rfl⟩
  refine ⟨?_, ?_, ?_, ?_, ?_, ?_, ?_⟩
  · intro f q i hf
    rw [halloc]
    rw [hframes] at hf
    split_ifs at hf
    · obtain ⟨rfl, -⟩ := Prod.mk.inj (Option.some.inj hf)
      exact hpcb
    · exact h.live f q i hf
  · intro q hq i f
    exact h.mirror_loadPage hnone hfree (halloc ▸ hq)
  · intro f q i hf
    rw [(hfile q).1]
    rw [hframes] at hf
    split_ifs at hf
    · obtain ⟨rfl, rfl⟩ := Prod.mk.inj (Option.some.inj hf)
      exact hpage
    · exact h.inFile f q i hf
  · intro f q i hf o ho
    rw [hcell f o ho, (hfile q).2.2]
    rw [hframes] at hf
    split_ifs at hf ⊢
    · obtain ⟨rfl, rfl⟩ := Prod.mk.inj (Option.some.inj hf)
      rfl
    · exact h.lines f q i hf o ho
  · intro f hf o ho
    rw [hframes] at hf
    split_ifs at hf with hframe
    rw [hcell f o ho, if_neg hframe]
    exact h.free f hf o ho
  · intro q hq line hlt
    rw [(hfile q).1] at hlt
    rw [(hfile q).2.1]
    exact h.strings q (halloc ▸ hq) line hlt
  · intro q hq
    rw [(hfile q).1]
    exact h.short q (halloc ▸ hq)

/-- A page of the file that is not mapped is loaded without fail. -/
theorem pageFault (h : m.CoherentFrames) (hpcb : pcb ∈ m.allocated)
    (hpage : page * s.frameSize < (m.pcbs pcb).fileLength)
    (hnone : (m.pcbs pcb).pageTable page = none) :
    ∃ frame m', m.pageFault pcb page = .ok (frame, m') ∧ m.Faulted pcb page frame m' := by
  have hused : ∀ f : Fin s.numFrames, m.memory (f * s.frameSize) ≠ none → m.frameTable f ≠ none :=
    fun f hf hfree => hf ((h.first_eq_none f).mpr hfree)
  obtain ⟨⟨frame, m'⟩, hfault⟩ := pageFault_ok hused fun o _ ho => h.strings pcb hpcb _ ho
  obtain ⟨m₁, hfree, ⟨hout, -⟩ | ⟨-, -, rfl⟩⟩ := pageFault_cases hfault
  · exact absurd hpage (Nat.not_lt.mpr hout)
  obtain ⟨hentry, hframes, hcell⟩ := h.loadPage_frees hfree pcb page
  refine ⟨frame, _, hfault, ?_, ?_, ?_, fun q i hne => ?_, hframes, fun f hf o ho => ?_,
    pageFault_processes hfault, h.loadPage hpcb hpage hnone hfree⟩
  · rcases hfree with ⟨hfind, -⟩ | ⟨hfind, hframe, -⟩
    · exact .inl (h.available_some hfind)
    · exact .inr ⟨h.available_none hfind, hframe⟩
  · rw [hentry, if_pos ⟨rfl, rfl⟩]
  · have hlru : (m₁.loadPage pcb page frame).lru = m.lru.touch frame := by
      rcases hfree with ⟨-, rfl⟩ | ⟨-, -, entry, -, rfl⟩
      · rfl
      · rfl
    exact ⟨hlru, by rw [hlru, Recency.rank_touch_self]⟩
  · rw [hentry, if_neg]
    intro ⟨hq, hi⟩
    rcases hne with hq' | hi'
    · exact hq' hq
    · exact hi' hi
  · rw [hcell f o ho, if_neg hf]

end CoherentFrames

end Machine

/-- How each scheduler goes on after it has loaded the page: the first two look for the frame
again, round-robin ends the turn, and the ageing scheduler executes the line at once. -/
def Sched.afterFault (c : Sched s L W) (env : Env s L W) (pcb : ℕ) (frame : Fin s.numFrames)
    (m : Machine s L W) : Sched s L W :=
  match c.policy with
  | .fcfs | .sjf => { c with machine := m }
  | .rr _ => rrEndTurn { c with machine := m } pcb
  | .aging => agingLine { c with machine := m } env pcb frame

/-- Every scheduler handles a page fault of a live process by loading the page as `Faulted` says. -/
theorem fault_handling (env : Env s L W) (hcoh : c.machine.CoherentFrames)
    (hfault : c.FaultOf pcb) (hpcb : pcb ∈ c.machine.allocated)
    (hin : (c.machine.pcbs pcb).programCounter < (c.machine.pcbs pcb).fileLength) :
    ∃ frame m, c.machine.Faulted pcb (c.machine.currentPage pcb) frame m ∧
      c.step env = .ok (some (c.afterFault env pcb frame m)) := by
  obtain ⟨i, hrun, hnone, hpolicy⟩ := hfault
  obtain ⟨frame, m, hload, hfaulted⟩ :=
    hcoh.pageFault hpcb (Machine.currentPage_inFile hin) hnone
  refine ⟨frame, m, hfaulted, ?_⟩
  have hlt : c.machine.currentPage pcb < s.maxPageTableSize :=
    s.page_lt (hin.trans_le (hcoh.short pcb hpcb))
  have hread : c.machine.readPage pcb (c.machine.currentPage pcb) = .ok none := by
    rw [Machine.readPage, if_pos hlt, hnone]
  unfold Machine.currentPage at hread hload
  have hfcfs : some <$> c.fcfsStep env pcb = .ok (some { c with machine := m }) := by
    simp only [Sched.fcfsStep, if_pos hin, bind, Except.bind, hread, hload]
    rfl
  cases hp : c.policy with
  | fcfs =>
    have hstep : c.step env = some <$> c.fcfsStep env pcb := by simp only [Sched.step, hrun, hp]
    rw [hstep, hfcfs]
    simp only [Sched.afterFault, hp]
  | sjf =>
    have hstep : c.step env = some <$> c.fcfsStep env pcb := by simp only [Sched.step, hrun, hp]
    rw [hstep, hfcfs]
    simp only [Sched.afterFault, hp]
  | rr ts =>
    rw [hp] at hpolicy
    have hstep : c.step env = some <$> c.rrStep env ts pcb i := by simp only [Sched.step, hrun, hp]
    rw [hstep]
    simp only [Sched.rrStep, if_pos hpolicy, bind, Except.bind, hread, hload, Sched.afterFault, hp]
    rfl
  | aging =>
    have hstep : c.step env = some <$> c.agingStep env pcb := by simp only [Sched.step, hrun, hp]
    rw [hstep]
    simp only [Sched.agingStep, bind, Except.bind, hread, hload, Sched.afterFault, hp]
    rfl

def noFrames : Machine oneFrame ℕ Unit :=
  ((booted oneFrame).allocate 1 (Machine.newPCB 1 "a" [1, 2])).allocate 2
    (Machine.newPCB 2 "b" [3, 4])

theorem noFrames_pcbs (q : ℕ) (hq : q ∈ noFrames.allocated) :
    noFrames.pcbs q = Machine.newPCB 1 "a" [1, 2] ∨ noFrames.pcbs q = Machine.newPCB 2 "b" [3, 4] := by
  unfold noFrames
  rw [Machine.allocate_pcbs, Machine.allocate_pcbs]
  split_ifs with h2 h1
  · exact .inr rfl
  · exact .inl rfl
  · rcases List.mem_pair.mp hq with rfl | rfl
    · exact absurd rfl h2
    · exact absurd rfl h1

theorem noFrames_fresh (q : ℕ) (hq : q ∈ noFrames.allocated) :
    (∀ page, (noFrames.pcbs q).pageTable page = none) ∧ (noFrames.pcbs q).programCounter = 0 ∧
      (noFrames.pcbs q).fileLength = 2 ∧
      ∀ line < 2, (noFrames.pcbs q).fileContents line ≠ none := by
  have hlines : ∀ l : List ℕ, l.length = 2 → ∀ line < 2, l[line]? ≠ none := by
    intro l hl line hline
    rw [List.getElem?_eq_getElem (hl.symm ▸ hline)]
    exact Option.some_ne_none _
  rcases noFrames_pcbs q hq with h | h
  · rw [h]
    exact ⟨fun _ => rfl, rfl, rfl, hlines [1, 2] rfl⟩
  · rw [h]
    exact ⟨fun _ => rfl, rfl, rfl, hlines [3, 4] rfl⟩

theorem coherentFrames_noFrames : noFrames.CoherentFrames := by
  have hfree : ∀ f, noFrames.frameTable f = none := fun _ => rfl
  refine ⟨?_, ?_, ?_, ?_, fun _ _ _ _ => rfl, ?_, ?_⟩
  · intro f q page hf
    rw [hfree] at hf
    contradiction
  · intro q hq page f
    rw [(noFrames_fresh q hq).1, hfree]
    simp
  · intro f q page hf
    rw [hfree] at hf
    contradiction
  · intro f q page hf
    rw [hfree] at hf
    contradiction
  · intro q hq line hline
    obtain ⟨-, -, hlen, hlines⟩ := noFrames_fresh q hq
    rw [hlen] at hline
    exact hlines line hline
  · intro q hq
    rw [(noFrames_fresh q hq).2.2.1]
    decide

/-- The first process gets the only frame, and loses it to the second one. -/
theorem fault_handling_first : ∃ frame m frame' m',
    noFrames.Faulted 1 0 frame m ∧
      (Sched.mk noFrames .fcfs (some (1, 0)) 0).step (Env.upward oneFrame ℕ fun _ => none) =
        .ok (some ((Sched.mk noFrames .fcfs (some (1, 0)) 0).afterFault
          (Env.upward oneFrame ℕ fun _ => none) 1 frame m)) ∧
      (m.pcbs 1).pageTable 0 = some frame ∧ (∀ f, m.frameTable f ≠ none) ∧
    m.Faulted 2 0 frame' m' ∧
      (Sched.mk m (.rr 2) (some (2, 0)) 0).step (Env.upward oneFrame ℕ fun _ => none) =
        .ok (some ((Sched.mk m (.rr 2) (some (2, 0)) 0).afterFault
          (Env.upward oneFrame ℕ fun _ => none) 2 frame' m')) ∧ (m'.pcbs 1).pageTable 0 = none := by
  have hone : ∀ f g : Fin oneFrame.numFrames, f = g := by decide
  obtain ⟨hpages, hpc, hlen, -⟩ := noFrames_fresh 1 (by decide)
  obtain ⟨hpages₂, hpc₂, hlen₂, -⟩ := noFrames_fresh 2 (by decide)
  have hmore : (noFrames.pcbs 1).programCounter < (noFrames.pcbs 1).fileLength := by omega
  obtain ⟨frame, m, hfaulted, hstep⟩ := fault_handling (c := Sched.mk noFrames .fcfs (some (1, 0)) 0)
    (Env.upward oneFrame ℕ fun _ => none) coherentFrames_noFrames ⟨0, rfl, hpages _, hmore⟩
    (by decide) hmore
  have hpage : noFrames.currentPage 1 = 0 := by
    rw [Machine.currentPage, hpc]
    rfl
  have hfaulted : noFrames.Faulted 1 (noFrames.currentPage 1) frame m := hfaulted
  obtain ⟨-, hpc', hlen'⟩ := hfaulted.processes.same 2
  have hmore' : (m.pcbs 2).programCounter < (m.pcbs 2).fileLength := by omega
  have hpage' : m.currentPage 2 = 0 := by
    rw [Machine.currentPage, hpc', hpc₂]
    rfl
  have hnone : (m.pcbs 2).pageTable 0 = none := by
    rw [hfaulted.entries 2 0 (.inl (by decide)), hpages₂]
    split_ifs <;> rfl
  have hlive : 2 ∈ m.allocated := by
    rw [hfaulted.processes.1]
    decide
  obtain ⟨frame', m', hfaulted', hstep'⟩ := fault_handling (c := Sched.mk m (.rr 2) (some (2, 0)) 0)
    (Env.upward oneFrame ℕ fun _ => none) hfaulted.coherent
    ⟨0, rfl, hpage' ▸ hnone, by decide, hmore'.ne⟩ hlive hmore'
  rw [hpage] at hfaulted
  rw [hpage'] at hfaulted'
  have hentry : m.frameTable frame' = some (1, 0) := by
    rw [hfaulted.frameTable, if_pos (hone frame' frame)]
  refine ⟨frame, m, frame', m', hfaulted, hstep, hfaulted.mapped, ?_, hfaulted', hstep', ?_⟩
  · intro f
    rw [hone f frame', hentry]
    exact Option.some_ne_none _
  · rw [hfaulted'.entries 1 0 (.inl (by decide)), if_pos hentry]

end PicoShell.Scheduling
