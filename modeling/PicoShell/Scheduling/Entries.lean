import PicoShell.Scheduling.Paging

namespace PicoShell.Scheduling

variable {s : Sizes} {L W : Type} {env : Env s L W} {m m' m₁ : Machine s L W} {c : Sched s L W}
  {pcb page : ℕ} {frame : Fin s.numFrames}

/-- Every frame in use has an entry, of an allocated process that has the page in this frame. -/
def Machine.EntriesLive (m : Machine s L W) : Prop :=
  ∀ f : Fin s.numFrames, m.memory (f * s.frameSize) ≠ none → ∃ q page,
    m.frameTable f = some (q, page) ∧ q ∈ m.allocated ∧ (m.pcbs q).pageTable page = some f

/-- The process is in no entry of a frame in use. -/
def Machine.Unlisted (m : Machine s L W) (pcb : ℕ) : Prop :=
  ∀ f : Fin s.numFrames, m.memory (f * s.frameSize) ≠ none → ∀ page,
    m.frameTable f ≠ some (pcb, page)

namespace Machine.EntriesLive

/-- A change that keeps the frames, their entries and the processes in them. -/
theorem of_same (h : m.EntriesLive) (m' : Machine s L W) (hmem : m'.memory = m.memory)
    (htable : m'.frameTable = m.frameTable)
    (hkeep : ∀ q ∈ m.allocated, ¬ m.Unlisted q →
      q ∈ m'.allocated ∧ (m'.pcbs q).pageTable = (m.pcbs q).pageTable) : m'.EntriesLive := by
  intro f hf
  rw [hmem] at hf
  obtain ⟨q, page, hentry, hq, hpage⟩ := h f hf
  obtain ⟨hq', hpages⟩ := hkeep q hq fun hun => hun f hf page hentry
  rw [htable]
  exact ⟨q, page, hentry, hq', by rw [hpages, hpage]⟩

theorem evictFrame (h : m.EntriesLive) {entry : ℕ × ℕ} (hused : m.memory (frame * s.frameSize) ≠ none)
    (hentry : m.frameTable frame = some entry) : (m.evictFrame frame entry).EntriesLive := by
  intro f hf
  have hcell := m.evictFrame_cell frame entry f s.frameSize_pos
  simp only [Nat.add_zero] at hcell
  rw [hcell] at hf
  split_ifs at hf with hframe
  · exact absurd rfl hf
  obtain ⟨q, page, hold, hq, hpage⟩ := h f hf
  refine ⟨q, page, ?_, hq, ?_⟩
  · rwa [evictFrame_frameTable, if_neg hframe]
  · rw [evictFrame_pcbs, PCB.withPages_pageTable, if_neg]
    · exact hpage
    -- the page in the evicted frame is in no other frame
    · rintro ⟨rfl, rfl⟩
      obtain ⟨q', page', hold', -, hpage'⟩ := h frame hused
      rw [hentry, Option.some.injEq] at hold'
      rw [hold'] at hpage
      exact hframe (Option.some.inj (hpage.symm.trans hpage'))

theorem loadPage (h : m.EntriesLive) (hpcb : pcb ∈ m.allocated)
    (hnone : (m.pcbs pcb).pageTable page = none) : (m.loadPage pcb page frame).EntriesLive := by
  intro f hf
  rw [loadPage_frameTable]
  by_cases hframe : f = frame
  · refine ⟨pcb, page, if_pos hframe, hpcb, ?_⟩
    rw [loadPage_pcbs, PCB.withPages_pageTable, if_pos ⟨rfl, rfl⟩, hframe]
  · have hcell := m.loadPage_cell pcb page frame f s.frameSize_pos
    simp only [Nat.add_zero] at hcell
    rw [hcell, if_neg fun hc => hframe hc.1] at hf
    obtain ⟨q, i, hold, hq, hpage⟩ := h f hf
    refine ⟨q, i, (if_neg hframe).trans hold, hq, ?_⟩
    rw [loadPage_pcbs, PCB.withPages_pageTable, if_neg]
    · exact hpage
    · rintro ⟨rfl, rfl⟩
      rw [hnone] at hpage
      contradiction

theorem frees (h : m.EntriesLive) (hfree : m.Frees frame m₁) : m₁.EntriesLive := by
  rcases hfree with ⟨-, rfl⟩ | ⟨hfind, -, entry, hentry, rfl⟩
  · exact h
  · exact h.evictFrame (fstoreFindAvailableFrame_none hfind frame) hentry

theorem pageFault (h : m.EntriesLive) (hpcb : pcb ∈ m.allocated)
    (hnone : (m.pcbs pcb).pageTable page = none) (hrun : m.pageFault pcb page = .ok (frame, m')) :
    m'.EntriesLive := by
  obtain ⟨m₁, hfree, ⟨-, rfl⟩ | ⟨-, -, rfl⟩⟩ := pageFault_cases hrun
  · exact h.frees hfree
  · obtain ⟨t, hsame, hless⟩ := hfree.same pcb
    refine (h.frees hfree).loadPage ?_ ?_
    · rcases hfree with ⟨-, rfl⟩ | ⟨-, -, entry, -, rfl⟩
      · exact hpcb
      · exact hpcb
    · rw [hsame, PCB.withPages_pageTable]
      cases ht : t page with
      | none => rfl
      | some f => exact absurd (hnone.symm.trans (hless page f ht)) (by simp)

theorem faults (h : c.machine.EntriesLive) (hpcb : pcb ∈ c.machine.allocated)
    (hfault : c.Faults pcb m) : m.EntriesLive := by
  rcases hfault with rfl | ⟨⟨_, -, hnone, -⟩, frame, hrun⟩
  · exact h
  · exact h.pageFault hpcb hnone hrun

/-- The release of a process keeps the entries just when none of them is of that process. -/
theorem release_iff (h : m.EntriesLive) (hnodup : m.allocated.Nodup) (hmem : m'.memory = m.memory)
    (htable : m'.frameTable = m.frameTable)
    (hpages : ∀ q, (m'.pcbs q).pageTable = (m.pcbs q).pageTable)
    (halloc : m'.allocated = m.allocated.erase pcb) : m'.EntriesLive ↔ m.Unlisted pcb := by
  constructor
  · intro h' f hf page hentry
    rw [← hmem] at hf
    obtain ⟨q, i, hentry', hq, -⟩ := h' f hf
    rw [htable, hentry] at hentry'
    obtain ⟨rfl, rfl⟩ := Prod.mk.inj (Option.some.inj hentry')
    rw [halloc] at hq
    exact hnodup.not_mem_erase hq
  · intro hun
    apply h.of_same m' hmem htable
    intro q hq hlisted
    have hne : q ≠ pcb := by
      rintro rfl
      exact hlisted hun
    rw [halloc]
    exact ⟨(List.mem_erase_of_ne hne).mpr hq, hpages q⟩

theorem allocate (h : m.EntriesLive) (hfresh : pcb ∉ m.allocated) (x : PCB s L) :
    (m.allocate pcb x).EntriesLive := by
  apply h.of_same (m.allocate pcb x) rfl rfl
  intro q hq _
  rw [m.allocate_old x hfresh hq]
  exact ⟨List.mem_cons_of_mem pcb hq, rfl⟩

theorem pcbInit {script : String} {lines : List L} (h : m.EntriesLive)
    (hinit : m.pcbInit env script lines = .ok (pcb, m')) : m'.EntriesLive := by
  obtain ⟨rfl, hpre⟩ := pcbInit_ok hinit
  -- the pages from `page` on are not mapped yet
  have hlast := preload_pages (P := fun page m' => m'.EntriesLive ∧
    env.malloc m ∈ m'.allocated ∧ ∀ i, page ≤ i → (m'.pcbs (env.malloc m)).pageTable i = none)
    ?_ hpre ⟨?_, ?_, ?_⟩
  · obtain ⟨_, hlive, -⟩ := hlast
    exact hlive
  · rintro m₁ page frame ⟨hlive, hmem, hnone⟩ - - -
    refine ⟨hlive.loadPage hmem (hnone page (Nat.le_refl _)), hmem, ?_⟩
    intro i hi
    rw [loadPage_pcbs, PCB.withPages_pageTable, if_neg (by omega)]
    exact hnone i (by omega)
  · exact h.allocate (env.malloc_fresh m) _
  · exact List.mem_cons_self
  · intro i _
    rw [allocate_pcbs, if_pos rfl]
    rfl

end Machine.EntriesLive

end PicoShell.Scheduling
