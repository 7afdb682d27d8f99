import PicoShell.Scheduling.RoundRobin

namespace PicoShell.Scheduling

variable {s : Sizes} {L W : Type} {env : Env s L W} {m m' m₀ m₁ : Machine s L W}
  {c c' : Sched s L W} {r : List ℕ} {qs : List ℕ} {pcb page q i ts : ℕ} {frame : Fin s.numFrames}
  {files : String → Option (List L)} {programs : List (Option String)}

/-- An entry of the frame table for a live process is in its page table too.  It need not be: no
entry is removed with its process, and `malloc` may return the address again. -/
def Machine.Coherent (m : Machine s L W) : Prop :=
  ∀ q ∈ m.allocated, ∀ f page, m.frameTable f = some (q, page) →
    (m.pcbs q).pageTable page = some f

section Fault

variable (hexcl : Exclusive m) (hcoh : m.Coherent) (hmap : m.Mapped (Scope.all s))
  (hcons : Consistent r m)

include hexcl hcoh hmap hcons in
theorem Machine.Frees.pages (hfree : m.Frees frame m₁) (hq : q ∈ m.allocated)
    {f : Fin s.numFrames} : (m₁.pcbs q).pageTable i = some f ↔
      (m.pcbs q).pageTable i = some f ∧ f ≠ frame := by
  rcases hfree with ⟨hfind, rfl⟩ | ⟨-, -, entry, hentry, rfl⟩
  · constructor
    · intro hi
      refine ⟨hi, ?_⟩
      rintro rfl
      exact Exclusive.available hmap hcons hfind q hq i hi
    · exact And.left
  · have hnot := (hexcl.evictFrame hentry).2 q hq i
    rw [evictFrame_pcbs] at hnot ⊢
    simp only [PCB.withPages_pageTable] at hnot ⊢
    split_ifs at hnot ⊢ with hgone
    · -- the mapping that is undone was that of the frame
      have htable := hcoh q hq frame i (by rw [hentry, hgone.1, hgone.2])
      constructor
      · intro hf
        contradiction
      · rintro ⟨hi, hne⟩
        rw [htable, Option.some.injEq] at hi
        exact absurd hi.symm hne
    · constructor
      · intro hi
        refine ⟨hi, ?_⟩
        rintro rfl
        exact hnot hi
      · exact And.left

include hexcl hcoh hmap hcons in
/-- A page fault maps the page, and takes its frame from whoever owned it. -/
theorem pageFault_pages (h : m.pageFault pcb page = .ok (frame, m'))
    (hpage : page * s.frameSize < (m.pcbs pcb).fileLength)
    (hnone : (m.pcbs pcb).pageTable page = none) (hq : q ∈ m.allocated) {f : Fin s.numFrames} :
    (m'.pcbs q).pageTable i = some f ↔
      (q = pcb ∧ i = page ∧ f = frame) ∨ ((m.pcbs q).pageTable i = some f ∧ f ≠ frame) := by
  obtain ⟨m₁, hfree, ⟨hout, -⟩ | ⟨-, -, rfl⟩⟩ := Machine.pageFault_cases h
  · omega
  have hpages := hfree.pages hexcl hcoh hmap hcons hq (i := i) (f := f)
  rw [Machine.loadPage_pcbs, PCB.withPages_pageTable]
  split_ifs with hnew
  · obtain ⟨rfl, rfl⟩ := hnew
    simp [hnone, eq_comm]
  · rw [hpages]
    constructor
    · exact .inr
    · rintro (⟨hqp, hip, -⟩ | hold)
      · exact absurd ⟨hqp, hip⟩ hnew
      · exact hold

include hexcl hcoh hmap hcons in
theorem Machine.Coherent.pageFault (h : m.pageFault pcb page = .ok (frame, m'))
    (hpage : page * s.frameSize < (m.pcbs pcb).fileLength)
    (hnone : (m.pcbs pcb).pageTable page = none) : m'.Coherent := by
  have halloc := (Machine.pageFault_processes h).1
  intro q hq f i hentry
  rw [halloc] at hq
  rw [pageFault_pages hexcl hcoh hmap hcons h hpage hnone hq]
  obtain ⟨m₁, hfree, ⟨hout, -⟩ | ⟨-, -, rfl⟩⟩ := Machine.pageFault_cases h
  · omega
  rw [loadPage_frameTable] at hentry
  split_ifs at hentry with hf
  · obtain ⟨rfl, rfl⟩ := Prod.mk.inj (Option.some.inj hentry)
    exact .inl ⟨rfl, rfl, hf⟩
  · have hold : m.frameTable f = some (q, i) := by
      rcases hfree with ⟨-, rfl⟩ | ⟨-, -, entry, -, rfl⟩
      · exact hentry
      · rwa [evictFrame_frameTable, if_neg hf] at hentry
    exact .inr ⟨hcoh q hq f i hold, hf⟩

end Fault

theorem Turning.coherent (h : Turning ts qs c) (hcoh : c.machine.Coherent)
    (hstep : c.step env = .ok (some c')) : c'.machine.Coherent := by
  cases hrun : c.running with
  | none =>
    obtain ⟨-, ⟨pcb, queue, -, -, -, hm⟩ | ⟨pcb, i, hrun', -⟩⟩ := Sched.step_cases hstep
    · rw [hm]
      exact hcoh
    · rw [hrun] at hrun'
      contradiction
  | some r =>
    obtain ⟨pcb, i⟩ := r
    obtain ⟨hcons, -, hle⟩ := h.running hrun
    have hturn := Sched.turn_of_step hrun h.policy hstep
    generalize c'.machine = m' at hturn
    generalize c'.running = r at hturn
    cases hturn with
    | line frame =>
      intro q hq f page hentry
      rw [(c.machine.executeLine_same env pcb frame q).2.2.2.2]
      exact hcoh q hq f page hentry
    | fault frame m hi hmore hpage hfault =>
      have hloaded : m.Coherent := .pageFault h.exclusive hcoh h.advancing.mapped hcons hfault
        (Machine.currentPage_inFile (lt_of_le_of_ne hle hmore)) hpage
      exact hloaded
    | release => exact fun q hq => hcoh q (List.mem_of_mem_erase hq)
    | expire => exact hcoh

theorem Turning.coherent_steps (h : Turning ts qs c) (hcoh : c.machine.Coherent)
    (hrun : Steps env (fun _ => True) c c') : c'.machine.Coherent := by
  induction hrun with
  | refl => exact hcoh
  | step before _ hstep ih => exact (h.steps before).coherent ih hstep

namespace Machine.Coherent

/-- A new process has no frame yet, and none that was left to its address. -/
theorem allocate (h : m.Coherent) (hfresh : pcb ∉ m.allocated) (x : PCB s L)
    (hstale : ∀ f page, m.frameTable f ≠ some (pcb, page)) : (m.allocate pcb x).Coherent := by
  intro q hq f page hentry
  rcases List.mem_cons.mp hq with rfl | hq
  · exact absurd hentry (hstale f page)
  · rw [m.allocate_old x hfresh hq]
    exact h q hq f page hentry

theorem loadPage (h : m.Coherent) (hnone : (m.pcbs pcb).pageTable page = none) :
    (m.loadPage pcb page frame).Coherent := by
  intro q hq f i hentry
  rw [loadPage_frameTable] at hentry
  rw [loadPage_pcbs, PCB.withPages_pageTable]
  split_ifs at hentry with hf
  · obtain ⟨rfl, rfl⟩ := Prod.mk.inj (Option.some.inj hentry)
    rw [if_pos ⟨rfl, rfl⟩, hf]
  · have hold := h q hq f i hentry
    rw [if_neg]
    · exact hold
    · rintro ⟨rfl, rfl⟩
      rw [hnone] at hold
      contradiction

theorem pcbInit {script : String} {lines : List L} (h : m.Coherent)
    (hstale : ∀ f page, m.frameTable f ≠ some (env.malloc m, page))
    (hinit : m.pcbInit env script lines = .ok (pcb, m')) : m'.Coherent ∧
      ∀ f p page, m'.frameTable f = some (p, page) → p = pcb ∨ m.frameTable f = some (p, page) := by
  obtain ⟨rfl, hpre⟩ := pcbInit_ok hinit
  -- the pages from `page` on are not mapped yet
  have hlast := preload_pages (P := fun page m' => m'.Coherent ∧
    (∀ f p page, m'.frameTable f = some (p, page) → p = env.malloc m ∨
      m.frameTable f = some (p, page)) ∧
    ∀ i, page ≤ i → (m'.pcbs (env.malloc m)).pageTable i = none) ?_ hpre ⟨?_, ?_, ?_⟩
  · obtain ⟨_, hcoh, htable, -⟩ := hlast
    exact ⟨hcoh, htable⟩
  · rintro m₁ page frame ⟨hcoh, htable, hnone⟩ - - -
    refine ⟨hcoh.loadPage (hnone page (Nat.le_refl _)), ?_, ?_⟩
    · intro f p i hentry
      rw [loadPage_frameTable] at hentry
      split_ifs at hentry
      · exact .inl (congrArg Prod.fst (Option.some.inj hentry)).symm
      · exact htable f p i hentry
    · intro i hi
      rw [loadPage_pcbs, PCB.withPages_pageTable, if_neg (by omega)]
      exact hnone i (by omega)
  · exact h.allocate (env.malloc_fresh m) _ hstale
  · exact fun f p page hentry => .inr hentry
  · intro i _
    rw [allocate_pcbs, if_pos rfl]
    rfl

/-- The queue is built coherently if no frame was left to the address of one of its processes. -/
theorem build (h : m.Coherent) (hun : Untouched m₀ m)
    (hstale : ∀ f p page, m.frameTable f = some (p, page) → p ∈ m.allocated ∨ p ∉ m'.queue)
    (hrun : buildReadyQueue env files programs m = .ok (0, m')) : m'.Coherent := by
  induction programs generalizing m with
  | nil =>
    rw [← (Exec.ok_inj hrun).2]
    exact h
  | cons program programs ih =>
    cases program with
    | none => exact ih h hun hstale hrun
    | some script =>
      -- a process that is appended stays in the queue, so its address is in no entry before
      have hfree : ∀ (m₁ : Machine s L W) (pcb : ℕ), Untouched m₀ (m₁.appendProcess pcb) →
          pcb ∉ m.allocated →
          buildReadyQueue env files programs (m₁.appendProcess pcb) = .ok (0, m') →
          ∀ f page, m.frameTable f ≠ some (pcb, page) := by
        intro m₁ pcb h₁ hfresh hrest f page hentry
        obtain ⟨new, hnew, -⟩ := h₁.names hrest
        have hmem : pcb ∈ m'.queue := by simp [hnew, appendProcess]
        rcases hstale f pcb page hentry with halloc | hout
        · exact hfresh halloc
        · exact hout hmem
      have hfresh := env.malloc_fresh m
      rcases buildReadyQueue_cons hrun with ⟨dup, hfind, hrest⟩ | ⟨hcode, -⟩ |
        ⟨-, contents, pcb, m₁, -, hinit, hrest⟩
      · have hun₁ : Untouched m₀ ((m.pcbDupInit env dup).2.appendProcess (m.pcbDupInit env dup).1) :=
          hun.appendDup hfind
        have hcoh : ((m.pcbDupInit env dup).2.appendProcess (m.pcbDupInit env dup).1).Coherent :=
          h.allocate hfresh _ (hfree _ _ hun₁ hfresh hrest)
        refine ih hcoh hun₁ (fun f p page hentry => ?_) hrest
        rcases hstale f p page hentry with halloc | hout
        · exact .inl (List.mem_cons_of_mem _ halloc)
        · exact .inr hout
      · exact absurd hcode (by decide)
      · obtain ⟨hpcb, halloc, -⟩ := Machine.pcbInit_spec hinit
        have hun₁ := hun.appendInit (List.length_take_le _ _) hinit
        have hunnamed := hfree _ _ hun₁ (hpcb ▸ hfresh) hrest
        rw [hpcb] at hunnamed
        obtain ⟨hcoh, htable⟩ := h.pcbInit hunnamed hinit
        have hcoh₁ : (m₁.appendProcess pcb).Coherent := hcoh
        refine ih hcoh₁ hun₁ (fun f p page hentry => ?_) hrest
        show p ∈ m₁.allocated ∨ p ∉ m'.queue
        rw [halloc]
        rcases htable f p page hentry with rfl | hold
        · exact .inl List.mem_cons_self
        · rcases hstale f p page hold with hmem | hout
          · exact .inl (List.mem_cons_of_mem _ hmem)
          · exact .inr hout

end Machine.Coherent

end PicoShell.Scheduling
