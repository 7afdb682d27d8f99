import PicoShell.Scheduling.Consistent

/-! A frame in the page table of a process should hold the lines of that page.  Evictions
undo one mapping of a frame, and duplicates are loaded from uninitialised memory: what
a page fault must not do for the mappings to stay right. -/

namespace PicoShell.Scheduling

variable {s : Sizes} {L W : Type} {env : Env s L W} {m m' : Machine s L W} {c c' : Sched s L W}
  {r : List ℕ} {pcb page q : ℕ} {frame : Fin s.numFrames}

/-- The pages of a process that matter at a program counter: these become fewer, and that of the
next line is one of them. -/
structure Scope (s : Sizes) where
  need : ℕ → ℕ → Prop
  shrink : ∀ pc page, need (pc + 1) page → need pc page
  current : ∀ pc, need pc (pc / s.frameSize)

namespace Scope

def all (s : Sizes) : Scope s := ⟨fun _ _ => True, fun _ _ _ => trivial, fun _ => trivial⟩

/-- The pages that are not behind the program counter. -/
def ahead (s : Sizes) : Scope s where
  need pc page := pc / s.frameSize ≤ page
  shrink _ _ h := (Nat.div_le_div_right (Nat.le_succ _)).trans h
  current _ := Nat.le_refl _

end Scope

variable {scope : Scope s}

namespace Machine

/-- The frame holds the lines of the page of the program. -/
def HoldsPage (m : Machine s L W) (frame : Fin s.numFrames) (script : List L) (page : ℕ) : Prop :=
  ∀ o < s.frameSize, page * s.frameSize + o < script.length →
    m.memory (frame * s.frameSize + o) = script[page * s.frameSize + o]?

/-- What a page of a process was loaded from are the lines of its program. -/
def ReadsScript (m : Machine s L W) (pcb page : ℕ) : Prop :=
  ∀ o < s.frameSize, page * s.frameSize + o < (m.pcbs pcb).fileLength →
    (m.pcbs pcb).fileContents (page * s.frameSize + o) =
      (m.pcbs pcb).script[page * s.frameSize + o]?

/-- Only the process in the frame table has the frame in its page table, as far as pages in scope
are concerned. -/
def OwnedBy (m : Machine s L W) (scope : Scope s) (frame : Fin s.numFrames) (entry : ℕ × ℕ) : Prop :=
  ∀ q ∈ m.allocated, ∀ page, (m.pcbs q).pageTable page = some frame →
    scope.need (m.pcbs q).programCounter page → entry = (q, page)

/-- The mapped pages in scope are in their frames. -/
def Mapped (m : Machine s L W) (scope : Scope s) : Prop :=
  ∀ q ∈ m.allocated, ∀ page f, (m.pcbs q).pageTable page = some f →
    scope.need (m.pcbs q).programCounter page → m.HoldsPage f (m.pcbs q).script page

end Machine

/-- The next step is no page fault that loads anything but the lines of the program, or evicts
a frame that another process, or another page, is mapped to. -/
def Sched.SoundFault (scope : Scope s) (c : Sched s L W) : Prop :=
  ∀ pcb, c.FaultOf pcb → c.machine.ReadsScript pcb (c.machine.currentPage pcb) ∧
    (c.machine.fstoreFindAvailableFrame = none → ∀ entry,
      c.machine.frameTable c.machine.getLruFrame = some entry →
        c.machine.OwnedBy scope c.machine.getLruFrame entry)

namespace Machine.Mapped

/-- A change that keeps the memory and the mappings, and moves no program counter back. -/
theorem of_same (h : m.Mapped scope) (m' : Machine s L W)
    (halloc : ∀ q ∈ m'.allocated, q ∈ m.allocated) (hmem : m'.memory = m.memory)
    (hsame : ∀ q ∈ m'.allocated, (m'.pcbs q).pageTable = (m.pcbs q).pageTable ∧
      (m'.pcbs q).script = (m.pcbs q).script ∧
      ∀ page, scope.need (m'.pcbs q).programCounter page →
        scope.need (m.pcbs q).programCounter page) : m'.Mapped scope := by
  intro q hq page f hf hneed
  obtain ⟨htable, hscript, hpc⟩ := hsame q hq
  rw [htable] at hf
  unfold HoldsPage
  rw [hmem, hscript]
  exact h q (halloc q hq) page f hf (hpc page hneed)

theorem evictFrame (h : m.Mapped scope) {entry : ℕ × ℕ} (howned : m.OwnedBy scope frame entry) :
    (m.evictFrame frame entry).Mapped scope := by
  intro q hq page f hf hneed
  rw [evictFrame_pcbs] at hf hneed ⊢
  simp only [PCB.withPages_pageTable, PCB.withPages_programCounter] at hf hneed
  split_ifs at hf with hgone
  have hframe : f ≠ frame := by
    rintro rfl
    have := howned q hq page hf hneed
    exact hgone ⟨congrArg Prod.fst this.symm, congrArg Prod.snd this.symm⟩
  intro o ho hlen
  rw [evictFrame_cell _ _ _ _ ho, if_neg hframe]
  exact h q hq page f hf hneed o ho hlen

/-- Loading into a frame that no page in scope is mapped to. -/
theorem loadPage (h : m.Mapped scope) (hcons : Consistent r m) (hread : m.ReadsScript pcb page)
    (hfree : ∀ q ∈ m.allocated, ∀ i, (m.pcbs q).pageTable i = some frame →
      ¬ scope.need (m.pcbs q).programCounter i) : (m.loadPage pcb page frame).Mapped scope := by
  intro q hq i f hf hneed
  have hlen := hcons.length q hq
  rw [loadPage_pcbs] at hf hneed ⊢
  simp only [PCB.withPages_pageTable, PCB.withPages_programCounter] at hf hneed
  intro o ho hlt
  rw [PCB.withPages_script] at hlt ⊢
  rw [loadPage_cell _ _ _ _ _ ho]
  split_ifs at hf with hnew
  · obtain ⟨rfl, rfl⟩ := hnew
    rw [← hlen] at hlt
    rw [if_pos ⟨(Option.some.inj hf).symm, hlt⟩]
    exact hread o ho hlt
  · have hframe : f ≠ frame := by
      rintro rfl
      exact hfree q hq i hf hneed
    rw [if_neg fun hc => hframe hc.1]
    exact h q hq i f hf hneed o ho hlt

theorem available (h : m.Mapped scope) (hcons : Consistent r m)
    (hfind : m.fstoreFindAvailableFrame = some frame) : ∀ q ∈ m.allocated, ∀ i,
    (m.pcbs q).pageTable i = some frame → ¬ scope.need (m.pcbs q).programCounter i := by
  intro q hq i hi hneed
  have hrange := hcons.inRange q hq i frame hi
  rw [hcons.length q hq] at hrange
  have hline := h q hq i frame hi hneed 0 s.frameSize_pos (by simpa using hrange)
  simp only [Nat.add_zero] at hline
  rw [fstoreFindAvailableFrame_some hfind, List.getElem?_eq_getElem hrange] at hline
  contradiction

theorem faults (h : c.machine.Mapped scope) (hcons : Consistent r c.machine)
    (hsound : c.SoundFault scope) (hfault : c.Faults pcb m') : m'.Mapped scope := by
  rcases hfault with rfl | ⟨hof, frame, hrun⟩
  · exact h
  obtain ⟨hread, hvictim⟩ := hsound pcb hof
  obtain ⟨m₁, hfree, hload⟩ := pageFault_cases hrun
  -- the frame is nobody's once it is free
  have hfreed : m₁.Mapped scope ∧ m₁.ReadsScript pcb (c.machine.currentPage pcb) ∧
      ∀ q ∈ m₁.allocated, ∀ i, (m₁.pcbs q).pageTable i = some frame →
        ¬ scope.need (m₁.pcbs q).programCounter i := by
    have hcons₁ := hcons.frees hfree
    rcases hfree with ⟨hfind, rfl⟩ | ⟨hfind, rfl, entry, hentry, rfl⟩
    · exact ⟨h, hread, h.available hcons hfind⟩
    · have howned := hvictim hfind entry hentry
      refine ⟨h.evictFrame howned, ?_, ?_⟩
      · unfold ReadsScript
        rw [evictFrame_pcbs]
        exact hread
      · intro q hq i hi hneed
        rw [evictFrame_pcbs] at hi hneed
        simp only [PCB.withPages_pageTable, PCB.withPages_programCounter] at hi hneed
        split_ifs at hi with hgone
        have := howned q hq i hi hneed
        exact hgone ⟨congrArg Prod.fst this.symm, congrArg Prod.snd this.symm⟩
  rcases hload with ⟨-, rfl⟩ | ⟨-, -, rfl⟩
  · exact hfreed.1
  · exact hfreed.1.loadPage (hcons.frees hfree) hfreed.2.1 hfreed.2.2

theorem executeLine (h : m.Mapped scope) (frame : Fin s.numFrames) :
    (m.executeLine env pcb frame).2.Mapped scope := by
  apply h.of_same (m.executeLine env pcb frame).2 (fun _ hq => hq) rfl
  intro q _
  have hsame := m.executeLine_same env pcb frame q
  refine ⟨hsame.2.2.2.2, hsame.2.1, ?_⟩
  rw [executeLine_pcbs]
  split_ifs with hq
  · rw [hq]
    exact scope.shrink _
  · exact fun _ hneed => hneed

theorem executes {policy : Policy} (h : m.Mapped scope) (hexec : m.Executes env policy pcb m') :
    m'.Mapped scope := by
  rcases hexec with ⟨-, rfl⟩ | ⟨frame, rfl, -⟩
  · exact h
  · exact h.executeLine frame

theorem sortReadyQueue (h : m.Mapped scope) : m.sortReadyQueue.Mapped scope := by
  obtain ⟨queue, -, heq⟩ := m.sortReadyQueue_eq
  rw [heq]
  exact h

theorem ends {policy : Policy} {running : Option (ℕ × ℕ)} (h : m.Mapped scope)
    (hend : m.Ends policy pcb running m') : m'.Mapped scope := by
  obtain ⟨hmem, -, -, halloc, hsame⟩ := hend.same
  apply h.of_same m' halloc hmem
  intro q _
  obtain ⟨score, hq⟩ := hsame q
  rw [hq]
  exact ⟨rfl, rfl, fun _ hneed => hneed⟩

theorem step (h : c.machine.Mapped scope) (hcons : Consistent (Consistent.outside c.running) c.machine)
    (hsound : c.SoundFault scope) (hstep : c.step env = .ok (some c')) :
    c'.machine.Mapped scope := by
  obtain ⟨-, ⟨pcb, queue, -, -, -, hm⟩ | ⟨pcb, i, -, -, m₁, m₂, hfault, hexec, hend⟩⟩ :=
    Sched.step_cases hstep
  · rw [hm]
    exact h
  · exact ((h.faults hcons hsound hfault).executes hexec).ends hend

theorem allocate (h : m.Mapped scope) (hfresh : pcb ∉ m.allocated) {x : PCB s L}
    (hx : ∀ page f, x.pageTable page = some f → scope.need x.programCounter page →
      m.HoldsPage f x.script page) : (m.allocate pcb x).Mapped scope := by
  intro q hq page f hf hneed
  rcases List.mem_cons.mp hq with rfl | hq
  · rw [allocate_pcbs, if_pos rfl] at hf hneed ⊢
    exact hx page f hf hneed
  · rw [m.allocate_old x hfresh hq] at hf hneed ⊢
    exact h q hq page f hf hneed

/-- A duplicate has the mappings of the process it was copied from. -/
theorem pcbDupInit (h : m.Mapped scope) {dup : ℕ} (hdup : dup ∈ m.allocated)
    (hneed : ∀ page, scope.need 0 page → scope.need (m.pcbs dup).programCounter page) :
    (m.pcbDupInit env dup).2.Mapped scope :=
  h.allocate (env.malloc_fresh m) fun page f hf hpage => h dup hdup page f hf (hneed page hpage)

theorem pcbInit (h : m.Mapped scope) (hcons : Consistent r m) {script : String} {lines : List L}
    (hlen : lines.length ≤ 100) (hrun : m.pcbInit env script lines = .ok (pcb, m')) :
    m'.Mapped scope := by
  obtain ⟨rfl, hpre⟩ := pcbInit_ok hrun
  -- the process is loaded from its own lines all along
  have hinv : m'.Mapped scope ∧ Consistent (env.malloc m :: r) m' ∧
      (m'.pcbs (env.malloc m)).fileContents = (fun i => lines[i]?) ∧
      (m'.pcbs (env.malloc m)).script = lines := by
    refine preload_induction (P := fun m' => m'.Mapped scope ∧ Consistent (env.malloc m :: r) m' ∧
      (m'.pcbs (env.malloc m)).fileContents = (fun i => lines[i]?) ∧
      (m'.pcbs (env.malloc m)).script = lines) ?_ hpre ⟨?_, ?_, ?_, ?_⟩
    · rintro m₁ page frame ⟨hm, hc, hcont, hscript⟩ hpage - hfind
      have hread : m₁.ReadsScript (env.malloc m) page := by
        intro o _ _
        rw [hcont, hscript]
      refine ⟨hm.loadPage hc hread (hm.available hc hfind), hc.loadPage hpage, ?_, ?_⟩
      · rw [loadPage_pcbs]
        exact hcont
      · rw [loadPage_pcbs]
        exact hscript
    · exact h.allocate (env.malloc_fresh m) fun _ _ hf => absurd hf (by simp [newPCB])
    · exact hcons.allocate (env.malloc_fresh m) rfl rfl hlen fun _ _ hf =>
        absurd hf (by simp [newPCB])
    · rw [allocate_pcbs, if_pos rfl]
      rfl
    · rw [allocate_pcbs, if_pos rfl]
      rfl
  exact hinv.1

end Machine.Mapped

namespace Shell

def machine : Shell s L W → Machine s L W
  | idle m => m
  | active c => c.machine

def Live : Shell s L W → ℕ → Prop
  | idle m, q => q ∈ m.queue
  | active c, q => q ∈ c.machine.queue ∨ ∃ i, c.running = some (q, i)

end Shell

def oneFrame : Sizes := ⟨1, 1, by decide, by decide⟩

def booted (s : Sizes) : Machine s ℕ Unit := memInit (fun _ => Machine.newPCB 0 "" []) ()

theorem session_booted (s : Sizes) (env : Env s ℕ Unit) (ok : Sched s ℕ Unit → Prop) :
    Session env ok (.idle (booted s)) := .init _ ()

def twoLines (_ : String) : Option (List ℕ) := some [1, 2]

instance (pc page : ℕ) : Decidable ((Scope.all s).need pc page) := inferInstanceAs (Decidable True)

instance (pc page : ℕ) : Decidable ((Scope.ahead s).need pc page) :=
  inferInstanceAs (Decidable (pc / s.frameSize ≤ page))

def Sched.faulting (c : Sched s L W) : Bool :=
  match c.running with
  | none => false
  | some (pcb, i) =>
    let x := c.machine.pcbs pcb
    (x.pageTable (c.machine.currentPage pcb)).isNone &&
      match c.policy with
      | .fcfs | .sjf => x.programCounter < x.fileLength
      | .rr timeSlice => i < timeSlice && x.programCounter ≠ x.fileLength
      | .aging => true

theorem Sched.FaultOf.faulting (h : c.FaultOf pcb) :
    c.faulting = true ∧ ∃ i, c.running = some (pcb, i) := by
  obtain ⟨i, hrun, hpage, hmore⟩ := h
  refine ⟨?_, i, hrun⟩
  rw [Sched.faulting, hrun]
  dsimp only
  rw [hpage]
  cases hpolicy : c.policy with
  | fcfs => simpa [hpolicy] using hmore
  | sjf => simpa [hpolicy] using hmore
  | rr timeSlice => simpa [hpolicy] using hmore
  | aging => rfl

instance [DecidableEq L] (m : Machine s L W) : Decidable (m.ReadsScript pcb page) :=
  inferInstanceAs (Decidable (∀ o < s.frameSize, page * s.frameSize + o < (m.pcbs pcb).fileLength →
    (m.pcbs pcb).fileContents (page * s.frameSize + o) =
      (m.pcbs pcb).script[page * s.frameSize + o]?))

/-- A sound fault, checked on the pages of the files. -/
abbrev Sched.ChecksFault (scope : Scope s) (c : Sched s L W) : Prop :=
  c.faulting = true → ∀ r ∈ c.running,
    c.machine.ReadsScript r.1 (c.machine.currentPage r.1) ∧
    (c.machine.fstoreFindAvailableFrame = none →
      ∀ entry ∈ c.machine.frameTable c.machine.getLruFrame, ∀ q ∈ c.machine.allocated,
        ∀ page < (c.machine.pcbs q).fileLength,
          (c.machine.pcbs q).pageTable page = some c.machine.getLruFrame →
          scope.need (c.machine.pcbs q).programCounter page → entry = (q, page))

theorem Sched.ChecksFault.soundFault (h : c.ChecksFault scope) (hcons : Consistent r c.machine) :
    c.SoundFault scope := by
  intro pcb hfault
  obtain ⟨hfaulting, i, hrun⟩ := hfault.faulting
  obtain ⟨hread, hvictim⟩ := h hfaulting (pcb, i) hrun
  refine ⟨hread, fun hfind entry hentry q hq page hpage hneed => ?_⟩
  have hrange := hcons.inRange q hq page _ hpage
  have hlt : page < (c.machine.pcbs q).fileLength :=
    (Nat.le_mul_of_pos_right page s.frameSize_pos).trans_lt hrange
  exact hvictim hfind entry hentry q hq page hlt hpage hneed

end PicoShell.Scheduling
