import PicoShell.Memory.Machine

namespace PicoShell.Scheduling

variable {s : Sizes} {L W : Type} {m m' : Machine s L W} {pcb page line o q p n : ℕ}
  {f frame : Fin s.numFrames} {x : Option (Fin s.numFrames)}

theorem Sizes.cell_inj (s : Sizes) {i j a b : ℕ} (ha : a < s.frameSize) (hb : b < s.frameSize)
    (h : i * s.frameSize + a = j * s.frameSize + b) : i = j ∧ a = b := by
  have hi : (i * s.frameSize + a) / s.frameSize = i := by
    rw [Nat.mul_comm, Nat.mul_add_div s.frameSize_pos, Nat.div_eq_of_lt ha, Nat.add_zero]
  have hj : (j * s.frameSize + b) / s.frameSize = j := by
    rw [Nat.mul_comm, Nat.mul_add_div s.frameSize_pos, Nat.div_eq_of_lt hb, Nat.add_zero]
  have hij : i = j := by rw [← hi, h, hj]
  subst hij
  exact ⟨rfl, by omega⟩

theorem Sizes.cell_le (s : Sizes) (f : Fin s.numFrames) (ho : o < s.frameSize) :
    f * s.frameSize + o < s.frameStoreSize := by
  have hf : f.val + 1 ≤ s.frameStoreSize / s.frameSize := f.isLt
  have := (Nat.le_div_iff_mul_le s.frameSize_pos).mp hf
  rw [Nat.add_mul, Nat.one_mul] at this
  omega

def PCB.withPages (x : PCB s L) (pageTable : ℕ → Option (Fin s.numFrames)) : PCB s L :=
  { x with pageTable := pageTable }

namespace PCB

variable (x : PCB s L) (t : ℕ → Option (Fin s.numFrames))

@[simp] theorem withPages_pageTable : (x.withPages t).pageTable = t := rfl
@[simp] theorem withPages_fileContents : (x.withPages t).fileContents = x.fileContents := rfl
@[simp] theorem withPages_fileLength : (x.withPages t).fileLength = x.fileLength := rfl
@[simp] theorem withPages_programCounter : (x.withPages t).programCounter = x.programCounter := rfl
@[simp] theorem withPages_jobScore : (x.withPages t).jobScore = x.jobScore := rfl
@[simp] theorem withPages_script : (x.withPages t).script = x.script := rfl
@[simp] theorem withPages_self : x.withPages x.pageTable = x := rfl

def withScore (j : ℤ) : PCB s L := { x with jobScore := j }

variable (j : ℤ)

@[simp] theorem withScore_programCounter : (x.withScore j).programCounter = x.programCounter := rfl
@[simp] theorem withScore_jobScore : (x.withScore j).jobScore = j := rfl
@[simp] theorem withScore_script : (x.withScore j).script = x.script := rfl
@[simp] theorem withScore_self : x.withScore x.jobScore = x := rfl

def advance : PCB s L := { x with programCounter := x.programCounter + 1 }

@[simp] theorem advance_fileLength : x.advance.fileLength = x.fileLength := rfl
@[simp] theorem advance_jobScore : x.advance.jobScore = x.jobScore := rfl
@[simp] theorem advance_programCounter : x.advance.programCounter = x.programCounter + 1 := rfl

end PCB

namespace Machine

theorem pcbs_modify (m : Machine s L W) (p : ℕ) (g : PCB s L → PCB s L) (q : ℕ) :
    (m.modify p g).pcbs q = if q = p then g (m.pcbs p) else m.pcbs q := by
  unfold modify
  simp only [Function.update_apply]

theorem pcbs_setPage (m : Machine s L W) (p page : ℕ) (x : Option (Fin s.numFrames)) (q : ℕ) :
    (m.setPage p page x).pcbs q = (m.pcbs q).withPages fun i =>
      if q = p ∧ i = page then x else (m.pcbs q).pageTable i := by
  rw [setPage, pcbs_modify]
  by_cases hq : q = p
  · subst hq
    rw [if_pos rfl]
    apply congrArg (m.pcbs q).withPages
    funext i
    simp [Function.update_apply]
  · simp [hq]

/-- The lines of the page all lead to strings. -/
def Readable (m : Machine s L W) (pcb page : ℕ) : Prop :=
  ∀ o < s.frameSize, page * s.frameSize + o < (m.pcbs pcb).fileLength →
    (m.pcbs pcb).fileContents (page * s.frameSize + o) ≠ none

/-- The frame store after the first `n` lines of the page were written to the frame. -/
def loadedMemory (m : Machine s L W) (pcb page : ℕ) (frame : Fin s.numFrames) (n : ℕ)
    (address : ℕ) : Option L :=
  let line := page * s.frameSize + (address - frame * s.frameSize)
  if frame * s.frameSize ≤ address ∧ address < frame * s.frameSize + n ∧
      line < (m.pcbs pcb).fileLength then (m.pcbs pcb).fileContents line
  else m.memory address

theorem loadLines_eq (m : Machine s L W) (pcb page : ℕ) (frame : Fin s.numFrames)
    (hn : n ≤ s.frameSize) (hread : ∀ o < n, page * s.frameSize + o < (m.pcbs pcb).fileLength →
      (m.pcbs pcb).fileContents (page * s.frameSize + o) ≠ none) :
    loadLines pcb page frame m n = .ok { m with memory := m.loadedMemory pcb page frame n } := by
  induction n with
  | zero =>
    have hnone : m.loadedMemory pcb page frame 0 = m.memory := by
      funext address
      unfold loadedMemory
      simp only [Nat.add_zero]
      rw [if_neg (by omega)]
    rw [loadLines, hnone]
  | succ n ih =>
    have hcell := s.cell_le frame (o := n) (by omega)
    simp only [loadLines, bind, Except.bind,
      ih (by omega) fun o ho hlt => hread o (Nat.lt_succ_of_lt ho) hlt]
    by_cases hlt : page * s.frameSize + n < (m.pcbs pcb).fileLength
    · obtain ⟨value, hvalue⟩ := Option.ne_none_iff_exists'.mp (hread n (Nat.lt_succ_self n) hlt)
      rw [if_pos hlt, hvalue]
      simp only [fstoreSet, if_neg (Nat.not_lt.mpr hcell.le), Except.ok.injEq]
      congr 1
      funext address
      simp only [Function.update_apply, loadedMemory]
      by_cases ha : address = frame * s.frameSize + n
      · have hoff : address - frame * s.frameSize = n := by omega
        rw [if_pos ha, hoff, if_pos ⟨by omega, by omega, hlt⟩, hvalue]
      · rw [if_neg ha]
        apply if_congr _ rfl rfl
        constructor
        · rintro ⟨h1, h2, h3⟩
          exact ⟨h1, by omega, h3⟩
        · rintro ⟨h1, h2, h3⟩
          exact ⟨h1, by omega, h3⟩
    · rw [if_neg hlt]
      congr 2
      funext address
      unfold loadedMemory
      apply if_congr _ rfl rfl
      constructor
      · rintro ⟨h1, h2, h3⟩
        exact ⟨h1, by omega, h3⟩
      · rintro ⟨h1, h2, h3⟩
        refine ⟨h1, ?_, h3⟩
        by_contra hge
        have hoff : address - frame * s.frameSize = n := by omega
        exact hlt (by rwa [hoff] at h3)

/-- Only strings can be copied. -/
theorem readable_of_loadLines (h : loadLines pcb page frame m n = .ok m') (hn : n ≤ s.frameSize) :
    ∀ o < n, page * s.frameSize + o < (m.pcbs pcb).fileLength →
      (m.pcbs pcb).fileContents (page * s.frameSize + o) ≠ none := by
  induction n generalizing m' with
  | zero =>
    intro o ho
    omega
  | succ n ih =>
    rw [loadLines] at h
    obtain ⟨m₁, hrest, h⟩ := Exec.bind_ok h
    have hall := ih hrest (by omega)
    rw [loadLines_eq m pcb page frame (by omega) hall, Except.ok.injEq] at hrest
    intro o ho hlt
    rcases Nat.lt_succ_iff_lt_or_eq.mp ho with ho | rfl
    · exact hall o ho hlt
    · intro hnone
      rw [← hrest] at h
      simp only [if_pos hlt, hnone] at h
      contradiction

def loadPage (m : Machine s L W) (pcb page : ℕ) (frame : Fin s.numFrames) : Machine s L W :=
  let m := { m with
    memory := m.loadedMemory pcb page frame s.frameSize
    frameTable := Function.update m.frameTable frame (some (pcb, page)) }
  (m.setPage pcb page (some frame)).accessFrame frame

theorem memLoadPageIntoFrame_eq (hread : m.Readable pcb page)
    (hpage : page * s.frameSize < (m.pcbs pcb).fileLength) :
    m.memLoadPageIntoFrame pcb page frame = .ok (m.loadPage pcb page frame) := by
  rw [memLoadPageIntoFrame, if_neg (Nat.not_le.mpr hpage)]
  simp only [bind, Except.bind, loadLines_eq m pcb page frame (Nat.le_refl _) hread]
  rfl

theorem memLoadPageIntoFrame_cases (h : m.memLoadPageIntoFrame pcb page frame = .ok m') :
    ((m.pcbs pcb).fileLength ≤ page * s.frameSize ∧ m' = m) ∨
    (page * s.frameSize < (m.pcbs pcb).fileLength ∧ m.Readable pcb page ∧
      m' = m.loadPage pcb page frame) := by
  by_cases hpage : (m.pcbs pcb).fileLength ≤ page * s.frameSize
  · rw [memLoadPageIntoFrame, if_pos hpage] at h
    exact .inl ⟨hpage, (Except.ok.inj h).symm⟩
  · have hpage' := Nat.not_le.mp hpage
    have hread : m.Readable pcb page := by
      rw [memLoadPageIntoFrame, if_neg hpage] at h
      obtain ⟨m₁, hlines, -⟩ := Exec.bind_ok h
      exact readable_of_loadLines hlines (Nat.le_refl _)
    rw [memLoadPageIntoFrame_eq hread hpage', Except.ok.injEq] at h
    exact .inr ⟨hpage', hread, h.symm⟩

theorem memLoadPageIntoFrame_ok (frame : Fin s.numFrames) (hread : m.Readable pcb page) :
    ∃ m', m.memLoadPageIntoFrame pcb page frame = .ok m' := by
  by_cases hpage : page * s.frameSize < (m.pcbs pcb).fileLength
  · exact ⟨_, memLoadPageIntoFrame_eq hread hpage⟩
  · exact ⟨m, if_pos (Nat.not_lt.mp hpage)⟩

section LoadPage

variable (m : Machine s L W) (pcb page : ℕ) (frame : Fin s.numFrames)

theorem loadPage_cell (f : Fin s.numFrames) (ho : o < s.frameSize) :
    (m.loadPage pcb page frame).memory (f * s.frameSize + o) =
      if f = frame ∧ page * s.frameSize + o < (m.pcbs pcb).fileLength then
        (m.pcbs pcb).fileContents (page * s.frameSize + o)
      else m.memory (f * s.frameSize + o) := by
  change m.loadedMemory pcb page frame s.frameSize (f * s.frameSize + o) = _
  unfold loadedMemory
  by_cases hf : f = frame
  · subst hf
    have hoff : f * s.frameSize + o - f * s.frameSize = o := by omega
    simp only [hoff, true_and]
    apply if_congr _ rfl rfl
    constructor
    · exact fun h => h.2.2
    · exact fun h => ⟨by omega, by omega, h⟩
  · have hout : ¬ (frame * s.frameSize ≤ f * s.frameSize + o ∧
        f * s.frameSize + o < frame * s.frameSize + s.frameSize) := by
      rintro ⟨h1, h2⟩
      have := s.cell_inj (i := f) (j := frame) ho
        (show f * s.frameSize + o - frame * s.frameSize < s.frameSize by omega) (by omega)
      exact hf (Fin.ext this.1)
    rw [if_neg (fun h => hout ⟨h.1, h.2.1⟩), if_neg (fun h => hf h.1)]

theorem loadPage_pcbs (q : ℕ) : (m.loadPage pcb page frame).pcbs q = (m.pcbs q).withPages fun i =>
    if q = pcb ∧ i = page then some frame else (m.pcbs q).pageTable i :=
  pcbs_setPage _ pcb page (some frame) q

theorem loadPage_frameTable (f : Fin s.numFrames) : (m.loadPage pcb page frame).frameTable f =
    if f = frame then some (pcb, page) else m.frameTable f :=
  Function.update_apply _ _ _ _

/-- The second store of `pcb_init` into the page table changes nothing. -/
theorem loadPage_setPage : (m.loadPage pcb page frame).setPage pcb page (some frame) =
    m.loadPage pcb page frame := by
  have hpcbs : ((m.loadPage pcb page frame).setPage pcb page (some frame)).pcbs =
      (m.loadPage pcb page frame).pcbs := by
    funext q
    rw [pcbs_setPage, loadPage_pcbs]
    apply congrArg (m.pcbs q).withPages
    funext i
    rw [PCB.withPages_pageTable]
    split_ifs
    · rfl
    · rfl
  exact congrArg (fun pcbs => { m.loadPage pcb page frame with pcbs := pcbs }) hpcbs

end LoadPage

def evictFrame (m : Machine s L W) (frame : Fin s.numFrames) (entry : ℕ × ℕ) : Machine s L W :=
  { (m.fstoreEvictFrame frame).setPage entry.1 entry.2 none with
    frameTable := Function.update m.frameTable frame none }

theorem memFreeMemoryFrame_eq (m : Machine s L W) (frame : Fin s.numFrames) :
    m.memFreeMemoryFrame frame = match m.frameTable frame with
      | none => .error .pointer
      | some entry => .ok (m.evictFrame frame entry) := by
  unfold memFreeMemoryFrame
  cases m.frameTable frame with
  | none => rfl
  | some entry => rfl

section EvictFrame

variable (m : Machine s L W) (frame : Fin s.numFrames) (entry : ℕ × ℕ)

theorem evictFrame_cell (f : Fin s.numFrames) (ho : o < s.frameSize) :
    (m.evictFrame frame entry).memory (f * s.frameSize + o) =
      if f = frame then none else m.memory (f * s.frameSize + o) := by
  show (if _ then none else m.memory (f * s.frameSize + o)) = _
  apply if_congr _ rfl rfl
  constructor
  · rintro ⟨h1, h2⟩
    have := s.cell_inj (i := f) (j := frame) ho
      (show f * s.frameSize + o - frame * s.frameSize < s.frameSize by omega) (by omega)
    exact Fin.ext this.1
  · rintro rfl
    omega

theorem evictFrame_pcbs (q : ℕ) : (m.evictFrame frame entry).pcbs q = (m.pcbs q).withPages fun i =>
    if q = entry.1 ∧ i = entry.2 then none else (m.pcbs q).pageTable i :=
  pcbs_setPage _ _ _ none q

theorem evictFrame_frameTable (f : Fin s.numFrames) : (m.evictFrame frame entry).frameTable f =
    if f = frame then none else m.frameTable f :=
  Function.update_apply _ _ _ _

end EvictFrame

theorem fstoreFindAvailableFrame_some (h : m.fstoreFindAvailableFrame = some frame) :
    m.memory (frame * s.frameSize) = none := by
  have := List.find?_some h
  simpa using this

theorem fstoreFindAvailableFrame_none (h : m.fstoreFindAvailableFrame = none)
    (f : Fin s.numFrames) : m.memory (f * s.frameSize) ≠ none := by
  have := List.find?_eq_none.mp h f (List.mem_finRange f)
  simpa using this

end Machine

end PicoShell.Scheduling
