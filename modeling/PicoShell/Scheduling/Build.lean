import PicoShell.Scheduling.Paging

namespace PicoShell.Scheduling

variable {s : Sizes} {L W : Type} {env : Env s L W} {m m' m₀ : Machine s L W} {r : List ℕ}
  {pcb page q dup : ℕ} {frame : Fin s.numFrames} {scope : Scope s} {script : String}
  {lines : List L} {files : String → Option (List L)} {programs : List (Option String)} {code : ℤ}

theorem Machine.pcbInit_spec (h : m.pcbInit env script lines = .ok (pcb, m')) :
    pcb = env.malloc m ∧ m'.allocated = pcb :: m.allocated ∧ m'.queue = m.queue ∧
      m'.history = m.history ∧ m'.nextPid = m.nextPid + 1 ∧
      (∃ t, m'.pcbs pcb = (newPCB m.nextPid script lines).withPages t) ∧
      ∀ q, q ≠ pcb → m'.pcbs q = m.pcbs q := by
  obtain ⟨rfl, hpre⟩ := pcbInit_ok h
  refine ⟨rfl, ?_⟩
  refine preload_induction (P := fun m' => m'.allocated = env.malloc m :: m.allocated ∧
    m'.queue = m.queue ∧ m'.history = m.history ∧ m'.nextPid = m.nextPid + 1 ∧
    (∃ t, m'.pcbs (env.malloc m) = (newPCB m.nextPid script lines).withPages t) ∧
    ∀ q, q ≠ env.malloc m → m'.pcbs q = m.pcbs q) ?_ hpre ⟨rfl, rfl, rfl, rfl, ?_, ?_⟩
  · rintro m₁ page frame ⟨h1, h2, h3, h4, ⟨t, h5⟩, h6⟩ - - -
    refine ⟨h1, h2, h3, h4, ?_, ?_⟩
    · have hself := m₁.loadPage_pcbs (env.malloc m) page frame (env.malloc m)
      rw [h5] at hself
      exact ⟨_, hself⟩
    · intro q hq
      rw [loadPage_pcbs, ← h6 q hq]
      simp [hq]
  · rw [allocate_pcbs, if_pos rfl]
    exact ⟨_, (PCB.withPages_self _).symm⟩
  · intro q hq
    rw [allocate_pcbs, if_neg hq]

theorem Machine.pcbDupInit_spec (m : Machine s L W) (env : Env s L W) (dup : ℕ) :
    (m.pcbDupInit env dup).2.pcbs (env.malloc m) = { m.pcbs dup with
      pid := m.nextPid
      fileContents := env.garbageContents m
      programCounter := 0 } ∧
    ∀ q, q ≠ env.malloc m → (m.pcbDupInit env dup).2.pcbs q = m.pcbs q := by
  refine ⟨(allocate_pcbs m _ _ _).trans (if_pos rfl), ?_⟩
  exact fun q hq => (allocate_pcbs m _ _ _).trans (if_neg hq)

theorem Machine.preload_ok {n : ℕ} (hread : ∀ line < (m.pcbs pcb).fileLength,
    (m.pcbs pcb).fileContents line ≠ none) : ∃ m', preload pcb n page m = .ok m' := by
  induction n generalizing m page with
  | zero => exact ⟨m, rfl⟩
  | succ n ih =>
    rw [preload]
    split_ifs with hpage
    · cases m.fstoreFindAvailableFrame with
      | none => exact ⟨m, rfl⟩
      | some frame =>
        have hload : m.memLoadPageIntoFrame pcb page frame = .ok (m.loadPage pcb page frame) :=
          memLoadPageIntoFrame_eq (fun o _ hlt => hread (page * s.frameSize + o) hlt) hpage
        simp only [bind, Except.bind, hload, loadPage_setPage]
        apply ih
        rw [loadPage_pcbs]
        exact hread
    · exact ⟨m, rfl⟩

theorem Machine.pcbInit_succeeds (m : Machine s L W) (env : Env s L W) (script : String)
    (lines : List L) : ∃ res, m.pcbInit env script lines = .ok res := by
  -- a new process is loaded from the strings that were just read
  have hpre : ∃ m', Machine.preload (env.malloc m) 2 0 (m.allocate (env.malloc m)
      (Machine.newPCB m.nextPid script lines)) = .ok m' := by
    apply Machine.preload_ok
    rw [Machine.allocate_pcbs, if_pos rfl]
    intro line hline
    show lines[line]? ≠ none
    rw [List.getElem?_eq_getElem hline]
    exact Option.some_ne_none _
  obtain ⟨m', hpre⟩ := hpre
  exact ⟨(env.malloc m, m'), by simp only [pcbInit, bind, Except.bind, hpre]; rfl⟩

/-- A process of this name was made and put at the end of the queue; the others are as they were. -/
structure Machine.Appends (m : Machine s L W) (script : String) (pcb : ℕ) (m' : Machine s L W) :
    Prop where
  fresh : pcb ∉ m.allocated
  allocated : m'.allocated = pcb :: m.allocated
  queue : m'.queue = m.queue ++ [pcb]
  name : (m'.pcbs pcb).filename = script
  others : ∀ q, q ≠ pcb → m'.pcbs q = m.pcbs q

theorem Machine.appends_dup (env : Env s L W) (hfind : m.findDuplicateScript script = some dup) :
    m.Appends script (env.malloc m)
      ((m.pcbDupInit env dup).2.appendProcess (m.pcbDupInit env dup).1) where
  fresh := env.malloc_fresh m
  allocated := rfl
  queue := rfl
  name := by
    show ((m.pcbDupInit env dup).2.pcbs (env.malloc m)).filename = script
    rw [(m.pcbDupInit_spec env dup).1]
    simpa using List.find?_some hfind
  others := (m.pcbDupInit_spec env dup).2

theorem Machine.appends_init (h : m.pcbInit env script lines = .ok (pcb, m')) :
    m.Appends script pcb (m'.appendProcess pcb) := by
  obtain ⟨hpcb, halloc, hqueue, -, -, ⟨t, hself⟩, hother⟩ := pcbInit_spec h
  refine ⟨?_, halloc, congrArg (· ++ [pcb]) hqueue, ?_, hother⟩
  · rw [hpcb]
    exact env.malloc_fresh m
  · show (m'.pcbs pcb).filename = script
    rw [hself]
    rfl

/-- `exec` finds the program: a queued process has its name, or it has a file. -/
def Machine.Found (m : Machine s L W) (files : String → Option (List L)) (script : String) : Prop :=
  m.findDuplicateScript script ≠ none ∨ files script ≠ none

/-- A program that is found becomes a process; the first one that is not ends the call. -/
theorem buildReadyQueue_some (env : Env s L W) (files : String → Option (List L)) (script : String)
    (programs : List (Option String)) (m : Machine s L W) :
    (¬ m.Found files script ∧ buildReadyQueue env files (some script :: programs) m =
      .ok (badcommandFileDoesNotExist, m)) ∨
    (m.Found files script ∧ ∃ pcb m₁, m.Appends script pcb m₁ ∧
      buildReadyQueue env files (some script :: programs) m =
        buildReadyQueue env files programs m₁) := by
  unfold Machine.Found
  rw [buildReadyQueue]
  cases hfind : m.findDuplicateScript script with
  | some dup => exact .inr ⟨.inl (Option.some_ne_none dup), _, _, m.appends_dup env hfind, rfl⟩
  | none =>
    cases hfile : files script with
    | none => exact .inl ⟨by simp, rfl⟩
    | some contents =>
      obtain ⟨res, hinit⟩ := m.pcbInit_succeeds env script (contents.take maxLines)
      refine .inr ⟨.inr (Option.some_ne_none contents), _, _, Machine.appends_init hinit, ?_⟩
      simp only [hinit]
      rfl

theorem buildReadyQueue_ok (hfiles : ∀ script ∈ programs.reduceOption, files script ≠ none) :
    ∃ m', buildReadyQueue env files programs m = .ok (0, m') := by
  induction programs generalizing m with
  | nil => exact ⟨m, rfl⟩
  | cons program programs ih =>
    cases program with
    | none =>
      rw [List.reduceOption_cons_of_none] at hfiles
      exact ih hfiles
    | some script =>
      rw [List.reduceOption_cons_of_some] at hfiles
      have ih := fun m => ih (m := m) fun name hname => hfiles name (List.mem_cons_of_mem _ hname)
      rcases buildReadyQueue_some env files script programs m with ⟨hmissing, -⟩ |
        ⟨-, pcb, m₁, -, heq⟩
      · exact absurd (.inr (hfiles script List.mem_cons_self)) hmissing
      · rw [heq]
        exact ih m₁

theorem buildReadyQueue_of_contents {P : List L → Prop}
    (hfiles : ∀ script ∈ programs.reduceOption, ∃ contents, files script = some contents ∧
      P contents) : ∃ m', buildReadyQueue env files programs m = .ok (0, m') := by
  apply buildReadyQueue_ok
  intro script hscript
  obtain ⟨contents, hcontents, -⟩ := hfiles script hscript
  simp [hcontents]

structure Untouched (m₀ m : Machine s L W) : Prop where
  cons : Consistent [] m
  history : m.history = m₀.history
  nextPid : m₀.nextPid ≤ m.nextPid
  started : ∀ q ∈ m.allocated, m₀.nextPid ≤ (m.pcbs q).pid ∧ (m.pcbs q).programCounter = 0

/-- The process runs the program of its file. -/
def PCB.FromFile (files : String → Option (List L)) (x : PCB s L) : Prop :=
  ∃ contents, files x.filename = some contents ∧ x.script = contents.take maxLines

namespace Untouched

theorem start (h : Consistent [] m) (hempty : m.queue = []) : Untouched m m := by
  refine ⟨h, rfl, Nat.le_refl _, ?_⟩
  simp [h.allocated_nil hempty]

theorem appendDup (h : Untouched m₀ m) (hfind : m.findDuplicateScript script = some dup) :
    Untouched m₀ ((m.pcbDupInit env dup).2.appendProcess (m.pcbDupInit env dup).1) := by
  have hdup := h.cons.queue_mem (List.mem_of_find?_eq_some hfind)
  obtain ⟨hself, hother⟩ := m.pcbDupInit_spec env dup
  refine ⟨(h.cons.pcbDupInit hdup).appendProcess, h.history, h.nextPid.trans (Nat.le_succ _), ?_⟩
  intro q hq
  rcases List.mem_cons.mp hq with rfl | hq
  · show m₀.nextPid ≤ ((m.pcbDupInit env dup).2.pcbs (env.malloc m)).pid ∧
      ((m.pcbDupInit env dup).2.pcbs (env.malloc m)).programCounter = 0
    rw [hself]
    exact ⟨h.nextPid, rfl⟩
  · have hne := env.ne_malloc rfl hq
    show m₀.nextPid ≤ ((m.pcbDupInit env dup).2.pcbs q).pid ∧
      ((m.pcbDupInit env dup).2.pcbs q).programCounter = 0
    rw [hother q hne]
    exact h.started q hq

theorem appendInit (h : Untouched m₀ m) (hlen : lines.length ≤ maxLines)
    (hinit : m.pcbInit env script lines = .ok (pcb, m')) :
    Untouched m₀ (m'.appendProcess pcb) := by
  obtain ⟨hpcb, halloc, -, hhist, hpid, ⟨t, hself⟩, hother⟩ := Machine.pcbInit_spec hinit
  refine ⟨(h.cons.pcbInit hlen hinit).appendProcess, hhist.trans h.history, ?_, ?_⟩
  · show m₀.nextPid ≤ m'.nextPid
    have := h.nextPid
    omega
  · intro q hq
    have hq : q ∈ m'.allocated := hq
    rw [halloc] at hq
    show m₀.nextPid ≤ (m'.pcbs q).pid ∧ (m'.pcbs q).programCounter = 0
    rcases List.mem_cons.mp hq with rfl | hold
    · rw [hself]
      exact ⟨h.nextPid, rfl⟩
    · have hne := env.ne_malloc hpcb hold
      rw [hother q hne]
      exact h.started q hold

theorem build (h : Untouched m₀ m) (hrun : buildReadyQueue env files programs m = .ok (code, m')) :
    Untouched m₀ m' := by
  refine buildReadyQueue_induction (fun m script dup hm hfind => hm.appendDup hfind) ?_ hrun h
  intro m script contents pcb m' hm _ _ hinit
  exact hm.appendInit (List.length_take_le _ _) hinit

/-- The mapped pages are in their frames, duplicates included. -/
theorem mapped (h : Untouched m₀ m) (hmap : m.Mapped scope)
    (hrun : buildReadyQueue env files programs m = .ok (code, m')) : m'.Mapped scope := by
  refine (buildReadyQueue_induction (P := fun m => Untouched m₀ m ∧ m.Mapped scope) ?_ ?_ hrun
    ⟨h, hmap⟩).2
  · rintro m script dup ⟨hm, hmap⟩ hfind
    have hdup := hm.cons.queue_mem (List.mem_of_find?_eq_some hfind)
    refine ⟨hm.appendDup hfind, hmap.pcbDupInit hdup ?_⟩
    rw [(hm.started dup hdup).2]
    exact fun _ hneed => hneed
  · rintro m script contents pcb m' ⟨hm, hmap⟩ - - hinit
    have hlen : (contents.take maxLines).length ≤ maxLines := List.length_take_le _ _
    have hmap' := hmap.pcbInit hm.cons hlen hinit
    exact ⟨hm.appendInit hlen hinit, hmap'⟩

/-- Where the processes of some names run the programs of their files, so do new ones. -/
theorem fromFile (h : Untouched m₀ m) (named : String → Prop)
    (hfile : ∀ q ∈ m.allocated, named (m.pcbs q).filename → (m.pcbs q).FromFile files)
    (hrun : buildReadyQueue env files programs m = .ok (code, m')) :
    ∀ q ∈ m'.allocated, named (m'.pcbs q).filename → (m'.pcbs q).FromFile files := by
  refine (buildReadyQueue_induction (P := fun m => Untouched m₀ m ∧
    ∀ q ∈ m.allocated, named (m.pcbs q).filename → (m.pcbs q).FromFile files) ?_ ?_ hrun
    ⟨h, hfile⟩).2
  · rintro m script dup ⟨hm, hfile⟩ hfind
    have hdup := hm.cons.queue_mem (List.mem_of_find?_eq_some hfind)
    obtain ⟨hself, hother⟩ := m.pcbDupInit_spec env dup
    refine ⟨hm.appendDup hfind, ?_⟩
    intro q hq
    show named ((m.pcbDupInit env dup).2.pcbs q).filename →
      ((m.pcbDupInit env dup).2.pcbs q).FromFile files
    rcases List.mem_cons.mp hq with hqp | hq
    · rw [hqp, show (m.pcbDupInit env dup).2.pcbs (env.malloc m) = _ from hself]
      exact hfile dup hdup
    · have hne := env.ne_malloc rfl hq
      rw [hother q hne]
      exact hfile q hq
  · rintro m script contents pcb m' ⟨hm, hfile⟩ - hcontents hinit
    obtain ⟨hpcb, halloc, -, -, -, ⟨t, hself⟩, hother⟩ := Machine.pcbInit_spec hinit
    refine ⟨hm.appendInit (List.length_take_le _ _) hinit, ?_⟩
    intro q hq
    have hq : q ∈ m'.allocated := hq
    rw [halloc] at hq
    show named (m'.pcbs q).filename → (m'.pcbs q).FromFile files
    rcases List.mem_cons.mp hq with rfl | hold
    · rw [hself]
      exact fun _ => ⟨contents, hcontents, rfl⟩
    · have hne := env.ne_malloc hpcb hold
      rw [hother q hne]
      exact hfile q hold

theorem names (h : Untouched m₀ m) (hrun : buildReadyQueue env files programs m = .ok (0, m')) :
    ∃ new, m'.queue = m.queue ++ new ∧
      (new.map fun q => (m'.pcbs q).filename) = programs.reduceOption ∧
      ∀ q ∈ m.allocated, m'.pcbs q = m.pcbs q := by
  induction programs generalizing m with
  | nil =>
    obtain ⟨-, rfl⟩ := Exec.ok_inj hrun
    exact ⟨[], by simp, rfl, fun _ _ => rfl⟩
  | cons program programs ih =>
    cases program with
    | none =>
      rw [List.reduceOption_cons_of_none]
      exact ih h hrun
    | some script =>
      rw [List.reduceOption_cons_of_some]
      -- the process that is appended keeps its name, and the older ones are left alone
      have hstep : ∀ (m₁ : Machine s L W) (pcb : ℕ), Untouched m₀ m₁ → m.Appends script pcb m₁ →
          buildReadyQueue env files programs m₁ = .ok (0, m') →
          ∃ new, m'.queue = m.queue ++ new ∧
            (new.map fun q => (m'.pcbs q).filename) = script :: programs.reduceOption ∧
            ∀ q ∈ m.allocated, m'.pcbs q = m.pcbs q := by
        intro m₁ pcb h₁ happ hrest
        obtain ⟨new, hnew, hnames, hold⟩ := ih h₁ hrest
        rw [happ.allocated] at hold
        refine ⟨pcb :: new, ?_, ?_, ?_⟩
        · rw [hnew, happ.queue]
          exact List.append_assoc _ _ _
        · rw [List.map_cons, hnames, hold pcb List.mem_cons_self, happ.name]
        · intro q hq
          have hne : q ≠ pcb := by
            rintro rfl
            exact happ.fresh hq
          rw [hold q (List.mem_cons_of_mem _ hq)]
          exact happ.others q hne
      rcases buildReadyQueue_cons hrun with ⟨dup, hfind, hrest⟩ | ⟨hcode, -⟩ |
        ⟨-, contents, pcb, m₁, -, hinit, hrest⟩
      · exact hstep _ _ (h.appendDup hfind) (m.appends_dup env hfind) hrest
      · exact absurd hcode (by decide)
      · exact hstep _ pcb (h.appendInit (List.length_take_le _ _) hinit)
          (Machine.appends_init hinit) hrest

end Untouched

end PicoShell.Scheduling
