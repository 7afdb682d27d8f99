import PicoShell.Core.MappedPages
import PicoShell.Scheduling.Entries
import PicoShell.Scheduling.RoundRobin

namespace PicoShell.Scheduling

variable {s : Sizes} {L W : Type} {env : Env s L W} {m m' : Machine s L W} {c c' : Sched s L W}
  {pcb i : ℕ} {frame : Fin s.numFrames}

theorem Machine.EntriesLive.loads {files : String → Option (List L)} (h : m.EntriesLive)
    (hadds : Relation.ReflTransGen (Machine.Adds env files) m m') : m'.EntriesLive := by
  induction hadds with
  | refl => exact h
  | @tail m₁ m₂ _ hadd ih =>
    cases hadd with
    | @dup script dup =>
      have hcopied : (m₁.pcbDupInit env dup).2.EntriesLive := ih.allocate (env.malloc_fresh m₁) _
      exact hcopied
    | init _ _ hinit =>
      have hloaded := ih.pcbInit hinit
      exact hloaded

/-- A process that comes to its turn so is released at once. -/
def Policy.Done : Policy → PCB s L → Prop
  | .fcfs, x => x.fileLength ≤ x.programCounter
  | .sjf, x => x.fileLength ≤ x.programCounter
  | .rr _, x => x.programCounter = x.fileLength
  -- the ageing scheduler executes a line in any case
  | .aging, _ => False

instance : (policy : Policy) → (x : PCB s L) → Decidable (policy.Done x)
  | .fcfs, x => inferInstanceAs (Decidable (x.fileLength ≤ x.programCounter))
  | .sjf, x => inferInstanceAs (Decidable (x.fileLength ≤ x.programCounter))
  | .rr _, x => inferInstanceAs (Decidable (x.programCounter = x.fileLength))
  | .aging, _ => inferInstanceAs (Decidable False)

namespace Sched

/-- The process that the next iteration releases before any line. -/
def released (c : Sched s L W) : Option ℕ :=
  match c.running with
  | none => none
  | some (pcb, _) => if c.policy.Done (c.machine.pcbs pcb) then some pcb else none

theorem released_running (hrun : c.running = some (pcb, i)) :
    c.released = if c.policy.Done (c.machine.pcbs pcb) then some pcb else none := by
  rw [released, hrun]

theorem released_idle (hrun : c.running = none) : c.released = none := by
  rw [released, hrun]

theorem fcfsNext_done (hrun : c.running = some (pcb, i))
    (hpolicy : c.policy = .fcfs ∨ c.policy = .sjf) (h : c.fcfsNext pcb i = .ok (.goto c')) :
    ((c.machine.pcbs pcb).fileLength ≤ (c.machine.pcbs pcb).programCounter ∧
        c'.machine = c.machine.pcbDeinit pcb) ∨
      (¬ (c.machine.pcbs pcb).fileLength ≤ (c.machine.pcbs pcb).programCounter ∧
        ∃ m, c.Faults pcb m ∧ (c'.machine = m ∨ c'.machine = m.appendProcess pcb)) := by
  rw [fcfsNext] at h
  split_ifs at h with hpc
  · rcases fetch_inv h with ⟨hpage, frame, m, hfault, hx⟩ | ⟨frame, -, hx⟩
    · obtain rfl := Next.goto.inj hx
      have hof : c.FaultOf pcb := by
        refine ⟨i, hrun, hpage, ?_⟩
        rcases hpolicy with hp | hp
        · rwa [hp]
        · rwa [hp]
      exact .inr ⟨Nat.not_le.mpr hpc, m, .inr ⟨hof, frame, hfault⟩, .inl rfl⟩
    · cases hx
  · obtain rfl := Next.goto.inj (Except.ok.inj h)
    exact .inl ⟨Nat.not_lt.mp hpc, rfl⟩

theorem rrNext_done {timeSlice : ℕ} (hrun : c.running = some (pcb, i))
    (hpolicy : c.policy = .rr timeSlice) (h : c.rrNext timeSlice pcb i = .ok (.goto c')) :
    ((c.machine.pcbs pcb).programCounter = (c.machine.pcbs pcb).fileLength ∧
        c'.machine = c.machine.pcbDeinit pcb) ∨
      ((c.machine.pcbs pcb).programCounter ≠ (c.machine.pcbs pcb).fileLength ∧
        ∃ m, c.Faults pcb m ∧ (c'.machine = m ∨ c'.machine = m.appendProcess pcb)) := by
  rw [rrNext] at h
  split_ifs at h with hpc
  · rcases fetch_inv h with ⟨hpage, frame, m, hfault, hx⟩ | ⟨frame, -, hx⟩
    · obtain rfl := Next.goto.inj hx
      have hof : c.FaultOf pcb := by
        refine ⟨i, hrun, hpage, ?_⟩
        rwa [hpolicy]
      -- a fault moves no program counter, so the turn ends without a release
      refine .inr ⟨hpc.2, m, .inr ⟨hof, frame, hfault⟩, .inr ?_⟩
      obtain ⟨-, hkeep, hlen⟩ := pageFault_same hfault pcb
      rcases rrEndTurn_eq { c with machine := m } pcb with ⟨hend, -⟩ | ⟨-, hm, -⟩
      · exact absurd (hkeep.symm.trans (hend.trans hlen)) hpc.2
      · exact hm
    · cases hx
  · obtain rfl := Next.goto.inj (Except.ok.inj h)
    rcases rrEndTurn_eq c pcb with ⟨hend, hm, -⟩ | ⟨hmore, hm, -⟩
    · exact .inl ⟨hend, hm⟩
    · exact .inr ⟨hmore, c.machine, .inl rfl, .inr hm⟩

/-- The ageing scheduler comes to a line whatever the counter is. -/
theorem agingNext_ne_goto : c.agingNext pcb i ≠ .ok (.goto c') := by
  intro h
  rw [agingNext] at h
  obtain ⟨x, -, h⟩ := Exec.bind_ok h
  cases x with
  | none =>
    obtain ⟨_, -, h⟩ := Exec.bind_ok h
    cases Except.ok.inj h
  | some frame => cases Except.ok.inj h

/-- Without a line an iteration releases the process, or loads a page at most. -/
theorem next_done (hrun : c.running = some (pcb, i)) (h : c.next = .ok (.goto c')) :
    (c.policy.Done (c.machine.pcbs pcb) ∧ c'.machine = c.machine.pcbDeinit pcb) ∨
      (¬ c.policy.Done (c.machine.pcbs pcb) ∧ ∃ m, c.Faults pcb m ∧
        (c'.machine = m ∨ c'.machine = m.appendProcess pcb)) := by
  cases hpolicy : c.policy with
  | fcfs => exact fcfsNext_done hrun (.inl hpolicy) (next_of_fcfs hrun (.inl hpolicy) ▸ h)
  | sjf => exact fcfsNext_done hrun (.inr hpolicy) (next_of_fcfs hrun (.inr hpolicy) ▸ h)
  | rr timeSlice => exact rrNext_done hrun hpolicy (next_of_rr hrun hpolicy ▸ h)
  | aging => exact absurd (next_of_aging hrun hpolicy ▸ h) agingNext_ne_goto

theorem fcfsNext_line (h : c.fcfsNext pcb i = .ok (.line c' pcb i frame)) :
    ¬ (c.machine.pcbs pcb).fileLength ≤ (c.machine.pcbs pcb).programCounter := by
  rw [fcfsNext] at h
  split_ifs at h with hpc
  · exact Nat.not_le.mpr hpc
  · cases Except.ok.inj h

theorem rrNext_line {timeSlice : ℕ} (h : c.rrNext timeSlice pcb i = .ok (.line c' pcb i frame)) :
    (c.machine.pcbs pcb).programCounter ≠ (c.machine.pcbs pcb).fileLength := by
  rw [rrNext] at h
  split_ifs at h with hpc
  · exact hpc.2
  · cases Except.ok.inj h

theorem next_line_released (h : c.next = .ok (.line c' pcb i frame)) : c.released = none := by
  obtain ⟨hrun, -⟩ := next_line h
  rw [released_running hrun]
  apply if_neg
  cases hpolicy : c.policy with
  | fcfs => exact fcfsNext_line (next_of_fcfs hrun (.inl hpolicy) ▸ h)
  | sjf => exact fcfsNext_line (next_of_fcfs hrun (.inr hpolicy) ▸ h)
  | rr timeSlice => exact rrNext_line (next_of_rr hrun hpolicy ▸ h)
  | aging => exact fun hdone => hdone

/-- The process that is released behind its line: by the ageing scheduler, if it was the last. -/
def resumeReleased (c : Sched s L W) (pcb : ℕ) (m : Machine s L W) : Option ℕ :=
  if c.policy = .aging ∧ (m.pcbs pcb).programCounter + 1 = (m.pcbs pcb).fileLength then some pcb
  else none

theorem resume_released (c : Sched s L W) (pcb i : ℕ) (frame : Fin s.numFrames) (code : ℤ)
    (m : Machine s L W) : ∃ m', (c.resume pcb i frame code m).machine = m' ∧
      m'.memory = m.memory ∧ m'.frameTable = m.frameTable ∧
      (∀ q, (m'.pcbs q).pageTable = (m.pcbs q).pageTable) ∧
      ((c.resumeReleased pcb m = none ∧ m'.allocated = m.allocated) ∨
        (c.resumeReleased pcb m = some pcb ∧ m'.allocated = m.allocated.erase pcb)) := by
  have hpages : ∀ q, ((c.counted pcb frame m).pcbs q).pageTable = (m.pcbs q).pageTable := by
    intro q
    rw [counted_pcbs]
    split_ifs with hq
    · rw [hq]
      rfl
    · rfl
  have hself : (c.counted pcb frame m).pcbs pcb = (m.pcbs pcb).advance := by
    rw [counted_pcbs, if_pos rfl]
  refine ⟨_, rfl, ?_⟩
  unfold resume resumeReleased
  cases hpolicy : c.policy with
  | fcfs => exact ⟨rfl, rfl, hpages, .inl ⟨by simp, rfl⟩⟩
  | sjf => exact ⟨rfl, rfl, hpages, .inl ⟨by simp, rfl⟩⟩
  | rr timeSlice => exact ⟨rfl, rfl, hpages, .inl ⟨by simp, rfl⟩⟩
  | aging =>
    simp only [agingEndTurn, hself, PCB.advance_programCounter, PCB.advance_fileLength]
    by_cases hpc : (m.pcbs pcb).programCounter + 1 = (m.pcbs pcb).fileLength
    · rw [if_pos hpc]
      exact ⟨rfl, rfl, hpages, .inr ⟨if_pos ⟨trivial, hpc⟩, rfl⟩⟩
    · rw [if_neg hpc]
      obtain ⟨queue, score, -, heq⟩ := (c.counted pcb frame m).requeue_eq pcb
      rw [heq]
      exact ⟨rfl, rfl, hpages, .inl ⟨if_neg fun hlast => hpc hlast.2, rfl⟩⟩

end Sched

end PicoShell.Scheduling

namespace PicoShell.Core

open Scheduling

variable {s : Sizes} {size : ℕ} {H : Type} {o : Setting s size H} {P P' : Process s size H}

namespace Process

def released : Process s size H → Option ℕ
  | scheduler c _ _ _ => c.released
  | line m [] _ (l :: _) _ => l.sched.resumeReleased l.pcb m
  | _ => none

/-- The next step releases no process that is in an entry of a frame in use. -/
def CleanRelease (P : Process s size H) : Prop := ∀ pcb ∈ P.released, P.memory.Unlisted pcb

theorem cleanRelease_none (h : P.released = none) : P.CleanRelease := by
  intro pcb hpcb
  rw [h] at hpcb
  cases hpcb

theorem cleanRelease_some {pcb : ℕ} (h : P.released = some pcb) :
    P.CleanRelease ↔ P.memory.Unlisted pcb := by
  unfold CleanRelease
  rw [h]
  simp

theorem goes_of_runFor (hrun : runFor o 1 P = some P') : Goes o P P' := by
  rw [runFor] at hrun
  split at hrun
  · rename_i P₁ hstep
    obtain rfl := Option.some.inj hrun
    exact hstep
  · cases hrun

theorem entriesLive_loads {m : Memory s size H} {queue : List ℕ} {host : H} {w w' : World size H}
    (hlive : P.memory.EntriesLive) (hadds : o.Adds host { P.memory with world := w } m)
    (hm : P'.memory = { m with world := w', queue := queue }) : P'.memory.EntriesLive := by
  have hworld : ({ P.memory with world := w } : Memory s size H).EntriesLive := hlive
  have hloaded := hworld.loads hadds
  rw [hm]
  exact hloaded

theorem entriesLive_iterate {c : Sched s (List UInt8) (World size H)}
    {commands input : List (List UInt8)} {stack : List (Level s size H)}
    (h : Nested (.scheduler c commands stack input)) (hlive : c.machine.EntriesLive)
    (hnext : iterate o c commands stack input = .ok P') :
    P'.memory.EntriesLive ↔ CleanRelease (.scheduler c commands stack input) := by
  obtain ⟨x, hx, hP⟩ := Exec.bind_ok hnext
  cases x with
  | ret =>
    obtain rfl := Except.ok.inj hP
    exact iff_of_true hlive (cleanRelease_none (Sched.released_idle (Sched.next_ret hx).1))
  | line c' pcb i frame =>
    obtain ⟨hrun, m, hfault, -, rfl⟩ := Sched.next_line hx
    obtain ⟨commands', -, rfl⟩ := openLine_ok hP
    refine iff_of_true ?_ (cleanRelease_none (Sched.next_line_released hx))
    have hloaded : m.EntriesLive := hlive.faults ((h.scheduler hrun).running_mem List.mem_cons_self) hfault
    exact hloaded
  | goto c' =>
    obtain rfl := Except.ok.inj hP
    rcases hrun : c.running with _ | ⟨pcb, i⟩
    · refine iff_of_true ?_ (cleanRelease_none (Sched.released_idle hrun))
      obtain ⟨-, ⟨_, _, -, -, -, hm⟩ | ⟨_, _, _, hrun', -⟩⟩ := Sched.next_goto hx
      · show c'.machine.EntriesLive
        rw [hm]
        exact hlive
      · rw [hrun] at hrun'
        cases hrun'
    · have hcons := h.scheduler hrun
      rcases Sched.next_done hrun hx with ⟨hdone, hm⟩ | ⟨hmore, m, hfault, hm⟩
      · have hreleased : released (.scheduler c commands stack input) = some pcb :=
          (Sched.released_running hrun).trans (if_pos hdone)
        rw [cleanRelease_some hreleased]
        show c'.machine.EntriesLive ↔ _
        rw [hm]
        exact hlive.release_iff hcons.nodup rfl rfl (fun _ => rfl) rfl
      · refine iff_of_true ?_
          (cleanRelease_none ((Sched.released_running hrun).trans (if_neg hmore)))
        have hloaded := hlive.faults (hcons.running_mem List.mem_cons_self) hfault
        show c'.machine.EntriesLive
        rcases hm with hm | hm
        · rwa [hm]
        · rw [hm]
          exact hloaded

/-- One step keeps the entries live just when it releases no process that is in one. -/
theorem entriesLive_iff (h : P.Nested) (hlive : P.memory.EntriesLive) (hgoes : Goes o P P')
    (halive : P'.Alive) : P'.memory.EntriesLive ↔ P.CleanRelease := by
  have hmove := goes_moves hgoes
  cases P with
  | prompt m input =>
    refine iff_of_true ?_ (cleanRelease_none rfl)
    cases hmove with
    | exits => exact absurd rfl (halive _ _)
    | loads _ _ _ _ _ hadds _ hm => exact entriesLive_loads hlive hadds hm
  | line m commands code stack input =>
    cases commands with
    | cons cmd commands =>
      refine iff_of_true ?_ (cleanRelease_none rfl)
      cases hmove with
      | exits => exact absurd rfl (halive _ _)
      | loads _ _ _ _ _ hadds _ hm => exact entriesLive_loads hlive hadds hm
    | nil =>
      cases stack with
      | nil =>
        refine iff_of_true ?_ (cleanRelease_none rfl)
        cases hmove with
        | exits => exact absurd rfl (halive _ _)
        | loads _ _ _ _ _ hadds _ hm => exact entriesLive_loads hlive hadds hm
      | cons l stack =>
        obtain rfl := Option.some.inj (Except.ok.inj hgoes)
        have hlive : m.EntriesLive := hlive
        obtain ⟨m', hm, hmem, htable, hpages, ⟨hnone, halloc⟩ | ⟨hsome, halloc⟩⟩ :=
          l.sched.resume_released l.pcb l.i l.frame code m
        · refine iff_of_true ?_ (cleanRelease_none hnone)
          show (l.sched.resume l.pcb l.i l.frame code m).machine.EntriesLive
          rw [hm]
          apply hlive.of_same m' hmem htable
          intro q hq _
          rw [halloc]
          exact ⟨hq, hpages q⟩
        · have hreleased : released (.line m [] code (l :: stack) input) = some l.pcb := hsome
          rw [cleanRelease_some hreleased]
          show (l.sched.resume l.pcb l.i l.frame code m).machine.EntriesLive ↔ _
          rw [hm]
          exact hlive.release_iff h.cons.nodup hmem htable hpages halloc
  | scheduler c commands stack input =>
    obtain ⟨P₁, hiterate, hP⟩ := Exec.map_ok hgoes
    obtain rfl := Option.some.inj hP
    exact entriesLive_iterate h hlive hiterate
  | exited m code => cases Except.ok.inj hgoes

instance (m : Memory s size H) (pcb : ℕ) : Decidable (m.Unlisted pcb) :=
  decidable_of_iff (∀ f : Fin s.numFrames, m.memory (f * s.frameSize) ≠ none →
    (m.frameTable f).map Prod.fst ≠ some pcb)
    (forall₂_congr fun f _ => by cases m.frameTable f <;> simp [Prod.ext_iff, eq_comm])

instance (P : Process s size H) : Decidable P.CleanRelease :=
  inferInstanceAs (Decidable (∀ pcb ∈ P.released, P.memory.Unlisted pcb))

/-- In a run of the shell, whatever its lines execute, that never releases a process which is in an
entry of a frame in use, each entry of a frame in use is of a process that was not released, the
one through which the next fault may evict a frame included.  No other step breaks this. -/
theorem entries_live {heap : ℕ → PCB s (List UInt8)} {world : World size H}
    {input : List (List UInt8)}
    (hrun : Relation.ReflTransGen (fun P P' => Goes o P P' ∧ P.CleanRelease)
      (start heap world input) P) (halive : P.Alive) :
    P.memory.EntriesLive ∧
      (P.memory.fstoreFindAvailableFrame = none → ∃ q page,
        P.memory.frameTable P.memory.getLruFrame = some (q, page) ∧ q ∈ P.memory.allocated) ∧
      ∀ P', Goes o P P' → P'.Alive → (P'.memory.EntriesLive ↔ P.CleanRelease) := by
  have hreached : Reached o P :=
    ⟨heap, world, input, Relation.ReflTransGen.mono (fun _ _ hgo => hgo.1) _ _ hrun⟩
  have hlive : P.memory.EntriesLive := by
    clear hreached
    induction hrun with
    | refl => exact fun _ hf => absurd rfl hf
    | @tail P₁ P₂ before hgoes ih =>
      have hbefore : Reached o P₁ :=
        ⟨heap, world, input, Relation.ReflTransGen.mono (fun _ _ hgo => hgo.1) _ _ before⟩
      have halive₁ := hgoes.1.alive
      exact (entriesLive_iff (hbefore.nested halive₁) (ih halive₁) hgoes.1 halive).mpr hgoes.2
  refine ⟨hlive, ?_, fun P' hgoes => entriesLive_iff (hreached.nested halive) hlive hgoes⟩
  intro hfind
  have hused := Machine.fstoreFindAvailableFrame_none hfind P.memory.getLruFrame
  obtain ⟨q, page, hentry, hq, -⟩ := hlive P.memory.getLruFrame hused
  exact ⟨q, page, hentry, hq⟩

def emptyFile (script : String) : Option (List (List UInt8)) :=
  if script = "e" then some [] else if script = "b" then some [ascii "x", ascii "y"] else none

/-- The empty process is released, and the other one evicts its own first page through a live entry.
Its release, behind its second line, is the step that leaves an entry of a released process. -/
theorem entries_live_empty : ∃ P P₁ P₂ : Process oneFrame 1 Unit,
    (P.running = some (2, 0) ∧ P.memory.allocated = [2] ∧
      (P.memory.pcbs 2).pageTable (P.memory.currentPage 2) = none ∧
      P.memory.fstoreFindAvailableFrame = none ∧
      ∃ q page, P.memory.frameTable P.memory.getLruFrame = some (q, page) ∧
        q ∈ P.memory.allocated) ∧
      P₁.memory.frameTable 0 = some (2, 1) ∧ P₁.memory.EntriesLive ∧
      Goes (Setting.ofFiles oneFrame 1 emptyFile) P₁ P₂ ∧ ¬ P₂.memory.EntriesLive := by
  have hevict : ((runWhile (Setting.ofFiles oneFrame 1 emptyFile) CleanRelease 8
      (startIn oneFrame 1 [ascii "exec e b FCFS"])).any fun P =>
        P.running = some (2, 0) ∧ P.memory.allocated = [2] ∧
          (P.memory.pcbs 2).pageTable (P.memory.currentPage 2) = none ∧
          P.memory.fstoreFindAvailableFrame = none) = true := by
    decide +kernel
  have hrelease : ((runWhile (Setting.ofFiles oneFrame 1 emptyFile) CleanRelease 12
      (startIn oneFrame 1 [ascii "exec e b FCFS"])).any fun P₁ =>
        P₁.running = some (2, 0) ∧ P₁.memory.frameTable 0 = some (2, 1) ∧ ¬ P₁.CleanRelease ∧
          (runFor (Setting.ofFiles oneFrame 1 emptyFile) 1 P₁).any fun P₂ =>
            (runFor (Setting.ofFiles oneFrame 1 emptyFile) 1 P₂).isSome = true) = true := by
    decide +kernel
  obtain ⟨P, hP, hrunning, halloc, hpage, hfind⟩ := exists_of_any hevict
  obtain ⟨P₁, hP₁, hrunning₁, hentry, hunclean, hlater⟩ := exists_of_any hrelease
  obtain ⟨P₂, hP₂, hmore⟩ := exists_of_any hlater
  obtain ⟨P₃, hP₃⟩ := Option.isSome_iff_exists.mp hmore
  have halive : P.Alive := by
    rintro m code rfl
    cases hrunning
  have halive₁ : P₁.Alive := by
    rintro m code rfl
    cases hrunning₁
  have hlive := (entries_live (reaches_runWhile hP) halive).2.1 hfind
  obtain ⟨hlive₁, -, hstep⟩ := entries_live (reaches_runWhile hP₁) halive₁
  have hgoes := goes_of_runFor hP₂
  refine ⟨P, P₁, P₂, ⟨hrunning, halloc, hpage, hfind, hlive⟩, hentry, hlive₁, hgoes, ?_⟩
  rw [hstep P₂ hgoes (goes_of_runFor hP₃).alive]
  exact hunclean

/-- A setting whose `malloc` does not return the address of a freed process again. -/
def Setting.ascending : Setting oneFrame 1 Unit :=
  let o := Setting.ofFiles oneFrame 1 twoCommands
  { o with
    env :=
      { o.env with
        malloc := fun m => max m.nextPid (m.allocated.foldr max 0 + 1)
        malloc_fresh := by
          intro m hmem
          have := le_foldr_max hmem
          omega } }

/-- One program of two lines comes to its end; the page fault of the next one evicts its last page
through the entry of the released process. -/
theorem entries_not_live : ∃ P : Process oneFrame 1 Unit, Reached Setting.ascending P ∧
    P.running = some (2, 0) ∧ (P.memory.pcbs 2).pageTable (P.memory.currentPage 2) = none ∧
      P.memory.fstoreFindAvailableFrame = none ∧
      P.memory.frameTable P.memory.getLruFrame = some (1, 1) ∧ P.memory.allocated = [2] ∧
      ¬ P.memory.EntriesLive := by
  have hcheck : ((runFor Setting.ascending 16
      (startIn oneFrame 1 [ascii "exec a FCFS", ascii "exec b FCFS"])).any fun P =>
        P.running = some (2, 0) ∧ (P.memory.pcbs 2).pageTable (P.memory.currentPage 2) = none ∧
          P.memory.fstoreFindAvailableFrame = none ∧
          P.memory.frameTable P.memory.getLruFrame = some (1, 1) ∧ P.memory.allocated = [2]) =
        true := by
    decide +kernel
  obtain ⟨P, hP, hrunning, hpage, hfind, hentry, halloc⟩ := exists_of_any hcheck
  refine ⟨P, (reached_startIn _ _).runFor hP, hrunning, hpage, hfind, hentry, halloc, ?_⟩
  intro hlive
  have hused := Machine.fstoreFindAvailableFrame_none hfind P.memory.getLruFrame
  obtain ⟨q, page, hentry', hq, -⟩ := hlive P.memory.getLruFrame hused
  rw [hentry] at hentry'
  obtain ⟨rfl, rfl⟩ := Prod.mk.inj (Option.some.inj hentry')
  rw [halloc] at hq
  exact absurd hq (by decide)

end Process

end PicoShell.Core
