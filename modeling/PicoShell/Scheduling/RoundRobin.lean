import Mathlib.Algebra.GroupWithZero.Nat
import Mathlib.Algebra.Order.BigOperators.Group.List
import Mathlib.Algebra.Order.Group.Nat
import PicoShell.Scheduling.Transparent

namespace PicoShell.Scheduling

variable {s : Sizes} {L W : Type} {env : Env s L W} {m m' m₁ : Machine s L W}
  {c c' : Sched s L W} {r : Option (ℕ × ℕ)} {qs queue : List ℕ} {pcb page p q i ts d n : ℕ} {frame : Fin s.numFrames}
  {files : String → Option (List L)} {programs : List (Option String)}

/-- A step of the round-robin scheduler while a process runs.  A page fault ends the turn. -/
inductive Sched.Turn (env : Env s L W) (ts pcb i : ℕ) (c : Sched s L W) :
    Machine s L W → Option (ℕ × ℕ) → Prop
  | line (frame : Fin s.numFrames) (hi : i < ts)
      (hmore : (c.machine.pcbs pcb).programCounter ≠ (c.machine.pcbs pcb).fileLength)
      (hpage : (c.machine.pcbs pcb).pageTable (c.machine.currentPage pcb) = some frame) :
      Turn env ts pcb i c (c.machine.executeLine env pcb frame).2 (some (pcb, i + 1))
  | fault (frame : Fin s.numFrames) (m : Machine s L W) (hi : i < ts)
      (hmore : (c.machine.pcbs pcb).programCounter ≠ (c.machine.pcbs pcb).fileLength)
      (hpage : (c.machine.pcbs pcb).pageTable (c.machine.currentPage pcb) = none)
      (hfault : c.machine.pageFault pcb (c.machine.currentPage pcb) = .ok (frame, m)) :
      Turn env ts pcb i c (m.appendProcess pcb) none
  | release (hend : (c.machine.pcbs pcb).programCounter = (c.machine.pcbs pcb).fileLength) :
      Turn env ts pcb i c (c.machine.pcbDeinit pcb) none
  | expire (hi : ts ≤ i)
      (hmore : (c.machine.pcbs pcb).programCounter ≠ (c.machine.pcbs pcb).fileLength) :
      Turn env ts pcb i c (c.machine.appendProcess pcb) none

theorem Sched.Turn.running (h : c.Turn env ts pcb i m' r) :
    r = none ∨ (r = some (pcb, i + 1) ∧ i < ts) := by
  cases h with
  | line frame hi => exact .inr ⟨rfl, hi⟩
  | fault => exact .inl rfl
  | release => exact .inl rfl
  | expire => exact .inl rfl

theorem Sched.rrEndTurn_eq (c : Sched s L W) (pcb : ℕ) :
    ((c.machine.pcbs pcb).programCounter = (c.machine.pcbs pcb).fileLength ∧
      (c.rrEndTurn pcb).machine = c.machine.pcbDeinit pcb ∧ (c.rrEndTurn pcb).running = none) ∨
    ((c.machine.pcbs pcb).programCounter ≠ (c.machine.pcbs pcb).fileLength ∧
      (c.rrEndTurn pcb).machine = c.machine.appendProcess pcb ∧
      (c.rrEndTurn pcb).running = none) := by
  unfold rrEndTurn
  simp only
  split_ifs with hend
  · exact .inl ⟨hend, rfl, rfl⟩
  · exact .inr ⟨hend, rfl, rfl⟩

theorem pageFault_same (h : m.pageFault pcb page = .ok (frame, m')) (q : ℕ) :
    (m'.pcbs q).pid = (m.pcbs q).pid ∧
      (m'.pcbs q).programCounter = (m.pcbs q).programCounter ∧
      (m'.pcbs q).fileLength = (m.pcbs q).fileLength := (Machine.pageFault_processes h).same q

theorem Sched.turn_of_step (hrun : c.running = some (pcb, i)) (hpolicy : c.policy = .rr ts)
    (h : c.step env = .ok (some c')) : c.Turn env ts pcb i c'.machine c'.running := by
  have hstep := step_running hrun h
  rw [hpolicy] at hstep
  rcases rrStep_inv hstep with ⟨hgo, hpage, frame, m, hfault, rfl⟩ | ⟨hgo, frame, hpage, rfl⟩ |
    ⟨hgo, rfl⟩
  · -- the fault changes neither the program counter nor the length
    have hkeep : (m.pcbs pcb).programCounter ≠ (m.pcbs pcb).fileLength := by
      rw [(pageFault_same hfault pcb).2.1, (pageFault_same hfault pcb).2.2]
      exact hgo.2
    rcases rrEndTurn_eq { c with machine := m } pcb with ⟨hend, -⟩ | ⟨-, hm, hr⟩
    · exact absurd hend hkeep
    · rw [hm, hr]
      exact .fault frame m hgo.1 hgo.2 hpage hfault
  · exact .line frame hgo.1 hgo.2 hpage
  · rcases rrEndTurn_eq c pcb with ⟨hend, hm, hr⟩ | ⟨hmore, hm, hr⟩
    · rw [hm, hr]
      exact .release hend
    · rw [hm, hr]
      have hi : ts ≤ i := by
        by_contra hlt
        exact hgo ⟨by omega, hmore⟩
      exact .expire hi hmore

/-- The invariant of the round-robin scheduler on different programs. -/
structure Turning (ts : ℕ) (qs : List ℕ) (c : Sched s L W) : Prop where
  policy : c.policy = .rr ts
  advancing : Advancing (Scope.all s) qs c
  exclusive : Exclusive c.machine

theorem Consistent.running_not_queued (h : Consistent [pcb] m) : pcb ∉ m.queue := by
  have hnodup := h.perm.nodup_iff.mp h.nodup
  exact (List.nodup_cons.mp hnodup).1

namespace Machine

def debt (m : Machine s L W) (q : ℕ) : ℕ := (m.pcbs q).fileLength - (m.pcbs q).programCounter

def debts (m : Machine s L W) (qs : List ℕ) : ℕ := (qs.map m.debt).sum

theorem debts_le (h : ∀ q ∈ qs, m'.debt q ≤ m.debt q) : m'.debts qs ≤ m.debts qs :=
  List.sum_le_sum h

theorem debts_lt (h : ∀ q ∈ qs, m'.debt q ≤ m.debt q) (hq : q ∈ qs) (hlt : m'.debt q < m.debt q) :
    m'.debts qs < m.debts qs :=
  List.sum_lt_sum m'.debt m.debt h ⟨q, hq, hlt⟩

theorem debt_congr (hpc : (m'.pcbs q).programCounter = (m.pcbs q).programCounter)
    (hlen : (m'.pcbs q).fileLength = (m.pcbs q).fileLength) : m'.debt q = m.debt q := by
  unfold debt
  rw [hpc, hlen]

theorem debt_executeLine (m : Machine s L W) (env : Env s L W) (pcb : ℕ) (frame : Fin s.numFrames)
    (q : ℕ) : (m.executeLine env pcb frame).2.debt q ≤ m.debt q ∧
      ((m.pcbs pcb).programCounter < (m.pcbs pcb).fileLength →
        (m.executeLine env pcb frame).2.debt pcb < m.debt pcb) := by
  unfold debt
  rw [executeLine_pcbs, executeLine_pcbs, if_pos rfl]
  constructor
  · split_ifs with hq
    · rw [hq, PCB.advance_fileLength, PCB.advance_programCounter]
      omega
    · exact Nat.le_refl _
  · intro hlt
    rw [PCB.advance_fileLength, PCB.advance_programCounter]
    omega

end Machine

namespace Turning

theorem idle (h : Turning ts qs c) (hidle : c.running = none) : Consistent [] c.machine :=
  h.advancing.cons.of_idle hidle

theorem running (h : Turning ts qs c) (hrun : c.running = some (pcb, i)) :
    Consistent [pcb] c.machine ∧ pcb ∈ qs ∧
      (c.machine.pcbs pcb).programCounter ≤ (c.machine.pcbs pcb).fileLength := by
  apply h.advancing.running _ hrun
  rw [h.policy]
  exact Policy.noConfusion

theorem step (h : Turning ts qs c) (hstep : c.step env = .ok (some c')) : Turning ts qs c' := by
  obtain ⟨hexcl, hadv⟩ := h.exclusive.steps h.advancing (Steps.single hstep)
  exact ⟨(Sched.step_cases hstep).1.trans h.policy, hadv, hexcl⟩

theorem steps (h : Turning ts qs c) (hrun : Steps env (fun _ => True) c c') : Turning ts qs c' := by
  induction hrun with
  | refl => exact h
  | step _ _ hstep ih => exact ih.step hstep

theorem next (h : Turning ts qs c) (env : Env s L W) (hrun : c.running = some (pcb, i)) :
    ∃ c', c.step env = .ok (some c') ∧ c.Turn env ts pcb i c'.machine c'.running := by
  have hpolicy : c.policy ≠ .aging := by
    rw [h.policy]
    exact Policy.noConfusion
  obtain ⟨c', hstep⟩ := h.advancing.next h.exclusive hpolicy env hrun
  exact ⟨c', hstep, Sched.turn_of_step hrun h.policy hstep⟩

end Turning

/-- No turn adds lines, or processes other than the one whose turn it is. -/
theorem Sched.Turn.debts (h : c.Turn env ts pcb i m' r) : m'.debts qs ≤ c.machine.debts qs ∧
    (r = none → m'.queue.length ≤ c.machine.queue.length + 1) ∧
    (r ≠ none → m'.queue = c.machine.queue) := by
  cases h with
  | line frame =>
    exact ⟨Machine.debts_le fun q _ => (c.machine.debt_executeLine env pcb frame q).1,
      nofun, fun _ => rfl⟩
  | fault frame m _ _ _ hfault =>
    refine ⟨Machine.debts_le fun q _ => ?_, fun _ => ?_, fun hr => absurd rfl hr⟩
    · obtain ⟨-, hpc, hlen⟩ := pageFault_same hfault q
      exact (Machine.debt_congr hpc hlen).le
    · show (m.queue ++ [pcb]).length ≤ _
      rw [(Machine.pageFault_processes hfault).2.1, List.length_append, List.length_singleton]
  | release =>
    exact ⟨Nat.le_refl _, fun _ => Nat.le_succ _, fun hr => absurd rfl hr⟩
  | expire =>
    refine ⟨Nat.le_refl _, fun _ => ?_, fun hr => absurd rfl hr⟩
    exact (List.length_append ..).le

theorem Turning.finish (h : Turning ts qs c) (env : Env s L W) (hrun : c.running = some (pcb, i)) :
    ∃ c', Steps env (fun _ => True) c c' ∧ c'.running = none ∧
      c'.machine.debts qs ≤ c.machine.debts qs ∧
      c'.machine.queue.length ≤ c.machine.queue.length + 1 := by
  induction hd : ts - i generalizing c i with
  | zero =>
    obtain ⟨c', hstep, hturn⟩ := h.next env hrun
    obtain ⟨hdebts, hlen, -⟩ := hturn.debts
    rcases hturn.running with hidle | ⟨-, hi⟩
    · exact ⟨c', .single hstep, hidle, hdebts, hlen hidle⟩
    · omega
  | succ d ih =>
    obtain ⟨c', hstep, hturn⟩ := h.next env hrun
    obtain ⟨hdebts, hlen, hqueue⟩ := hturn.debts
    rcases hturn.running with hidle | ⟨hrun', -⟩
    · exact ⟨c', .single hstep, hidle, hdebts, hlen hidle⟩
    · obtain ⟨c₂, hrest, hidle, hle, hlen₂⟩ := ih (h.step hstep) hrun' (by omega)
      refine ⟨c₂, (Steps.single hstep).trans hrest, hidle, hle.trans hdebts, ?_⟩
      rwa [hqueue (by simp [hrun'])] at hlen₂

end PicoShell.Scheduling
