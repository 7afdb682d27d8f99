import PicoShell.Lib.Linked
import PicoShell.Scheduling.ReadyQueue

/-! `ready_queue.c` as it stores the queue: the head, the links of the processes, and a
count beside them.  It refines the queue of the machine, which is a list. -/

namespace PicoShell.Scheduling

open Linked

/-- The globals of `ready_queue.c`, and the processes by address with their links. -/
structure LinkedQueue (s : Sizes) (L : Type) where
  readyQueueHead : Option ℕ
  processCount : ℤ
  pcbs : ℕ → PCB s L
  next : ℕ → Option ℕ

namespace LinkedQueue

variable {s : Sizes} {L W : Type}

section Operations

variable (q : LinkedQueue s L)

/-- The search for the last process: `while (curr->next != NULL)`. -/
def lastFrom : ℕ → ℕ → Exec ℕ
  | 0, _ => .error .fuel
  | fuel + 1, curr =>
    match q.next curr with
    | none => .ok curr
    | some next => lastFrom fuel next

/-- `append_process`, with a search of at most `fuel` steps: the process number and the queue. -/
def appendProcess (fuel pcb : ℕ) : Exec (ℕ × LinkedQueue s L) :=
  let q := { q with processCount := q.processCount + 1 }
  match q.readyQueueHead with
  | none => .ok ((q.pcbs pcb).pid, { q with readyQueueHead := some pcb })
  | some head => do
    let curr ← q.lastFrom fuel head
    return ((q.pcbs pcb).pid, { q with next := Function.update q.next curr (some pcb) })

def appendleftProcess (pcb : ℕ) : ℕ × LinkedQueue s L :=
  let q := { q with processCount := q.processCount + 1 }
  match q.readyQueueHead with
  | none => ((q.pcbs pcb).pid, { q with readyQueueHead := some pcb })
  | some head => ((q.pcbs pcb).pid,
      { q with readyQueueHead := some pcb, next := Function.update q.next pcb (some head) })

def popProcess : Option ℕ × LinkedQueue s L :=
  match q.readyQueueHead with
  | none => (none, q)
  | some popped => (some popped,
      { q with
        readyQueueHead := q.next popped
        next := Function.update q.next popped none
        processCount := q.processCount - 1 })

def getProcessCount : ℤ := q.processCount

def popProcesses : ℕ → LinkedQueue s L → List (Option ℕ) × LinkedQueue s L
  | 0, q => ([], q)
  | n + 1, q =>
    let (pcb, q) := q.popProcess
    let (pcbs, q) := popProcesses n q
    (pcb :: pcbs, q)

def swapAt (queue : List (Option ℕ)) (ij : ℕ × ℕ) : List (Option ℕ) :=
  match queue.getD ij.1 none, queue.getD ij.2 none with
  | some p, some p' =>
    if (q.pcbs p').jobScore < (q.pcbs p).jobScore then
      (queue.set ij.1 (some p')).set ij.2 (some p)
    else queue
  | _, _ => queue

def appendProcesses (fuel : ℕ) : List (Option ℕ) → LinkedQueue s L → Exec (LinkedQueue s L)
  | [], q => .ok q
  | none :: queue, q => appendProcesses fuel queue q
  | some pcb :: queue, q => do
    let (_, q) ← q.appendProcess fuel pcb
    appendProcesses fuel queue q

def sortReadyQueue (fuel : ℕ) : Exec (LinkedQueue s L) :=
  let (queue, q) := popProcesses maxNumPrograms q
  appendProcesses fuel (Machine.sortIndices.foldl q.swapAt queue) q

/-- The loop of `age_ready_queue` from `curr` on. -/
def ageFrom : ℕ → Option ℕ → LinkedQueue s L → Exec (LinkedQueue s L)
  | _, none, q => .ok q
  | 0, some _, _ => .error .fuel
  | fuel + 1, some curr, q =>
    let x := q.pcbs curr
    let q := if 0 < x.jobScore then
        { q with pcbs := Function.update q.pcbs curr { x with jobScore := x.jobScore - 1 } }
      else q
    ageFrom fuel (q.next curr) q

def ageReadyQueue (fuel : ℕ) : Exec (LinkedQueue s L) := ageFrom fuel q.readyQueueHead q

end Operations

/-- The links lead through the processes of `queue`, and the count is their number. -/
structure Holds (q : LinkedQueue s L) (queue : List ℕ) : Prop where
  links : Leads q.next q.readyQueueHead queue
  nodup : queue.Nodup
  count : q.getProcessCount = queue.length

/-- The links hold the queue of the machine. -/
structure Represents (q : LinkedQueue s L) (m : Machine s L W) : Prop where
  holds : q.Holds m.queue
  pcbs : q.pcbs = m.pcbs

variable {q : LinkedQueue s L} {m : Machine s L W} {p : Option ℕ} {pcb b fuel : ℕ} {queue : List ℕ}

theorem lastFrom_ok (h : Leads q.next p (queue ++ [b])) (hp : p = some pcb)
    (hfuel : queue.length < fuel) : q.lastFrom fuel pcb = .ok b := by
  induction queue generalizing p pcb fuel with
  | nil =>
    obtain ⟨fuel, rfl⟩ := Nat.exists_eq_succ_of_ne_zero (Nat.ne_of_gt hfuel)
    obtain ⟨hb, hend⟩ := h
    rw [hp, Option.some.injEq] at hb
    subst hb
    rw [lastFrom, leads_nil.mp hend]
  | cons c queue ih =>
    obtain ⟨fuel, rfl⟩ := Nat.exists_eq_succ_of_ne_zero (Nat.ne_of_gt (Nat.zero_lt_of_lt hfuel))
    obtain ⟨hc, hrest⟩ := h
    rw [hp, Option.some.injEq] at hc
    subst hc
    obtain ⟨d, hd⟩ : ∃ d, q.next pcb = some d := by
      cases hnext : q.next pcb with
      | none =>
        rw [hnext, leads_none] at hrest
        simp at hrest
      | some d => exact ⟨d, rfl⟩
    rw [lastFrom, hd]
    exact ih hrest hd (Nat.lt_of_succ_lt_succ hfuel)

theorem Represents.appendProcess (h : q.Represents m) (hpcb : pcb ∉ m.queue)
    (hnext : q.next pcb = none) (hfuel : m.queue.length ≤ fuel) :
    ∃ q', q.appendProcess fuel pcb = .ok ((m.pcbs pcb).pid, q') ∧
      q'.Represents (m.appendProcess pcb) ∧ ∀ a, a ∉ m.queue → q'.next a = q.next a := by
  have hcount : q.processCount + 1 = ((m.queue ++ [pcb]).length : ℤ) := by
    rw [List.length_append, List.length_singleton]
    push_cast
    exact congrArg (· + 1) h.holds.count
  have hnodup : (m.queue ++ [pcb]).Nodup := by
    refine List.nodup_append.mpr ⟨h.holds.nodup, List.nodup_singleton pcb, ?_⟩
    intro a ha c hc
    rw [List.mem_singleton.mp hc]
    rintro rfl
    exact hpcb ha
  rw [← h.pcbs]
  -- An empty queue gets a head; otherwise the loop walks to the last process and links it.
  rcases List.eq_nil_or_concat m.queue with hnil | ⟨init, b, hqueue⟩
  · have hhead := h.holds.links
    rw [hnil, leads_nil] at hhead
    refine ⟨{ q with readyQueueHead := some pcb, processCount := q.processCount + 1 }, ?_,
      ⟨⟨?_, hnodup, hcount⟩, h.pcbs⟩, fun _ _ => rfl⟩
    · simp only [LinkedQueue.appendProcess, hhead]
    show Leads q.next (some pcb) (m.queue ++ [pcb])
    rw [hnil]
    exact ⟨rfl, hnext⟩
  · rw [List.concat_eq_append] at hqueue
    have hlinks := h.holds.links
    obtain ⟨head, hhead⟩ : ∃ head, q.readyQueueHead = some head := by
      cases hh : q.readyQueueHead with
      | none =>
        rw [hh, hqueue, leads_none] at hlinks
        simp at hlinks
      | some head => exact ⟨head, rfl⟩
    rw [hqueue] at hlinks hpcb hfuel
    rw [List.length_append, List.length_singleton] at hfuel
    have hlast : ({ q with processCount := q.processCount + 1 } : LinkedQueue s L).lastFrom fuel head =
        .ok b := lastFrom_ok hlinks hhead hfuel
    refine ⟨{ q with
      processCount := q.processCount + 1
      next := Function.update q.next b (some pcb) }, ?_, ⟨⟨?_, hnodup, hcount⟩, h.pcbs⟩, ?_⟩
    · simp only [LinkedQueue.appendProcess, hhead]
      rw [hhead] at hlast
      simp only [hlast, bind, Except.bind]
      rfl
    · show Leads (Function.update q.next b (some pcb)) q.readyQueueHead (m.queue ++ [pcb])
      rw [hqueue]
      exact hlinks.concat hpcb hnext
    · intro a ha
      apply Function.update_of_ne
      rintro rfl
      exact ha (by simp [hqueue])

theorem Represents.appendleftProcess (h : q.Represents m) (hpcb : pcb ∉ m.queue)
    (hnext : q.next pcb = none) :
    (q.appendleftProcess pcb).2.Represents (m.appendleftProcess pcb) := by
  have hcount : q.processCount + 1 = ((pcb :: m.queue).length : ℤ) := by
    rw [List.length_cons]
    push_cast
    exact congrArg (· + 1) h.holds.count
  have hnodup : (pcb :: m.queue).Nodup := List.nodup_cons.mpr ⟨hpcb, h.holds.nodup⟩
  have hlinks := h.holds.links
  cases hhead : q.readyQueueHead with
  | none =>
    have hq : (q.appendleftProcess pcb).2 =
        { q with readyQueueHead := some pcb, processCount := q.processCount + 1 } := by
      simp only [LinkedQueue.appendleftProcess, hhead]
    rw [hq]
    refine ⟨⟨⟨rfl, ?_⟩, hnodup, hcount⟩, h.pcbs⟩
    rwa [hnext, ← hhead]
  | some head =>
    have hq : (q.appendleftProcess pcb).2 = { q with
        readyQueueHead := some pcb
        processCount := q.processCount + 1
        next := Function.update q.next pcb (some head) } := by
      simp only [LinkedQueue.appendleftProcess, hhead]
    rw [hq]
    rw [hhead] at hlinks
    exact ⟨⟨hlinks.cons_update hpcb, hnodup, hcount⟩, h.pcbs⟩

/-- The popped process is the one the machine pops; its link is cleared, and no other one changes. -/
theorem Represents.popProcess (h : q.Represents m) :
    q.popProcess.1 = m.popProcess.1 ∧ q.popProcess.2.Represents m.popProcess.2 ∧
      ∀ a, q.popProcess.2.next a = if q.popProcess.1 = some a then none else q.next a := by
  have hlinks := h.holds.links
  have hnodup := h.holds.nodup
  have hcount := h.holds.count
  cases hqueue : m.queue with
  | nil =>
    rw [hqueue, leads_nil] at hlinks
    have hq : q.popProcess = (none, q) := by simp only [LinkedQueue.popProcess, hlinks]
    have hm : m.popProcess = (none, m) := by simp only [Machine.popProcess, hqueue]
    rw [hq, hm]
    exact ⟨rfl, h, fun a => by simp⟩
  | cons pcb queue =>
    rw [hqueue] at hlinks hnodup hcount
    obtain ⟨hhead, -⟩ := id hlinks
    have hq : q.popProcess = (some pcb, { q with
        readyQueueHead := q.next pcb
        next := Function.update q.next pcb none
        processCount := q.processCount - 1 }) := by simp only [LinkedQueue.popProcess, hhead]
    have hm : m.popProcess = (some pcb, { m with queue := queue }) := by
      simp only [Machine.popProcess, hqueue]
    rw [hq, hm]
    refine ⟨rfl, ⟨⟨hlinks.tail_update none, (List.nodup_cons.mp hnodup).2, ?_⟩, h.pcbs⟩, ?_⟩
    · have hcount : q.processCount = ((pcb :: queue).length : ℤ) := hcount
      show q.processCount - 1 = (queue.length : ℤ)
      rw [hcount, List.length_cons]
      push_cast
      omega
    · intro a
      refine (Function.update_apply _ _ _ _).trans (if_congr ?_ rfl rfl)
      exact ⟨fun heq => congrArg some heq.symm, fun heq => (Option.some.inj heq).symm⟩

/-- The first loop of the sort takes the same processes, and clears their links. -/
theorem Represents.popProcesses (h : q.Represents m) (n : ℕ) :
    (LinkedQueue.popProcesses n q).1 = (Machine.popProcesses n m).1 ∧
      (LinkedQueue.popProcesses n q).2.Represents (Machine.popProcesses n m).2 ∧
      ∀ a, q.next a = none ∨ some a ∈ (Machine.popProcesses n m).1 →
        (LinkedQueue.popProcesses n q).2.next a = none := by
  induction n generalizing q m with
  | zero => exact ⟨rfl, h, fun a ha => ha.resolve_right (by simp [Machine.popProcesses])⟩
  | succ n ih =>
    obtain ⟨hpop, hrep, hnext⟩ := h.popProcess
    obtain ⟨hpops, hreps, hnexts⟩ := ih hrep
    refine ⟨?_, hreps, ?_⟩
    · show q.popProcess.1 :: (LinkedQueue.popProcesses n q.popProcess.2).1 =
        m.popProcess.1 :: (Machine.popProcesses n m.popProcess.2).1
      rw [hpop, hpops]
    · intro a ha
      apply hnexts
      rw [hnext a]
      rcases ha with ha | ha
      · rw [ha, ite_self]
        exact .inl rfl
      · rcases List.mem_cons.mp (show some a ∈ m.popProcess.1 :: _ from ha) with ha | ha
        · exact .inl (if_pos (hpop.trans ha.symm))
        · exact .inr ha

theorem swapAt_eq (h : q.pcbs = m.pcbs) : q.swapAt = m.swapAt := by
  obtain ⟨head, count, pcbs, next⟩ := q
  obtain rfl : pcbs = m.pcbs := h
  rfl

/-- The last loop of the sort appends processes that are not queued and have no link. -/
theorem Represents.appendProcesses {popped : List (Option ℕ)} (h : q.Represents m)
    (hnodup : (m.queue ++ popped.reduceOption).Nodup)
    (hnext : ∀ a ∈ popped.reduceOption, q.next a = none)
    (hfuel : (m.queue ++ popped.reduceOption).length ≤ fuel) :
    ∃ q', LinkedQueue.appendProcesses fuel popped q = .ok q' ∧
      q'.Represents (popped.reduceOption.foldl Machine.appendProcess m) := by
  induction popped generalizing q m with
  | nil => exact ⟨q, rfl, h⟩
  | cons x popped ih =>
    cases x with
    | none =>
      rw [List.reduceOption_cons_of_none] at hnodup hnext hfuel ⊢
      exact ih h hnodup hnext hfuel
    | some pcb =>
      rw [List.reduceOption_cons_of_some] at hnodup hnext hfuel ⊢
      have hmem : ∀ a ∈ pcb :: popped.reduceOption, a ∉ m.queue := fun a ha hin =>
        (List.nodup_append.mp hnodup).2.2 a hin a ha rfl
      rw [List.length_append] at hfuel
      obtain ⟨q₁, hrun, hrep, hsame⟩ := h.appendProcess (hmem pcb List.mem_cons_self)
        (hnext pcb List.mem_cons_self) (show m.queue.length ≤ fuel by omega)
      have hqueue : (m.appendProcess pcb).queue ++ popped.reduceOption =
          m.queue ++ pcb :: popped.reduceOption := by simp [Machine.appendProcess]
      obtain ⟨q', hrest, hrep'⟩ := ih hrep (by rwa [hqueue])
        (fun a ha => by
          rw [hsame a (hmem a (List.mem_cons_of_mem _ ha))]
          exact hnext a (List.mem_cons_of_mem _ ha)) (by rwa [hqueue, List.length_append])
      refine ⟨q', ?_, hrep'⟩
      simp only [LinkedQueue.appendProcesses, hrun, bind, Except.bind]
      exact hrest

theorem Represents.sortReadyQueue (h : q.Represents m) (hfuel : m.queue.length ≤ fuel) :
    ∃ q', q.sortReadyQueue fuel = .ok q' ∧ q'.Represents m.sortReadyQueue := by
  obtain ⟨hpops, hrep, hnext⟩ := h.popProcesses maxNumPrograms
  obtain ⟨queue, hperm, hsort⟩ := m.sortReadyQueue_eq
  have hswap := swapAt_eq hrep.pcbs
  -- the processes that go back are those that were popped
  have hback : (Machine.sortIndices.foldl (Machine.popProcesses maxNumPrograms m).2.swapAt
      (Machine.popProcesses maxNumPrograms m).1).reduceOption.Perm
      (Machine.popProcesses maxNumPrograms m).1.reduceOption := by
    simp only [Machine.popProcesses_padded, Machine.foldl_swapAt_padded, reduceOption_padded]
    exact Exchange.perm_foldl_exchange _ _ _
  have hqueue : (Machine.popProcesses maxNumPrograms m).2.queue ++ (Machine.sortIndices.foldl
      (Machine.popProcesses maxNumPrograms m).2.swapAt
        (Machine.popProcesses maxNumPrograms m).1).reduceOption = queue := by
    have hsorted : ((Machine.sortIndices.foldl (Machine.popProcesses maxNumPrograms m).2.swapAt
        (Machine.popProcesses maxNumPrograms m).1).reduceOption.foldl Machine.appendProcess
          (Machine.popProcesses maxNumPrograms m).2).queue = queue := congrArg Machine.queue hsort
    rwa [Machine.foldl_appendProcess] at hsorted
  obtain ⟨q', hrun, hrep'⟩ := hrep.appendProcesses (hqueue ▸ hperm.symm.nodup h.holds.nodup)
    (fun a ha => hnext a (.inr (List.reduceOption_mem_iff.mp (hback.mem_iff.mp ha))))
    (hqueue ▸ hperm.length_eq.trans_le hfuel)
  refine ⟨q', ?_, hrep'⟩
  rw [← hswap, ← hpops] at hrun
  exact hrun

def ageProcess (m : Machine s L W) (pcb : ℕ) : Machine s L W :=
  if 0 < (m.pcbs pcb).jobScore then
    m.modify pcb fun x => { x with jobScore := x.jobScore - 1 }
  else m

theorem ageFrom_ok (h : Leads q.next p queue) (hpcbs : q.pcbs = m.pcbs)
    (hfuel : queue.length ≤ fuel) :
    ageFrom fuel p q = .ok { q with pcbs := (queue.foldl ageProcess m).pcbs } := by
  induction queue generalizing p q m fuel with
  | nil =>
    rw [leads_nil.mp h]
    simp only [ageFrom, List.foldl_nil, ← hpcbs]
  | cons pcb queue ih =>
    obtain ⟨fuel, rfl⟩ := Nat.exists_eq_succ_of_ne_zero (Nat.ne_of_gt (Nat.zero_lt_of_lt hfuel))
    obtain ⟨rfl, h⟩ := h
    have hage : (if 0 < (q.pcbs pcb).jobScore then
        ({ q with pcbs := Function.update q.pcbs pcb
                    { q.pcbs pcb with jobScore := (q.pcbs pcb).jobScore - 1 } } : LinkedQueue s L)
        else q) = { q with pcbs := (ageProcess m pcb).pcbs } := by
      unfold ageProcess
      rw [← hpcbs]
      split_ifs
      · simp only [Machine.modify, ← hpcbs]
      · simp only [← hpcbs]
    simp only [ageFrom, hage, List.foldl_cons]
    exact ih h rfl (Nat.le_of_succ_le_succ hfuel)

theorem Represents.ageReadyQueue (h : q.Represents m) (hfuel : m.queue.length ≤ fuel) :
    ∃ q', q.ageReadyQueue fuel = .ok q' ∧ q'.Represents m.ageReadyQueue := by
  refine ⟨_, ageFrom_ok h.holds.links h.pcbs hfuel, ?_, rfl⟩
  obtain ⟨score, hage⟩ := m.ageReadyQueue_eq
  rw [hage]
  exact ⟨h.holds.links, h.holds.nodup, h.holds.count⟩

end LinkedQueue

inductive QueueCall
  | append (pcb : ℕ)
  | appendleft (pcb : ℕ)
  | pop
  | sort
  | age

namespace QueueCall

variable {s : Sizes} {L : Type}

def exec (fuel : ℕ) (q : LinkedQueue s L) : QueueCall → Exec (Option ℕ × LinkedQueue s L)
  | append pcb => do
    let (_, q) ← q.appendProcess fuel pcb
    return (none, q)
  | appendleft pcb => .ok (none, (q.appendleftProcess pcb).2)
  | pop => .ok q.popProcess
  | sort => do
    let q ← q.sortReadyQueue fuel
    return (none, q)
  | age => do
    let q ← q.ageReadyQueue fuel
    return (none, q)

/-- A process that is added has a cleared link, and the links from the head do not lead to it. -/
def Ready (q : LinkedQueue s L) : QueueCall → Prop
  | append pcb | appendleft pcb =>
    q.next pcb = none ∧ ∀ n, follow q.next q.readyQueueHead n ≠ some pcb
  | _ => True

/-- What a call does to the list of queued processes. -/
def Effect (q : LinkedQueue s L) (queue : List ℕ) (popped : Option ℕ) (q' : LinkedQueue s L)
    (queue' : List ℕ) : QueueCall → Prop
  | append pcb => queue' = queue ++ [pcb]
  | appendleft pcb => queue' = pcb :: queue
  | pop => popped = queue.head? ∧ queue' = queue.tail ∧ (queue = [] → q' = q)
  | sort => queue'.Perm queue
  | age => queue' = queue

/-- In the run of the calls, as long as they are ready, every call succeeds with its effect on the
list that the links hold. -/
def Refines (fuel : ℕ) : List QueueCall → LinkedQueue s L → List ℕ → Prop
  | [], q, queue => q.Holds queue
  | call :: calls, q, queue => q.Holds queue ∧ (call.Ready q → ∃ popped q' queue',
      call.exec fuel q = .ok (popped, q') ∧ call.Effect q queue popped q' queue' ∧
      Refines fuel calls q' queue')

variable {q : LinkedQueue s L} {call : QueueCall} {calls : List QueueCall} {queue : List ℕ} {fuel : ℕ}

theorem exec_ok (h : q.Holds queue) (hready : call.Ready q) (hfuel : queue.length ≤ fuel) :
    ∃ popped q' queue', call.exec fuel q = .ok (popped, q') ∧
      call.Effect q queue popped q' queue' ∧ q'.Holds queue' ∧ queue'.length ≤ queue.length + 1 := by
  -- the machine with the same queue
  have hrep : q.Represents ({ memInit q.pcbs () with queue := queue } : Machine s L Unit) := ⟨h, rfl⟩
  cases call with
  | append pcb =>
    have hpcb : pcb ∉ queue := fun hin =>
      (h.links.mem_iff.mp hin).elim fun n hn => hready.2 n hn
    obtain ⟨q', hrun, hrep', -⟩ := hrep.appendProcess hpcb hready.1 hfuel
    refine ⟨none, q', queue ++ [pcb], ?_, rfl, hrep'.holds, by simp⟩
    simp only [exec, hrun, bind, Except.bind]
    rfl
  | appendleft pcb =>
    have hpcb : pcb ∉ queue := fun hin =>
      (h.links.mem_iff.mp hin).elim fun n hn => hready.2 n hn
    exact ⟨none, _, pcb :: queue, rfl, rfl, (hrep.appendleftProcess hpcb hready.1).holds, by simp⟩
  | pop =>
    obtain ⟨hpop, hrep', -⟩ := hrep.popProcess
    cases queue with
    | nil =>
      have hq : q.popProcess = (none, q) := by
        simp only [LinkedQueue.popProcess, leads_nil.mp h.links]
      exact ⟨none, q, [], congrArg Except.ok hq, ⟨rfl, rfl, fun _ => rfl⟩, h, by simp⟩
    | cons pcb queue =>
      refine ⟨_, _, queue, rfl, ⟨hpop, rfl, fun hnil => by simp at hnil⟩, hrep'.holds, ?_⟩
      rw [List.length_cons]
      omega
  | sort =>
    obtain ⟨q', hrun, hrep'⟩ := hrep.sortReadyQueue hfuel
    obtain ⟨queue', hperm, hsort⟩ :=
      ({ memInit q.pcbs () with queue := queue } : Machine s L Unit).sortReadyQueue_eq
    rw [hsort] at hrep'
    have hperm : queue'.Perm queue := hperm
    refine ⟨none, q', queue', ?_, hperm, hrep'.holds, hperm.length_eq.trans_le (Nat.le_succ _)⟩
    simp only [exec, hrun, bind, Except.bind]
    rfl
  | age =>
    obtain ⟨q', hrun, hrep'⟩ := hrep.ageReadyQueue hfuel
    obtain ⟨score, hage⟩ :=
      ({ memInit q.pcbs () with queue := queue } : Machine s L Unit).ageReadyQueue_eq
    rw [hage] at hrep'
    refine ⟨none, q', queue, ?_, rfl, hrep'.holds, Nat.le_succ _⟩
    simp only [exec, hrun, bind, Except.bind]
    rfl

theorem refines_of_holds (h : q.Holds queue) (hfuel : queue.length + calls.length ≤ fuel) :
    Refines fuel calls q queue := by
  induction calls generalizing q queue with
  | nil => exact h
  | cons call calls ih =>
    rw [List.length_cons] at hfuel
    refine ⟨h, fun hready => ?_⟩
    obtain ⟨popped, q', queue', hrun, heffect, h', hlen⟩ := exec_ok h hready
      (show queue.length ≤ fuel by omega)
    exact ⟨popped, q', queue', hrun, heffect, ih h' (by omega)⟩

/-- From the empty queue on, whatever links the processes have: every sequence of calls refines
the calls on a list, the count is the length of the list, and no process is lost or duplicated. -/
theorem linkedQueue_refines (q : LinkedQueue s L) (hhead : q.readyQueueHead = none)
    (hcount : q.processCount = 0) (calls : List QueueCall) {fuel : ℕ} (hfuel : calls.length ≤ fuel) :
    Refines fuel calls q [] := by
  have h : q.Holds [] := ⟨hhead, List.nodup_nil, hcount⟩
  apply refines_of_holds h
  rwa [List.length_nil, Nat.zero_add]

/-- Two processes, the second one put in front, sorted and popped. -/
theorem linkedQueue_refines_two : Refines 4 [.append 1, .appendleft 2, .sort, .pop]
    (⟨none, 0, fun _ => Machine.newPCB 0 "" [], fun _ => none⟩ :
      LinkedQueue ⟨4, 8, by decide, by decide⟩ ℕ) [] :=
  linkedQueue_refines _ rfl rfl _ (by decide)

end QueueCall

end PicoShell.Scheduling
