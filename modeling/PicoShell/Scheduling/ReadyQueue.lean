import Mathlib.Data.List.GetD
import Mathlib.Data.List.ReduceOption
import PicoShell.Lib.Exchange
import PicoShell.Memory.Frames

/-! The functions of `ready_queue.c` and `pcb.c`. -/

namespace PicoShell.Scheduling

variable {s : Sizes} {L W : Type} {i k p : ℕ} {l : List ℕ}

/-- The array of `sort_ready_queue` when the queue has fewer processes. -/
def padded (l : List ℕ) (k : ℕ) : List (Option ℕ) := l.map some ++ List.replicate k none

theorem getD_padded (l : List ℕ) (k i : ℕ) : (padded l k).getD i none = l[i]? := by
  unfold padded
  rw [List.getD_eq_getElem?_getD]
  by_cases hi : i < l.length
  · rw [List.getElem?_append_left (by rwa [List.length_map]), List.getElem?_map,
      List.getElem?_eq_getElem hi]
    rfl
  · have hi := Nat.not_lt.mp hi
    rw [List.getElem?_append_right (by rwa [List.length_map]), List.getElem?_replicate,
      List.getElem?_eq_none hi]
    split_ifs
    · rfl
    · rfl

theorem set_padded (hi : i < l.length) : (padded l k).set i (some p) = padded (l.set i p) k := by
  unfold padded
  rw [List.set_append_left _ _ (by rwa [List.length_map]), List.map_set]

theorem reduceOption_padded : (padded l k).reduceOption = l := by
  unfold padded
  rw [List.reduceOption_append, List.reduceOption_replicate_none, List.append_nil,
    List.reduceOption, List.filterMap_map]
  exact List.filterMap_some

namespace Machine

variable (m : Machine s L W)

def appendProcess (pcb : ℕ) : Machine s L W := { m with queue := m.queue ++ [pcb] }

def appendleftProcess (pcb : ℕ) : Machine s L W := { m with queue := pcb :: m.queue }

def popProcess : Option ℕ × Machine s L W :=
  match m.queue with
  | [] => (none, m)
  | pcb :: queue => (some pcb, { m with queue := queue })

def findDuplicateScript (script : String) : Option ℕ :=
  m.queue.find? fun pcb => (m.pcbs pcb).filename = script

def ageReadyQueue : Machine s L W :=
  m.queue.foldl (fun m pcb =>
    if 0 < (m.pcbs pcb).jobScore then
      m.modify pcb fun x => { x with jobScore := x.jobScore - 1 }
    else m) m

def popProcesses : ℕ → Machine s L W → List (Option ℕ) × Machine s L W
  | 0, m => ([], m)
  | n + 1, m =>
    let (pcb, m) := m.popProcess
    let (pcbs, m) := popProcesses n m
    (pcb :: pcbs, m)

def swapAt (queue : List (Option ℕ)) (ij : ℕ × ℕ) : List (Option ℕ) :=
  match queue.getD ij.1 none, queue.getD ij.2 none with
  | some p, some q =>
    if (m.pcbs q).jobScore < (m.pcbs p).jobScore then
      (queue.set ij.1 (some q)).set ij.2 (some p)
    else queue
  | _, _ => queue

def sortIndices : List (ℕ × ℕ) :=
  (List.range maxNumPrograms).flatMap fun i =>
    (List.range' i (maxNumPrograms - i)).map fun j => (i, j)

def sortReadyQueue : Machine s L W :=
  let (queue, m) := popProcesses maxNumPrograms m
  let sorted := sortIndices.foldl m.swapAt queue
  -- they go behind the processes that did not fit in the array
  sorted.reduceOption.foldl appendProcess m

/-- The body of the loops exchanges processes, never empty places. -/
theorem swapAt_padded (l : List ℕ) (k : ℕ) (ij : ℕ × ℕ) : m.swapAt (padded l k) ij =
    padded (Exchange.exchange (fun q => (m.pcbs q).jobScore) l ij) k := by
  unfold swapAt Exchange.exchange
  rw [getD_padded, getD_padded]
  cases hp : l[ij.1]? with
  | none => rfl
  | some p =>
    cases hq : l[ij.2]? with
    | none => rfl
    | some q =>
      obtain ⟨hi, -⟩ := List.getElem?_eq_some_iff.mp hp
      obtain ⟨hj, -⟩ := List.getElem?_eq_some_iff.mp hq
      simp only
      split_ifs
      · rw [set_padded hi, set_padded (by rwa [List.length_set])]
      · rfl

theorem foldl_swapAt_padded (ijs : List (ℕ × ℕ)) (l : List ℕ) (k : ℕ) :
    ijs.foldl m.swapAt (padded l k) =
      padded (ijs.foldl (Exchange.exchange fun q => (m.pcbs q).jobScore) l) k := by
  induction ijs generalizing l with
  | nil => rfl
  | cons ij ijs ih => rw [List.foldl_cons, List.foldl_cons, swapAt_padded, ih]

theorem popProcesses_padded (n : ℕ) (m : Machine s L W) : popProcesses n m =
    (padded (m.queue.take n) (n - m.queue.length), { m with queue := m.queue.drop n }) := by
  induction n generalizing m with
  | zero =>
    rw [Nat.zero_sub]
    rfl
  | succ n ih =>
    cases hq : m.queue with
    | nil =>
      simp only [popProcesses, popProcess, hq, ih]
      simp [padded, List.replicate_succ]
    | cons p queue =>
      simp only [popProcesses, popProcess, hq, ih]
      simp [padded]

theorem foldl_appendProcess (pcbs : List ℕ) (m : Machine s L W) :
    pcbs.foldl appendProcess m = { m with queue := m.queue ++ pcbs } := by
  induction pcbs generalizing m with
  | nil => simp
  | cons p pcbs ih => simp [ih, appendProcess]

/-- The processes that fit in the array go behind the others, in order. -/
theorem sortReadyQueue_exchange : m.sortReadyQueue = { m with
    queue := m.queue.drop maxNumPrograms ++ (Exchange.pairs maxNumPrograms).foldl
      (Exchange.exchange fun q => (m.pcbs q).jobScore) (m.queue.take maxNumPrograms) } := by
  have hindices : sortIndices = Exchange.pairs maxNumPrograms := rfl
  simp only [sortReadyQueue, popProcesses_padded, foldl_swapAt_padded, reduceOption_padded,
    foldl_appendProcess, hindices]

theorem sortReadyQueue_eq : ∃ queue, queue.Perm m.queue ∧
    m.sortReadyQueue = { m with queue := queue } := by
  refine ⟨_, ?_, m.sortReadyQueue_exchange⟩
  have hperm := (Exchange.perm_foldl_exchange (fun q => (m.pcbs q).jobScore)
    (m.queue.take maxNumPrograms) (Exchange.pairs maxNumPrograms)).append_left
      (m.queue.drop maxNumPrograms)
  have hall := hperm.trans List.perm_append_comm
  rwa [List.take_append_drop] at hall

theorem sortReadyQueue_sorted (h : m.queue.length ≤ maxNumPrograms) :
    m.sortReadyQueue.queue.Pairwise fun p q => (m.pcbs p).jobScore ≤ (m.pcbs q).jobScore := by
  rw [sortReadyQueue_exchange, List.drop_eq_nil_of_le h, List.nil_append]
  exact Exchange.sorted _ _ (List.length_take_le _ _)

theorem ageReadyQueue_eq : ∃ score : ℕ → ℤ, m.ageReadyQueue =
    { m with pcbs := fun p => (m.pcbs p).withScore (score p) } := by
  suffices h : ∀ (l : List ℕ) (m : Machine s L W), ∃ score : ℕ → ℤ, l.foldl (fun m pcb =>
      if 0 < (m.pcbs pcb).jobScore then
        m.modify pcb fun x => { x with jobScore := x.jobScore - 1 }
      else m) m = { m with pcbs := fun p => (m.pcbs p).withScore (score p) } from h m.queue m
  intro l
  induction l with
  | nil => exact fun m => ⟨fun p => (m.pcbs p).jobScore, rfl⟩
  | cons q l ih =>
    intro m
    rw [List.foldl_cons]
    split_ifs
    · obtain ⟨score, hscore⟩ := ih (m.modify q fun x => { x with jobScore := x.jobScore - 1 })
      refine ⟨score, hscore.trans ?_⟩
      simp only [pcbs_modify]
      congr 1
      funext p
      split_ifs with hp
      · rw [hp]
        rfl
      · rfl
    · exact ih m

/-- What the ageing scheduler does to go on with other processes: all queued ones are kept. -/
theorem requeue_eq (pcb : ℕ) : ∃ (queue : List ℕ) (score : ℕ → ℤ), queue.Perm (pcb :: m.queue) ∧
    (m.ageReadyQueue.appendleftProcess pcb).sortReadyQueue =
      { m with queue := queue, pcbs := fun p => (m.pcbs p).withScore (score p) } := by
  obtain ⟨score, hage⟩ := m.ageReadyQueue_eq
  obtain ⟨queue, hperm, hsort⟩ := (m.ageReadyQueue.appendleftProcess pcb).sortReadyQueue_eq
  rw [hage] at hperm hsort
  refine ⟨queue, score, hperm, ?_⟩
  rw [hage, hsort]
  rfl

/-- The loop of `pcb_init` that loads the first pages while there is room. -/
def preload (pcb : ℕ) : ℕ → ℕ → Machine s L W → Exec (Machine s L W)
  | 0, _, m => .ok m
  | n + 1, page, m =>
    if page * s.frameSize < (m.pcbs pcb).fileLength then
      match m.fstoreFindAvailableFrame with
      | none => .ok m
      | some frame => do
        let m ← m.memLoadPageIntoFrame pcb page frame
        preload pcb n (page + 1) (m.setPage pcb page (some frame))
    else .ok m

/-- What loading the next page into an available frame preserves, preloading preserves. -/
theorem preload_pages {m m' : Machine s L W} {pcb n page : ℕ} {P : ℕ → Machine s L W → Prop}
    (hstep : ∀ m page frame, P page m → page * s.frameSize < (m.pcbs pcb).fileLength →
      m.Readable pcb page → m.fstoreFindAvailableFrame = some frame →
      P (page + 1) (m.loadPage pcb page frame))
    (h : preload pcb n page m = .ok m') (hm : P page m) : ∃ last, P last m' := by
  induction n generalizing m page with
  | zero =>
    rw [preload, Except.ok.injEq] at h
    exact ⟨page, h ▸ hm⟩
  | succ n ih =>
    rw [preload] at h
    split_ifs at h with hpage
    · cases hfind : m.fstoreFindAvailableFrame with
      | none =>
        rw [hfind] at h
        exact ⟨page, Except.ok.inj h ▸ hm⟩
      | some frame =>
        rw [hfind] at h
        obtain ⟨m₁, hload, h⟩ := Exec.bind_ok h
        rcases memLoadPageIntoFrame_cases hload with ⟨hout, -⟩ | ⟨-, hread, rfl⟩
        · omega
        · rw [loadPage_setPage] at h
          exact ih h (hstep m page frame hm hpage hread hfind)
    · exact ⟨page, Except.ok.inj h ▸ hm⟩

theorem preload_induction {m m' : Machine s L W} {pcb n page : ℕ} {P : Machine s L W → Prop}
    (hstep : ∀ m page frame, P m → page * s.frameSize < (m.pcbs pcb).fileLength →
      m.Readable pcb page → m.fstoreFindAvailableFrame = some frame →
      P (m.loadPage pcb page frame))
    (h : preload pcb n page m = .ok m') (hm : P m) : P m' := by
  obtain ⟨_, hlast⟩ := preload_pages (P := fun _ => P) hstep h hm
  exact hlast

/-- `malloc` of a process control block that is then filled with `x`. -/
def allocate (pcb : ℕ) (x : PCB s L) : Machine s L W :=
  { m with
    pcbs := Function.update m.pcbs pcb x
    allocated := pcb :: m.allocated
    nextPid := m.nextPid + 1 }

theorem allocate_pcbs (pcb : ℕ) (x : PCB s L) (q : ℕ) :
    (m.allocate pcb x).pcbs q = if q = pcb then x else m.pcbs q :=
  Function.update_apply _ _ _ _

theorem allocate_old {pcb q : ℕ} (x : PCB s L) (hfresh : pcb ∉ m.allocated) (hq : q ∈ m.allocated) :
    (m.allocate pcb x).pcbs q = m.pcbs q := by
  rw [allocate_pcbs, if_neg]
  rintro rfl
  exact hfresh hq

/-- The process control block that `pcb_init` fills in, before its pages are loaded. -/
def newPCB (pid : ℕ) (filename : String) (fileContents : List L) : PCB s L where
  pid := pid
  filename := filename
  fileContents := fun line => fileContents[line]?
  fileLength := fileContents.length
  pageTable := fun _ => none
  programCounter := 0
  jobScore := fileContents.length
  script := fileContents

def pcbInit (env : Env s L W) (filename : String) (fileContents : List L) :
    Exec (ℕ × Machine s L W) := do
  let pcb := env.malloc m
  let m ← preload pcb 2 0 (m.allocate pcb (newPCB m.nextPid filename fileContents))
  return (pcb, m)

theorem pcbInit_ok {m m' : Machine s L W} {env : Env s L W} {filename : String}
    {fileContents : List L} {pcb : ℕ} (h : m.pcbInit env filename fileContents = .ok (pcb, m')) :
    pcb = env.malloc m ∧
      preload pcb 2 0 (m.allocate pcb (newPCB m.nextPid filename fileContents)) = .ok m' := by
  rw [pcbInit] at h
  obtain ⟨m₁, hpre, h⟩ := Exec.bind_ok h
  obtain ⟨rfl, rfl⟩ := Exec.ok_inj h
  exact ⟨rfl, hpre⟩

/-- `pcb_dup_init`: `file_contents` is left as `malloc` returned it. -/
def pcbDupInit (env : Env s L W) (dup : ℕ) : ℕ × Machine s L W :=
  let pcb := env.malloc m
  (pcb, m.allocate pcb
    { m.pcbs dup with
      pid := m.nextPid
      fileContents := env.garbageContents m
      programCounter := 0 })

def pcbDeinit (pcb : ℕ) : Machine s L W := { m with allocated := m.allocated.erase pcb }

end Machine

end PicoShell.Scheduling
