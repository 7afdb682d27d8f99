import PicoShell.Lib.Rotation
import PicoShell.Scheduling.Coherence
import PicoShell.Scheduling.Idle

namespace PicoShell.Scheduling

variable {s : Sizes} {L W : Type} {env : Env s L W} {ok : Sched s L W → Prop}
  {m m' m₁ : Machine s L W} {c c' : Sched s L W} {qs queue : List ℕ}
  {pcb page q i ts d k n : ℕ} {frame : Fin s.numFrames}

namespace Machine

/-- The processes of the queue, with the pages of their next lines, as clients of the frames. -/
def rota (m : Machine s L W) : Rota (ℕ × ℕ) where
  queue := m.queue.map fun q => (q, m.currentPage q)
  slots := m.lru.order.map m.frameTable
  out x := (m.pcbs x.1).pageTable x.2 = none

instance : DecidablePred m.rota.out := fun x =>
  inferInstanceAs (Decidable ((m.pcbs x.1).pageTable x.2 = none))

/-- A page is loaded into an available frame, or into the oldest one if there is none. -/
structure Loads (m : Machine s L W) (pcb page : ℕ) (frame : Fin s.numFrames)
    (m' : Machine s L W) : Prop where
  same : ∀ q, (m'.pcbs q).programCounter = (m.pcbs q).programCounter ∧
    (m'.pcbs q).fileLength = (m.pcbs q).fileLength
  lru : m'.lru = m.lru.touch frame
  choice : m.memory (frame * s.frameSize) = none ∨
    (m.fstoreFindAvailableFrame = none ∧ frame = m.lru.oldest)
  frameTable : ∀ f, m'.frameTable f = if f = frame then some (pcb, page) else m.frameTable f
  cells : ∀ f : Fin s.numFrames, m'.memory (f * s.frameSize) = none →
    f ≠ frame ∧ m.memory (f * s.frameSize) = none
  entries : m.fstoreFindAvailableFrame = none → ∀ q i, (m'.pcbs q).pageTable i = none ↔
    (q, i) ≠ (pcb, page) ∧
      ((m.pcbs q).pageTable i = none ∨ m.frameTable frame = some (q, i))

theorem find_eq_none_iff : m.fstoreFindAvailableFrame = none ↔
    ∀ f : Fin s.numFrames, m.memory (f * s.frameSize) ≠ none := by
  refine ⟨fstoreFindAvailableFrame_none, fun h => ?_⟩
  cases hfind : m.fstoreFindAvailableFrame with
  | none => rfl
  | some f => exact absurd (fstoreFindAvailableFrame_some hfind) (h f)

theorem pageFault_loads (h : m.pageFault pcb page = .ok (frame, m'))
    (hline : page * s.frameSize < (m.pcbs pcb).fileLength) : m.Loads pcb page frame m' := by
  have hsame := pageFault_same h
  obtain ⟨m₁, hfree, ⟨hout, -⟩ | ⟨-, hread, rfl⟩⟩ := pageFault_cases h
  · omega
  -- An eviction clears the frame that is loaded next, so no other frame becomes free.
  have hcells : ∀ f : Fin s.numFrames, m₁.memory (f * s.frameSize) = none →
      f = frame ∨ m.memory (f * s.frameSize) = none := by
    rcases hfree with ⟨-, rfl⟩ | ⟨-, -, entry, -, rfl⟩
    · exact fun f => .inr
    · intro f hf
      have hcell := m.evictFrame_cell frame entry f s.frameSize_pos
      rw [Nat.add_zero] at hcell
      rw [hcell] at hf
      split_ifs at hf with hframe
      · exact .inl hframe
      · exact .inr hf
  refine ⟨fun q => (hsame q).2, ?_, ?_, fun f => ?_, fun f hf => ?_, fun hfull q i => ?_⟩
  · rcases hfree with ⟨-, rfl⟩ | ⟨-, -, entry, -, rfl⟩
    · rfl
    · rfl
  · rcases hfree with ⟨hfind, -⟩ | ⟨hfind, hframe, -⟩
    · exact .inl (fstoreFindAvailableFrame_some hfind)
    · exact .inr ⟨hfind, hframe⟩
  · rw [loadPage_frameTable]
    split_ifs with hf
    · rfl
    · rcases hfree with ⟨-, rfl⟩ | ⟨-, -, entry, -, rfl⟩
      · rfl
      · rw [evictFrame_frameTable, if_neg hf]
  · have hcell := m₁.loadPage_cell pcb page frame f s.frameSize_pos
    rw [Nat.add_zero, Nat.add_zero] at hcell
    obtain ⟨t, hpcb⟩ := hfree.processes.2.2.2 pcb
    rw [hcell, hpcb, PCB.withPages_fileLength, PCB.withPages_fileContents] at hf
    split_ifs at hf with hnew
    · have := hread 0 s.frameSize_pos
      rw [Nat.add_zero] at this
      exact absurd hf (this hline)
    · have hne : f ≠ frame := fun hframe => hnew ⟨hframe, hline⟩
      exact ⟨hne, (hcells f hf).resolve_left hne⟩
  · rcases hfree with ⟨hfind, -⟩ | ⟨-, -, entry, hentry, rfl⟩
    · rw [hfull] at hfind
      contradiction
    · rw [loadPage_pcbs, PCB.withPages_pageTable, evictFrame_pcbs, PCB.withPages_pageTable, hentry]
      by_cases hnew : q = pcb ∧ i = page
      · simp [hnew]
      · by_cases hgone : q = entry.1 ∧ i = entry.2
        · simp [hgone, Prod.ext_iff]
        · have hne : entry ≠ (q, i) := fun heq => hgone (heq ▸ ⟨rfl, rfl⟩)
          simp [hnew, hgone, hne]

/-- On full frames loading a page is a turn of the first process. -/
theorem Loads.rota_eq (h : m.Loads pcb (m.currentPage pcb) frame m')
    (hfull : m.fstoreFindAvailableFrame = none) (hqueue : m.queue = pcb :: queue)
    (hqueue' : m'.queue = queue ++ [pcb]) : m'.rota = m.rota.turn := by
  have hpage : ∀ q, m'.currentPage q = m.currentPage q := by
    intro q
    rw [currentPage, (h.same q).1, currentPage]
  have hframe : frame = m.lru.oldest :=
    (h.choice.resolve_left (find_eq_none_iff.mp hfull frame)).2
  have hlast : m.rota.slots.getLast? = some (m.frameTable frame) := by
    rw [hframe, rota, ← m.lru.dropLast_concat_oldest, List.map_append]
    exact List.getLast?_concat
  have hrota : m.rota.queue = (pcb, m.currentPage pcb) :: queue.map fun q =>
      (q, m.currentPage q) := by
    rw [rota, hqueue, List.map_cons]
  rw [Rota.turn_cons hrota]
  ext1
  · rw [rota, hqueue', List.map_append, List.map_singleton]
    simp only [hpage]
  · show m'.lru.order.map m'.frameTable = _ :: (m.lru.order.map m.frameTable).dropLast
    rw [h.lru, hframe, Recency.touch, List.map_cons, Recency.erase_oldest, h.frameTable,
      if_pos hframe.symm, ← List.map_dropLast]
    congr 1
    apply List.map_congr_left
    intro f hf
    rw [h.frameTable, if_neg]
    rintro rfl
    exact m.lru.oldest_not_mem (hframe ▸ hf)
  · funext x
    apply propext
    show _ ↔ _ ∧ (_ ∨ m.rota.slots.getLast? = _)
    rw [hlast, Option.some.injEq]
    exact h.entries hfull x.1 x.2

theorem Loads.full (h : m.Loads pcb page frame m') (hfull : m.fstoreFindAvailableFrame = none) :
    m'.fstoreFindAvailableFrame = none := by
  apply find_eq_none_iff.mpr
  intro f hf
  exact find_eq_none_iff.mp hfull f (h.cells f hf).2

/-- The last `k` frames that were used are those of the last turns. -/
def Loaded (m : Machine s L W) (k : ℕ) : Prop :=
  Rounds (m.rota.queue.reverse.map some) ((m.lru.order.take k).map m.frameTable) ∧
    ∀ f ∈ m.lru.order.take k, m.memory (f * s.frameSize) ≠ none

theorem Loads.loaded (h : m.Loads pcb (m.currentPage pcb) frame m') (hload : m.Loaded k)
    (hk : k < s.numFrames) (hqueue : m.queue = pcb :: queue)
    (hqueue' : m'.queue = queue ++ [pcb]) : m'.Loaded (k + 1) := by
  obtain ⟨hrounds, hcells⟩ := hload
  have hlen : m.lru.order.length = s.numFrames := by
    rw [Recency.length_order, Fintype.card_fin]
  -- the frame was not used by one of these turns
  have hnew : frame ∉ m.lru.order.take k := by
    intro hmem
    rcases h.choice with havailable | ⟨-, rfl⟩
    · exact hcells _ hmem havailable
    · apply m.lru.oldest_not_mem
      rw [List.dropLast_eq_take]
      exact ((List.take_prefix_take_left (by omega)).subset hmem)
  have hpage : ∀ q, m'.currentPage q = m.currentPage q := by
    intro q
    rw [currentPage, (h.same q).1, currentPage]
  have htaken : (m.lru.order.take k).map m'.frameTable = (m.lru.order.take k).map m.frameTable := by
    apply List.map_congr_left
    intro f hf
    rw [h.frameTable, if_neg]
    rintro rfl
    exact hnew hf
  refine ⟨?_, ?_⟩
  · rw [h.lru, Recency.take_touch hnew, List.map_cons, htaken, h.frameTable, if_pos rfl]
    simp only [rota, hqueue, List.map_cons, List.reverse_cons, List.map_append,
      List.map_nil] at hrounds
    simp only [rota, hqueue', List.map_append, List.reverse_append, hpage, List.map_cons,
      List.map_nil, List.reverse_cons, List.reverse_nil, List.nil_append, List.singleton_append]
    exact hrounds.rotate
  · rw [h.lru, Recency.take_touch hnew]
    intro f hf hnone
    obtain ⟨hne, hold⟩ := h.cells f hnone
    exact hcells f ((List.mem_cons.mp hf).resolve_left hne) hold

theorem Loaded.full (h : m.Loaded s.numFrames) :
    m.fstoreFindAvailableFrame = none ∧ m.rota.InRounds := by
  have hall : m.lru.order.take s.numFrames = m.lru.order := by
    apply List.take_of_length_le
    rw [Recency.length_order, Fintype.card_fin]
  obtain ⟨hrounds, hcells⟩ := h
  rw [hall] at hrounds hcells
  exact ⟨find_eq_none_iff.mpr fun f => hcells f (m.lru.complete f), hrounds⟩

end Machine

namespace Sched

/-- All frames are in use, the processes that wait have lines left, and each will find its page
evicted at its turn, for ever: the frames were loaded in the order of the queue, and their number is
no multiple of that of the processes. -/
structure Gridlocked (c : Sched s L W) : Prop where
  idle : c.running = none
  full : c.machine.fstoreFindAvailableFrame = none
  unfinished : ∀ q ∈ c.machine.queue,
    (c.machine.pcbs q).programCounter ≠ (c.machine.pcbs q).fileLength
  locked : c.machine.rota.Locked

instance [DecidableEq L] : Decidable c.Gridlocked :=
  decidable_of_iff (c.running = none ∧ c.machine.fstoreFindAvailableFrame = none ∧
      (∀ q ∈ c.machine.queue,
        (c.machine.pcbs q).programCounter ≠ (c.machine.pcbs q).fileLength) ∧
      c.machine.rota.Locked)
    ⟨fun ⟨h₁, h₂, h₃, h₄⟩ => ⟨h₁, h₂, h₃, h₄⟩, fun ⟨h₁, h₂, h₃, h₄⟩ => ⟨h₁, h₂, h₃, h₄⟩⟩

/-- A turn that only loads a page. -/
structure Rotates (env : Env s L W) (c : Sched s L W) (pcb : ℕ) (queue : List ℕ)
    (frame : Fin s.numFrames) (c' : Sched s L W) : Prop where
  steps : Steps env (fun _ => True) c c'
  idle : c'.running = none
  queue : c'.machine.queue = queue ++ [pcb]
  unfinished : (c.machine.pcbs pcb).programCounter ≠ (c.machine.pcbs pcb).fileLength
  absent : (c.machine.pcbs pcb).pageTable (c.machine.currentPage pcb) = none
  loads : c.machine.Loads pcb (c.machine.currentPage pcb) frame c'.machine

def work (c : Sched s L W) (qs : List ℕ) : ℕ := c.machine.debts qs + c.machine.queue.length

theorem Rotates.work (h : c.Rotates env pcb queue frame c') (hqueue : c.machine.queue = pcb :: queue)
    (qs : List ℕ) : c'.work qs ≤ c.work qs := by
  unfold Sched.work
  rw [h.queue, hqueue, List.length_append, List.length_singleton, List.length_cons]
  apply Nat.add_le_add_right
  apply Machine.debts_le
  intro q _
  obtain ⟨hpc, hlen⟩ := h.loads.same q
  exact (Machine.debt_congr hpc hlen).le

end Sched

namespace Turning

/-- What the first process of the queue can do at the start of its turn. -/
theorem cases (h : Turning ts qs c) (env : Env s L W) (hts : 1 ≤ ts) (hidle : c.running = none)
    (hqueue : c.machine.queue = pcb :: queue) : ∃ c₁ c₂, c.step env = .ok (some c₁) ∧
      c₁.running ≠ none ∧ c₁.step env = .ok (some c₂) ∧
      ((∃ f, (c.machine.pcbs pcb).pageTable (c.machine.currentPage pcb) = some f ∧
          c₂.running = some (pcb, 1) ∧ c₂.machine.queue = queue ∧
          c₂.machine.debts qs < c.machine.debts qs) ∨
        ((c.machine.pcbs pcb).programCounter = (c.machine.pcbs pcb).fileLength ∧
          c₂.running = none ∧ c₂.machine.queue = queue ∧
          c₂.machine.debts qs ≤ c.machine.debts qs) ∨
        ∃ frame, c.Rotates env pcb queue frame c₂) := by
  obtain ⟨c₁, hstep₁, hrun₁, hm₁⟩ := Sched.pop env hidle hqueue
  have h₁ := h.step hstep₁
  obtain ⟨-, hqs, hle⟩ := h₁.running hrun₁
  obtain ⟨c₂, hstep₂, hturn⟩ := h₁.next env hrun₁
  have hsteps := (Steps.single hstep₁).trans (Steps.single hstep₂)
  refine ⟨c₁, c₂, hstep₁, by simp [hrun₁], hstep₂, ?_⟩
  generalize hm₂ : c₂.machine = m₂ at hturn
  generalize hr₂ : c₂.running = r₂ at hturn
  cases hturn with
  -- A line in place: the process owes one line less.
  | line f hi hmore hpage =>
    have hlt : (c₁.machine.executeLine env pcb f).2.debts qs < c₁.machine.debts qs :=
      Machine.debts_lt (fun q _ => (c₁.machine.debt_executeLine env pcb f q).1) hqs
        ((c₁.machine.debt_executeLine env pcb f pcb).2 (lt_of_le_of_ne hle hmore))
    rw [hm₁] at hpage
    refine .inl ⟨f, hpage, rfl, ?_, ?_⟩
    · rw [hm₁]
      rfl
    · rw [hm₁] at hlt ⊢
      exact hlt
  -- A fault ends the turn, behind the others and without a line.
  | fault frame m hi hmore hpage hfault =>
    have hloads : c₁.machine.Loads pcb (c₁.machine.currentPage pcb) frame m :=
      Machine.pageFault_loads hfault (Machine.currentPage_inFile (lt_of_le_of_ne hle hmore))
    have hqueue₁ := (Machine.pageFault_processes hfault).2.1
    rw [hm₁] at hmore hpage hloads hqueue₁
    refine .inr (.inr ⟨frame, hsteps, hr₂, ?_, hmore, hpage, ?_⟩)
    · rw [hm₂]
      show m.queue ++ [pcb] = _
      rw [hqueue₁]
      rfl
    · rw [hm₂]
      exact ⟨hloads.same, hloads.lru, hloads.choice, hloads.frameTable, hloads.cells,
        hloads.entries⟩
  | release hend =>
    rw [hm₁] at hend ⊢
    exact .inr (.inl ⟨hend, rfl, rfl, Nat.le_refl _⟩)
  | expire hi => omega

theorem nodup_rota (h : Turning ts qs c) (hidle : c.running = none) :
    c.machine.rota.queue.Nodup := by
  have hcons := h.idle hidle
  have hnodup := hcons.perm.nodup_iff.mp hcons.nodup
  exact hnodup.map fun _ _ heq => congrArg Prod.fst heq

end Turning

/-- Between two turns, with at most `n` to do and never a gridlock. -/
structure Pending (env : Env s L W) (ts : ℕ) (qs : List ℕ) (n : ℕ) (c : Sched s L W) : Prop where
  turning : Turning ts qs c
  idle : c.running = none
  never : ∀ c', Steps env (fun _ => True) c c' → ¬ c'.Gridlocked
  work : c.work qs ≤ n

namespace Pending

theorem of_steps (h : Pending env ts qs n c) (hsteps : Steps env (fun _ => True) c c')
    (hidle : c'.running = none) (hwork : c'.work qs ≤ k) : Pending env ts qs k c' :=
  ⟨h.turning.steps hsteps, hidle, fun _ hrest => h.never _ (hsteps.trans hrest), hwork⟩

theorem rotates (h : Pending env ts qs n c) (hqueue : c.machine.queue = pcb :: queue)
    (hrot : c.Rotates env pcb queue frame c') : Pending env ts qs n c' :=
  h.of_steps hrot.steps hrot.idle ((hrot.work hqueue qs).trans h.work)

theorem returns_of_nil (h : Pending env ts qs n c) (hqueue : c.machine.queue = []) :
    c.Returns env :=
  ⟨c, .refl, by simp only [Sched.step, h.idle, Machine.popProcess, hqueue]⟩

/-- With less to do the scheduler returns. -/
def ReturnsBelow (env : Env s L W) (ts : ℕ) (qs : List ℕ) (n : ℕ) : Prop :=
  ∀ k < n, ∀ c, Pending env ts qs k c → c.Returns env

/-- The scheduler returns, or a turn does nothing but load a page. -/
theorem round (h : Pending env ts qs n c) (hts : 1 ≤ ts) (ih : ReturnsBelow env ts qs n)
    (hqueue : c.machine.queue = pcb :: queue) :
    c.Returns env ∨ ∃ c₂ frame, c.Rotates env pcb queue frame c₂ := by
  obtain ⟨c₁, c₂, hstep₁, -, hstep₂, hcases⟩ := h.turning.cases env hts h.idle hqueue
  have hsteps := (Steps.single hstep₁).trans (Steps.single hstep₂)
  have hn := h.work
  unfold Sched.work at hn
  rw [hqueue, List.length_cons] at hn
  rcases hcases with ⟨f, -, hrun₂, hqueue₂, hlt⟩ | ⟨-, hidle₂, hqueue₂, hle⟩ | ⟨frame, hrot⟩
  · obtain ⟨c₃, hrest, hidle₃, hdebts, hlen⟩ := (h.turning.steps hsteps).finish env hrun₂
    have hall := hsteps.trans hrest
    rw [hqueue₂] at hlen
    have hless : c₃.work qs < n := by
      unfold Sched.work
      omega
    exact .inl ((ih _ hless c₃ (h.of_steps hall hidle₃ (Nat.le_refl _))).of_steps hall)
  · have hless : c₂.work qs < n := by
      unfold Sched.work
      rw [hqueue₂]
      omega
    exact .inl ((ih _ hless c₂ (h.of_steps hsteps hidle₂ (Nat.le_refl _))).of_steps hsteps)
  · exact .inr ⟨c₂, frame, hrot⟩

/-- After `d` turns that do nothing but load pages the scheduler returns. -/
theorem returns_of_countdown {P : ℕ → Sched s L W → Prop} (hts : 1 ≤ ts)
    (ih : ReturnsBelow env ts qs n)
    (hzero : ∀ c, Pending env ts qs n c → P 0 c → c.Returns env)
    (hturn : ∀ d c c₂ pcb queue frame, Pending env ts qs n c → c.machine.queue = pcb :: queue →
      c.Rotates env pcb queue frame c₂ → P (d + 1) c → P d c₂)
    (h : Pending env ts qs n c) (hP : P d c) : c.Returns env := by
  induction d generalizing c with
  | zero => exact hzero c h hP
  | succ d ihd =>
    cases hqueue : c.machine.queue with
    | nil => exact h.returns_of_nil hqueue
    | cons pcb queue =>
      rcases h.round hts ih hqueue with hreturns | ⟨c₂, frame, hrot⟩
      · exact hreturns
      · exact (ihd (h.rotates hqueue hrot) (hturn d c c₂ pcb queue frame h hqueue hrot hP)).of_steps
          hrot.steps

end Pending

theorem Machine.rota_queue_length (m : Machine s L W) : m.rota.queue.length = m.queue.length :=
  List.length_map _

theorem Machine.rota_slots_ne_nil (m : Machine s L W) : m.rota.slots ≠ [] := by
  intro hnil
  exact m.lru.order_ne_nil (List.map_eq_nil_iff.mp hnil)

theorem Machine.rota_cons (hqueue : m.queue = pcb :: queue) : m.rota.queue =
    (pcb, m.currentPage pcb) :: queue.map fun q => (q, m.currentPage q) := by
  rw [rota, hqueue, List.map_cons]

/-- All frames are in use, loaded in the order of the queue. -/
structure Machine.Cycles (m : Machine s L W) : Prop where
  full : m.fstoreFindAvailableFrame = none
  rounds : m.rota.InRounds

namespace Sched.Rotates

theorem rota_eq (h : c.Rotates env pcb queue frame c') (hcyc : c.machine.Cycles)
    (hqueue : c.machine.queue = pcb :: queue) : c'.machine.rota = c.machine.rota.turn :=
  h.loads.rota_eq hcyc.full hqueue h.queue

theorem cycles (h : c.Rotates env pcb queue frame c') (hcyc : c.machine.Cycles)
    (hqueue : c.machine.queue = pcb :: queue) : c'.machine.Cycles := by
  refine ⟨h.loads.full hcyc.full, ?_⟩
  rw [h.rota_eq hcyc hqueue]
  exact hcyc.rounds.turn (Machine.rota_cons hqueue)

/-- The number of processes and of frames stays the same. -/
theorem dvd_iff (h : c.Rotates env pcb queue frame c') (hcyc : c.machine.Cycles)
    (hqueue : c.machine.queue = pcb :: queue) :
    c'.machine.rota.queue.length ∣ c'.machine.rota.slots.length ↔
      c.machine.rota.queue.length ∣ c.machine.rota.slots.length := by
  have hrota := Machine.rota_cons hqueue
  rw [h.rota_eq hcyc hqueue, Rota.length_turn_slots hrota c.machine.rota_slots_ne_nil,
    Rota.turn_cons hrota, hrota, List.length_append, List.length_singleton, List.length_cons]

/-- The process whose turn it was goes to the back and has lines left. -/
theorem unfinished_drop (h : c.Rotates env pcb queue frame c')
    (hqueue : c.machine.queue = pcb :: queue)
    (hdrop : ∀ q ∈ c.machine.queue.drop (d + 1),
      (c.machine.pcbs q).programCounter ≠ (c.machine.pcbs q).fileLength) :
    ∀ q ∈ c'.machine.queue.drop d,
      (c'.machine.pcbs q).programCounter ≠ (c'.machine.pcbs q).fileLength := by
  intro q hq
  obtain ⟨hpc, hlen⟩ := h.loads.same q
  rw [hpc, hlen]
  rw [h.queue, List.drop_append] at hq
  rw [hqueue, List.drop_succ_cons] at hdrop
  rcases List.mem_append.mp hq with hq | hq
  · exact hdrop q hq
  · rw [List.mem_singleton.mp (List.mem_of_mem_drop hq)]
    exact h.unfinished

end Sched.Rotates

namespace Pending

/-- As many frames as processes, or a multiple: after a turn of each all have their pages. -/
theorem returns_of_even (hts : 1 ≤ ts) (ih : ReturnsBelow env ts qs n)
    (h : Pending env ts qs n c) (hcyc : c.machine.Cycles)
    (heven : c.machine.rota.queue.length ∣ c.machine.rota.slots.length) : c.Returns env := by
  have hdrop : ∀ q ∈ c.machine.rota.queue.drop c.machine.rota.queue.length,
      ¬ c.machine.rota.out q := by simp
  refine returns_of_countdown (P := fun d c => c.machine.Cycles ∧
    c.machine.rota.queue.length ∣ c.machine.rota.slots.length ∧
    ∀ q ∈ c.machine.rota.queue.drop d, ¬ c.machine.rota.out q) hts ih ?_ ?_ h
    ⟨hcyc, heven, hdrop⟩
  · rintro c h ⟨hcyc, heven, hin⟩
    cases hqueue : c.machine.queue with
    | nil => exact h.returns_of_nil hqueue
    | cons pcb queue =>
      rcases h.round hts ih hqueue with hreturns | ⟨c₂, frame, hrot⟩
      · exact hreturns
      · refine absurd hrot.absent (hin (pcb, c.machine.currentPage pcb) ?_)
        rw [List.drop_zero, Machine.rota_cons hqueue]
        exact List.mem_cons_self
  · rintro d c c₂ pcb queue frame h hqueue hrot ⟨hcyc, heven, hin⟩
    refine ⟨hrot.cycles hcyc hqueue, (hrot.dvd_iff hcyc hqueue).mpr heven, ?_⟩
    rw [hrot.rota_eq hcyc hqueue]
    exact Rota.inFrom_turn hin hcyc.rounds (Machine.rota_cons hqueue)
      c.machine.rota_slots_ne_nil heven

/-- Otherwise there would be a gridlock after a turn of each. -/
theorem returns_of_uneven (hts : 1 ≤ ts) (ih : ReturnsBelow env ts qs n)
    (h : Pending env ts qs n c) (hcyc : c.machine.Cycles)
    (huneven : ¬ c.machine.rota.queue.length ∣ c.machine.rota.slots.length) : c.Returns env := by
  refine returns_of_countdown (P := fun d c => c.machine.Cycles ∧
    ¬ c.machine.rota.queue.length ∣ c.machine.rota.slots.length ∧ c.machine.rota.OutFrom d ∧
    ∀ q ∈ c.machine.queue.drop d,
      (c.machine.pcbs q).programCounter ≠ (c.machine.pcbs q).fileLength) hts ih ?_ ?_ h
    ⟨hcyc, huneven, c.machine.rota.outFrom_length, fun q hq => by
      simp [Machine.rota_queue_length] at hq⟩
  · rintro c h ⟨hcyc, huneven, hout, hmore⟩
    exact absurd ⟨h.idle, hcyc.full, hmore, hcyc.rounds, huneven, hout⟩ (h.never c .refl)
  · rintro d c c₂ pcb queue frame h hqueue hrot ⟨hcyc, huneven, hout, hmore⟩
    refine ⟨hrot.cycles hcyc hqueue, mt (hrot.dvd_iff hcyc hqueue).mp huneven, ?_,
      hrot.unfinished_drop hqueue hmore⟩
    rw [hrot.rota_eq hcyc hqueue]
    exact hout.turn hcyc.rounds (h.turning.nodup_rota h.idle) (Machine.rota_cons hqueue) huneven

theorem returns (hts : 1 ≤ ts) (h : Pending env ts qs n c) : c.Returns env := by
  induction n using Nat.strong_induction_on generalizing c with
  | _ n ih =>
    refine returns_of_countdown (P := fun d c => ∃ k, k + d = s.numFrames ∧ c.machine.Loaded k)
      hts ih ?_ ?_ h ⟨0, Nat.zero_add _, ⟨0, List.nil_prefix⟩, fun f hf => by simp at hf⟩
    · rintro c h ⟨k, rfl, hload⟩
      obtain ⟨hfull, hrounds⟩ := hload.full
      by_cases heven : c.machine.rota.queue.length ∣ c.machine.rota.slots.length
      · exact h.returns_of_even hts ih ⟨hfull, hrounds⟩ heven
      · exact h.returns_of_uneven hts ih ⟨hfull, hrounds⟩ heven
    · rintro d c c₂ pcb queue frame h hqueue hrot ⟨k, hk, hload⟩
      exact ⟨k + 1, by omega, hrot.loads.loaded hload (by omega) hqueue hrot.queue⟩

end Pending

namespace Turning

/-- In a gridlock a turn loads a page, and the gridlock lasts. -/
theorem gridlock_turn (h : Turning ts qs c) (env : Env s L W) (hts : 1 ≤ ts)
    (hlock : c.Gridlocked) : ∃ c₁ c₂, c.step env = .ok (some c₁) ∧ c₁.running ≠ none ∧
      c₁.step env = .ok (some c₂) ∧ c₂.Gridlocked := by
  have hcyc : c.machine.Cycles := ⟨hlock.full, hlock.locked.rounds⟩
  cases hqueue : c.machine.queue with
  | nil =>
    refine absurd ?_ hlock.locked.queue_ne_nil
    rw [Machine.rota, hqueue, List.map_nil]
  | cons pcb queue =>
    have hrota := Machine.rota_cons hqueue
    obtain ⟨c₁, c₂, hstep₁, hrun₁, hstep₂, hcases⟩ := h.cases env hts hlock.idle hqueue
    refine ⟨c₁, c₂, hstep₁, hrun₁, hstep₂, ?_⟩
    rcases hcases with ⟨f, hpage, -⟩ | ⟨hend, -⟩ | ⟨frame, hrot⟩
    · have hout : (c.machine.pcbs pcb).pageTable (c.machine.currentPage pcb) = none :=
        hlock.locked.out.head hrota
      rw [hout] at hpage
      contradiction
    · exact absurd hend (hlock.unfinished pcb (by simp [hqueue]))
    · refine ⟨hrot.idle, (hrot.cycles hcyc hqueue).full, ?_, ?_⟩
      · have hdrop := hrot.unfinished_drop (d := 0) hqueue fun q hq =>
          hlock.unfinished q (List.mem_of_mem_drop hq)
        exact hdrop
      · rw [hrot.rota_eq hcyc hqueue]
        exact hlock.locked.turn (h.nodup_rota hlock.idle) hrota

theorem not_returns (h : Turning ts qs c) (hts : 1 ≤ ts) (hlock : c.Gridlocked) :
    ¬ c.Returns env := by
  rintro ⟨last, hrun, hreturn⟩
  -- every state is a gridlock, or the one before it is
  have hall : last.Gridlocked ∨
      ∃ c₀, Turning ts qs c₀ ∧ c₀.Gridlocked ∧ c₀.step env = .ok (some last) := by
    clear hreturn
    induction hrun with
    | refl => exact .inl hlock
    | @step c₁ c₂ before _ hstep ih =>
      rcases ih with hlock₁ | ⟨c₀, h₀, hlock₀, hstep₀⟩
      · exact .inr ⟨c₁, h.steps before, hlock₁, hstep⟩
      · obtain ⟨a, b, ha, -, hb, hlocked⟩ := h₀.gridlock_turn env hts hlock₀
        obtain rfl := Option.some.inj (Except.ok.inj (ha.symm.trans hstep₀))
        obtain rfl := Option.some.inj (Except.ok.inj (hb.symm.trans hstep))
        exact .inl hlocked
  obtain ⟨hidle, hqueue⟩ := Sched.step_none hreturn
  rcases hall with hlocked | ⟨c₀, h₀, hlock₀, hstep₀⟩
  · obtain ⟨a, -, ha, -⟩ := (h.steps hrun).gridlock_turn env hts hlocked
    rw [hreturn] at ha
    cases ha
  · obtain ⟨a, -, ha, hbusy, -⟩ := h₀.gridlock_turn env hts hlock₀
    obtain rfl := Option.some.inj (Except.ok.inj (ha.symm.trans hstep₀))
    exact hbusy hidle

end Turning

/-- There is no gridlock of at most as many processes as frames, unless a frame was left to the
address at which one of them is now. -/
theorem Turning.not_gridlocked (h : Turning ts qs c) (hcoh : c.machine.Coherent)
    (hfew : qs.length ≤ s.numFrames) : ¬ c.Gridlocked := by
  intro hlock
  have hcons := h.idle hlock.idle
  have hnodup := hcons.perm.nodup_iff.mp hcons.nodup
  have hsub : c.machine.queue ⊆ qs := fun q hq => h.advancing.progress.mem q (hcons.queue_mem hq)
  have hle := (List.subperm_of_subset hnodup hsub).length_le
  -- the entry of a queued process is that of the frame in its page table
  have hentry : ∀ x ∈ c.machine.rota.queue, ∀ f, c.machine.frameTable f = some x →
      (c.machine.pcbs x.1).pageTable x.2 = some f := by
    intro x hx f hf
    obtain ⟨q, hq, rfl⟩ := List.mem_map.mp hx
    exact hcoh q (hcons.queue_mem hq) f _ hf
  have hmany := hlock.locked.length_lt ?_ ?_
  · rw [Machine.rota_queue_length, Machine.rota, List.length_map, Recency.length_order,
      Fintype.card_fin] at hmany
    rw [List.nil_append] at hle
    omega
  · intro x hx hslot hout
    obtain ⟨f, -, hf⟩ := List.mem_map.mp hslot
    have hout : (c.machine.pcbs x.1).pageTable x.2 = none := hout
    rw [hentry x hx f hf] at hout
    contradiction
  · intro x hx i j hi hj
    simp only [Machine.rota, List.getElem?_map, Option.map_eq_some_iff] at hi hj
    obtain ⟨f, hfi, hf⟩ := hi
    obtain ⟨g, hgj, hg⟩ := hj
    obtain rfl := Option.some.inj ((hentry x hx f hf).symm.trans (hentry x hx g hg))
    have hlt := (List.getElem?_eq_some_iff.mp hfi).1
    exact (List.getElem?_inj hlt c.machine.lru.nodup).mp (hfi.trans hgj.symm)

theorem Session.turning (h : Session env ok (.idle m)) (hnames : m.DistinctNames) (ts : ℕ) :
    Turning ts m.queue (schedule env (.rr ts) m) := by
  obtain ⟨hexcl, hadv⟩ := h.run hnames (.rr ts) .refl
  exact ⟨rfl, hadv, hexcl⟩

def RRCompletes (env : Env s L W) (ts : ℕ) (m : Machine s L W) : Prop :=
  ∃ last, Steps env (fun _ => True) (schedule env (.rr ts) m) last ∧
    last.step env = .ok none ∧ last.machine.queue = [] ∧
    ∀ q ∈ m.queue, executed (m.pcbs q).pid last.machine.history =
      firstLines (m.pcbs q).script (m.pcbs q).script.length

theorem Session.returned (h : Session env ok (.active c)) (hidle : c.running = none)
    (hempty : c.machine.queue = []) : Session env ok (.idle c.machine) := by
  apply h.ret
  simp only [Sched.step, hidle, Machine.popProcess, hempty]

def threeFrames : Sizes := ⟨1, 3, Nat.one_pos, by decide⟩

def oneLine (_ : String) : Option (List ℕ) := some [1]

end PicoShell.Scheduling
