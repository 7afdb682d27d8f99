import PicoShell.Lib.Shuffle
import PicoShell.Scheduling.Sequential
import PicoShell.Scheduling.Suspended

namespace PicoShell.Scheduling

variable {s : Sizes} {L W : Type} {env : Env s L W} {m m' m₀ m₁ : Machine s L W}
  {c c' : Sched s L W} {pcb pid page n : ℕ} {frame : Fin s.numFrames} {policy : Policy}
  {files : String → Option (List L)} {programs : List (Option String)} {code : ℤ}

/-- What the interpreted lines do, one after the other. -/
def replay (env : Env s L W) (values : List (Option L)) (w : W) : W :=
  values.foldl (fun w value => (env.parseInput value w).2) w

/-- Every line is one that `good` accepts, in the world that the lines in front of it leave. -/
def Accepts (env : Env s L W) (good : Option L → W → Prop) : List (Option L) → W → Prop
  | [], _ => True
  | value :: values, w => good value w ∧ Accepts env good values (env.parseInput value w).2

/-- `good` accepts the line that the scheduler comes to, if it does. -/
def Sched.Meets (good : Option L → W → Prop) (c : Sched s L W) : Prop :=
  ∀ c' pcb i frame, c.next = .ok (.line c' pcb i frame) →
    good (c'.lineIn pcb frame) c'.machine.world

theorem replay_append (env : Env s L W) (values values' : List (Option L)) (w : W) :
    replay env (values ++ values') w = replay env values' (replay env values w) :=
  List.foldl_append

theorem accepts_append {good : Option L → W → Prop} {values values' : List (Option L)} {w : W} :
    Accepts env good (values ++ values') w ↔
      Accepts env good values w ∧ Accepts env good values' (replay env values w) := by
  induction values generalizing w with
  | nil => exact ⟨fun h => ⟨trivial, h⟩, And.right⟩
  | cons value values ih => exact (and_congr_right fun _ => ih).trans and_assoc.symm

def handed (history : List (Event L)) : List (ℕ × Option L) :=
  history.filterMap fun
    | .turn _ => none
    | .line pid _ value => some (pid, value)

theorem handed_append (history new : List (Event L)) :
    handed (history ++ new) = handed history ++ handed new :=
  List.filterMap_append

theorem handed_filter (history : List (Event L)) (pid : ℕ) :
    ((handed history).filter fun x => x.1 = pid).map Prod.snd =
      (executed pid history).map Prod.snd := by
  induction history with
  | nil => rfl
  | cons e history ih =>
    cases e with
    | turn p => exact ih
    | line p pc value =>
      have hhanded : handed (Event.line p pc value :: history) = (p, value) :: handed history := rfl
      have hexecuted : executed pid (Event.line p pc value :: history) =
          if p = pid then (pc, value) :: executed pid history else executed pid history := by
        by_cases hp : p = pid
        · simp [executed, hp]
        · simp [executed, hp]
      rw [hhanded, hexecuted]
      by_cases hp : p = pid
      · rw [if_pos hp, List.filter_cons_of_pos (by simpa using hp), List.map_cons, List.map_cons, ih]
      · rw [if_neg hp, List.filter_cons_of_neg (by simpa using hp), ih]

theorem firstLines_values (script : List L) :
    (firstLines script script.length).map Prod.snd = script.map some := by
  unfold firstLines
  rw [List.map_map]
  apply List.ext_getElem
  · simp
  · intro k hk hk'
    simp at hk
    simp [hk]

namespace Machine

theorem Frees.world (h : m.Frees frame m') : m'.world = m.world := by
  rcases h with ⟨-, rfl⟩ | ⟨-, -, entry, -, rfl⟩
  · rfl
  · rfl

theorem pageFault_world (h : m.pageFault pcb page = .ok (frame, m')) : m'.world = m.world := by
  obtain ⟨m₁, hfree, ⟨-, rfl⟩ | ⟨-, -, rfl⟩⟩ := pageFault_cases h
  · exact hfree.world
  · exact hfree.world

theorem Ends.world {running : Option (ℕ × ℕ)} (h : m.Ends policy pcb running m') :
    m'.world = m.world := by
  rcases h with ⟨-, -, rfl⟩ | ⟨-, -, -, rfl⟩ | ⟨-, -, rfl | rfl⟩
  · rfl
  · rfl
  · rfl
  · obtain ⟨queue, score, -, heq⟩ := m.requeue_eq pcb
    rw [heq]

theorem pcbInit_world {script : String} {lines : List L}
    (h : m.pcbInit env script lines = .ok (pcb, m')) : m'.world = m.world := by
  obtain ⟨-, hpre⟩ := pcbInit_ok h
  exact preload_induction (P := fun m' => m'.world = m.world) (fun _ _ _ hm _ _ _ => hm) hpre rfl

end Machine

theorem Sched.Faults.world (h : c.Faults pcb m) : m.world = c.machine.world := by
  rcases h with rfl | ⟨-, frame, hpage⟩
  · rfl
  · exact Machine.pageFault_world hpage

theorem buildReadyQueue_world (h : buildReadyQueue env files programs m = .ok (code, m')) :
    m'.world = m.world :=
  buildReadyQueue_induction (P := fun m' => m'.world = m.world) (fun _ _ _ hm _ => hm)
    (fun _ _ _ _ _ hm _ _ hinit => (Machine.pcbInit_world hinit).trans hm) h rfl

theorem Machine.adds_world (h : Relation.ReflTransGen (Machine.Adds env files) m m') :
    m'.world = m.world := by
  induction h with
  | refl => rfl
  | tail _ hadds ih =>
    refine Eq.trans ?_ ih
    cases hadds with
    | dup => rfl
    | init _ _ hinit =>
      have hworld := pcbInit_world hinit
      exact hworld

theorem Sched.next_goto_world (h : c.next = .ok (.goto c')) : c'.machine.world = c.machine.world := by
  obtain ⟨-, ⟨pcb, queue, -, -, -, hm⟩ | ⟨pcb, i, m, -, hfault, hend⟩⟩ := Sched.next_goto h
  · rw [hm]
    rfl
  · rw [hend.world, hfault.world]

theorem Sched.resume_world (c : Sched s L W) (pcb i : ℕ) (frame : Fin s.numFrames) (errCode : ℤ)
    (m : Machine s L W) : (c.resume pcb i frame errCode m).machine.world = m.world := by
  unfold Sched.resume
  cases c.policy with
  | fcfs => rfl
  | sjf => rfl
  | rr timeSlice => rfl
  | aging =>
    simp only [Sched.agingEndTurn]
    split_ifs
    · rfl
    · obtain ⟨queue, score, -, heq⟩ := (c.counted pcb frame m).requeue_eq pcb
      show ((c.counted pcb frame m).ageReadyQueue.appendleftProcess pcb).sortReadyQueue.world = _
      rw [heq]
      rfl

theorem schedule_world (env : Env s L W) (policy : Policy) (m : Machine s L W) :
    (schedule env policy m).machine.world = m.world := by
  obtain ⟨queue, -, heq⟩ := schedule_eq env policy m
  rw [heq]

/-- A step hands over one line of a live process, or none. -/
theorem Sched.step_world (hcons : Consistent (Consistent.outside c.running) c.machine)
    (h : c.step env = .ok (some c')) : ∃ new : List (Event L),
    c'.machine.history = c.machine.history ++ new ∧
      c'.machine.world = replay env ((handed new).map Prod.snd) c.machine.world ∧
      (∀ x ∈ handed new, ∃ q ∈ c.machine.allocated, x.1 = (c.machine.pcbs q).pid) ∧
      ∀ good, c.Meets good ↔ Accepts env good ((handed new).map Prod.snd) c.machine.world := by
  rw [Sched.step_eq_next] at h
  obtain ⟨x, hnext, hafter⟩ := Exec.map_ok h
  have hmeets : (∀ c₁ pcb i frame, x ≠ .line c₁ pcb i frame) → ∀ good, c.Meets good := by
    intro hx good c₁ pcb i frame hline
    exact absurd (Except.ok.inj (hnext.symm.trans hline)) (hx c₁ pcb i frame)
  cases x with
  | ret => cases hafter
  | goto c₁ =>
    obtain rfl := Option.some.inj hafter
    have hno := hmeets fun _ _ _ _ heq => by cases heq
    obtain ⟨-, ⟨pcb, queue, -, -, -, hm⟩ | ⟨pcb, i, m, -, hfault, hend⟩⟩ := Sched.next_goto hnext
    -- The next process begins its turn, and no line is handed over.
    · rw [hm]
      exact ⟨[.turn (c.machine.pcbs pcb).pid], rfl, rfl, fun _ hx => absurd hx List.not_mem_nil,
        fun good => iff_of_true (hno good) trivial⟩
    -- A page fault or the end of a program does nothing to the world.
    · refine ⟨[], ?_, ?_, fun _ hx => absurd hx List.not_mem_nil,
        fun good => iff_of_true (hno good) trivial⟩
      · rw [hend.same.2.2.1, hfault.same.2.2.1, List.append_nil]
      · rw [hend.world, hfault.world]
        rfl
  | line c₁ pcb i frame =>
    obtain rfl := Option.some.inj hafter
    obtain ⟨hrun, m, hfault, -, rfl⟩ := Sched.next_line hnext
    have hmem := (hcons.of_running hrun).2
    obtain ⟨-, hend⟩ := Sched.resume_ends (c := { c with machine := m }) hrun frame
      (env.parseInput (Sched.lineIn { c with machine := m } pcb frame) m.world).1
      { m.accessFrame frame with
        world := (env.parseInput (Sched.lineIn { c with machine := m } pcb frame) m.world).2 }
    refine ⟨[.line (m.pcbs pcb).pid (m.pcbs pcb).programCounter
      (Sched.lineIn { c with machine := m } pcb frame)], ?_, ?_, ?_, fun good => ?_⟩
    · rw [hend.same.2.2.1, ← hfault.same.2.2.1]
      rfl
    · rw [hend.world, ← hfault.world]
      rfl
    · intro y hy
      rw [List.mem_singleton.mp hy]
      exact ⟨pcb, hmem, (hfault.rests pcb).pid⟩
    · rw [← hfault.world]
      constructor
      · exact fun hmeets => ⟨hmeets _ _ _ _ hnext, trivial⟩
      · rintro ⟨hgood, -⟩ c₂ q j frame' hline
        obtain ⟨rfl, rfl, -, rfl⟩ := Next.line.inj (Except.ok.inj (hnext.symm.trans hline))
        exact hgood

/-- What a run has handed over, and whether it was accepted on the way. -/
theorem Steps.world {ok : Sched s L W → Prop} {qs : List ℕ}
    (hinv : ∀ c₁, Steps env ok c c₁ →
      Consistent (Consistent.outside c₁.running) c₁.machine ∧ ∀ q ∈ c₁.machine.allocated, q ∈ qs)
    (h : Steps env ok c c') : ∃ new : List (Event L),
    c'.machine.history = c.machine.history ++ new ∧
      c'.machine.world = replay env ((handed new).map Prod.snd) c.machine.world ∧
      (∀ x ∈ handed new, ∃ q ∈ qs, x.1 = (c.machine.pcbs q).pid) ∧
      ∀ good, ((∀ c₁, ok c₁ → c₁.Meets good) →
          Accepts env good ((handed new).map Prod.snd) c.machine.world) ∧
        (Accepts env good ((handed new).map Prod.snd) c.machine.world →
          Steps env (Sched.Meets good) c c') := by
  induction h with
  | refl =>
    exact ⟨[], (List.append_nil _).symm, rfl, fun _ hx => absurd hx List.not_mem_nil,
      fun good => ⟨fun _ => trivial, fun _ => .refl⟩⟩
  | @step c₁ c₂ hbefore hok hstep ih =>
    obtain ⟨new, hhist, hworld, hmem, haccepts⟩ := ih
    obtain ⟨hcons, hqs⟩ := hinv c₁ hbefore
    obtain ⟨last, hhist', hworld', hmem', hmeets⟩ := Sched.step_world hcons hstep
    refine ⟨new ++ last, by rw [hhist', hhist, List.append_assoc], ?_, fun x hx => ?_,
      fun good => ?_⟩
    · rw [hworld', hworld, handed_append, List.map_append, replay_append]
    · rw [handed_append] at hx
      rcases List.mem_append.mp hx with hx | hx
      · exact hmem x hx
      · obtain ⟨q, hq, hpid⟩ := hmem' x hx
        exact ⟨q, hqs q hq, by rw [hpid, (hbefore.same q).pid]⟩
    · rw [handed_append, List.map_append, accepts_append, ← hworld, ← hmeets good]
      constructor
      · exact fun hall => ⟨(haccepts good).1 hall, hall c₁ hok⟩
      · exact fun hall => .step ((haccepts good).2 hall.1) hall.2 hstep

theorem Steps.weaken {ok : Sched s L W → Prop} (h : Steps env ok c c') :
    Steps env (fun _ => True) c c' := by
  induction h with
  | refl => exact .refl
  | step _ _ hstep ih => exact .step ih trivial hstep

theorem Steps.end_unique {ok : Sched s L W → Prop} {c₁ : Sched s L W} (h : Steps env ok c c₁)
    (h' : Steps env ok c c') (hend : c₁.step env = .ok none) (hend' : c'.step env = .ok none) :
    c₁ = c' := by
  rcases (h.to_end h' hend').head_cases with heq | ⟨c₂, hstep, -⟩
  · exact heq
  · cases hend.symm.trans hstep

/-- What a scheduler has handed over since its queue was built. -/
theorem Built.replayed {ok : Sched s L W → Prop} (h : Built files programs m₀ m₁)
    (hexcl : Exclusive m₁) (hsteps : Steps env ok (schedule env policy m₁) c) :
    ∃ new : List (Event L), c.machine.history = m₀.history ++ new ∧
      c.machine.world = replay env ((handed new).map Prod.snd) m₁.world ∧
      (∀ x ∈ handed new, ∃ q ∈ m₁.queue, x.1 = (m₁.pcbs q).pid) ∧
      ∀ good, Steps env (Sched.Meets good) (schedule env policy m₁) c ↔
        Accepts env good ((handed new).map Prod.snd) m₁.world := by
  have hstart : (schedule env policy m₁).machine.history = m₀.history := by
    obtain ⟨queue, -, heq⟩ := schedule_eq env policy m₁
    rw [heq]
    exact h.untouched.history
  have hinv : ∀ {ok' : Sched s L W → Prop} c₁, Steps env ok' (schedule env policy m₁) c₁ →
      Consistent (Consistent.outside c₁.running) c₁.machine ∧
        ∀ q ∈ c₁.machine.allocated, q ∈ m₁.queue := by
    intro ok' c₁ h₁
    obtain ⟨-, hadv⟩ := h.run hexcl h₁.weaken
    exact ⟨hadv.cons, hadv.progress.mem⟩
  rw [← hstart, ← schedule_world env policy m₁]
  obtain ⟨new, hhist, hworld, hmem, haccepts⟩ := hsteps.world hinv
  rw [schedule_pcbs] at hmem
  refine ⟨new, hhist, hworld, hmem, fun good => ⟨fun hmeets => ?_, (haccepts good).2⟩⟩
  -- the same run, with the lines that it has accepted
  obtain ⟨new', hhist', -, -, haccepts'⟩ := hmeets.world hinv
  rw [List.append_cancel_left (hhist.symm.trans hhist')]
  exact (haccepts' good).1 fun _ hgood => hgood

/-- When a scheduler returns, the lines that it has executed are the programs of its queue,
interleaved. -/
theorem Built.interleaved {ok : Sched s L W → Prop} (h : Built files programs m₀ m₁)
    (hexcl : Exclusive m₁) (hfiles : ∀ script ∈ programs.reduceOption, ∃ contents,
      files script = some contents ∧ contents.length ≤ maxLines)
    (hsteps : Steps env ok (schedule env policy m₁) c) (hreturn : c.step env = .ok none) :
    ∃ w, Shuffle (programs.reduceOption.map fun script => (files script).getD []) w ∧
      c.machine.world = replay env (w.map some) m₁.world ∧
      ∀ good, Steps env (Sched.Meets good) (schedule env policy m₁) c ↔
        Accepts env good (w.map some) m₁.world := by
  obtain ⟨new, hhist, hworld, hmem, haccepts⟩ := h.replayed hexcl hsteps
  -- each process has executed its program since the scheduler started
  have hpart : ∀ q ∈ m₁.queue,
      ((handed new).filter fun x => x.1 = (m₁.pcbs q).pid).map Prod.snd =
        (program files m₁ q).map some := by
    intro q hq
    have halloc := h.untouched.cons.queue_mem hq
    obtain ⟨-, hlines⟩ := (h.run hexcl hsteps.weaken).2.returned hreturn hq
    have hsame := hsteps.same q
    rw [schedule_pcbs] at hsame
    have hold : executed (m₁.pcbs q).pid m₀.history = [] := by
      apply executed_new
      intro e he
      exact ((h.events e he).trans_le (h.untouched.started q halloc).1).ne
    rw [hsame.pid, hsame.script, hhist, executed, List.filterMap_append, ← executed, ← executed,
      hold, List.nil_append] at hlines
    rw [handed_filter, hlines, firstLines_values, h.program_eq hfiles hq]
  have hnodup : (m₁.queue.map fun q => (m₁.pcbs q).pid).Nodup := by
    have hcons := h.untouched.cons
    refine List.Nodup.map_on ?_ (hcons.perm.nodup_iff.mp hcons.nodup)
    intro q hq q' hq' heq
    exact hcons.pids q (hcons.queue_mem hq) q' (hcons.queue_mem hq') heq
  have hshuffle := Shuffle.of_labels hnodup (handed new) fun x hx => by
    obtain ⟨q, hq, hpid⟩ := hmem x hx
    exact List.mem_map.mpr ⟨q, hq, hpid.symm⟩
  have hlists : ((m₁.queue.map fun q => (m₁.pcbs q).pid).map fun k =>
      ((handed new).filter fun x => x.1 = k).map Prod.snd) =
        (programs.reduceOption.map fun script => (files script).getD []).map (List.map some) := by
    rw [← h.names, List.map_map, List.map_map, List.map_map]
    exact List.map_congr_left hpart
  rw [hlists] at hshuffle
  obtain ⟨w, hw, heq⟩ := hshuffle.of_map
  rw [heq] at hworld haccepts
  exact ⟨w, hw, hworld, haccepts⟩

theorem handed_wholeTurn (pid : ℕ) (script : List L) :
    (handed (wholeTurn pid script)).map Prod.snd = script.map some := by
  rw [← firstLines_values, wholeTurn, linesFrom, firstLines, List.range_eq_range', Nat.sub_zero]
  show ((handed ((List.range' 0 script.length).map fun k => .line pid k script[k]?)).map Prod.snd) = _
  generalize List.range' 0 script.length = ks
  induction ks with
  | nil => rfl
  | cons k ks ih =>
    rw [List.map_cons, List.map_cons, List.map_cons, ← ih]
    rfl

theorem handed_flatMap (turns : ℕ → List (Event L)) (queue : List ℕ) :
    handed (queue.flatMap turns) = queue.flatMap fun q => handed (turns q) := by
  induction queue with
  | nil => rfl
  | cons q queue ih => rw [List.flatMap_cons, List.flatMap_cons, handed_append, ih]

/-- The first-come scheduler returns, and has executed the programs one after the other. -/
theorem Built.one_by_one (env : Env s L W) (h : Built files programs m₀ m₁) (hexcl : Exclusive m₁)
    (hfiles : ∀ script ∈ programs.reduceOption, ∃ contents, files script = some contents ∧
      contents.length ≤ maxLines) :
    ∃ c, Steps env (fun _ => True) (schedule env .fcfs m₁) c ∧ c.step env = .ok none ∧
      c.machine.world = replay env
        ((programs.reduceOption.flatMap fun script => (files script).getD []).map some)
        m₁.world ∧
      ∀ good, Steps env (Sched.Meets good) (schedule env .fcfs m₁) c ↔ Accepts env good
        ((programs.reduceOption.flatMap fun script => (files script).getD []).map some)
        m₁.world := by
  have hdrain : ∃ c, Steps env (fun _ => True) (schedule env .fcfs m₁) c ∧ c.step env = .ok none ∧
      c.machine.history = m₀.history ++
        m₁.queue.flatMap fun q => wholeTurn (m₁.pcbs q).pid (program files m₁ q) :=
    h.drain hexcl hfiles .fcfs (.inl rfl) rfl (.refl _)
  obtain ⟨c, hsteps, hreturn, hturns⟩ := hdrain
  have hlines : ((handed (m₁.queue.flatMap fun q =>
      wholeTurn (m₁.pcbs q).pid (program files m₁ q))).map Prod.snd) =
        (programs.reduceOption.flatMap fun script => (files script).getD []).map some := by
    rw [handed_flatMap, ← h.names, List.map_flatMap, List.map_flatMap, List.flatMap_map]
    apply List.flatMap_congr
    intro q _
    exact handed_wholeTurn _ _
  obtain ⟨new, hhist, hworld, -, haccepts⟩ := h.replayed hexcl hsteps
  rw [← List.append_cancel_left (hturns.symm.trans hhist), hlines] at hworld haccepts
  exact ⟨c, hsteps, hreturn, hworld, haccepts⟩

end PicoShell.Scheduling
