import PicoShell.Scheduling.Transparent

namespace PicoShell.Scheduling

variable {s : Sizes} {L W : Type} {env : Env s L W} {ok : Sched s L W → Prop}
  {m m' m₀ : Machine s L W} {pcb : ℕ} {script : String} {code : ℤ}
  {files : String → Option (List L)} {programs : List (Option String)}

/-- What holds of an empty queue and is kept by building holds of every idle shell. -/
theorem Session.idle_induction {P : Machine s L W → Prop}
    (hnil : ∀ m, Consistent [] m → m.queue = [] → P m)
    (hbuild : ∀ m m' files programs code, Consistent [] m → P m →
      buildReadyQueue env files programs m = .ok (code, m') → P m')
    (h : Session env ok (.idle m)) : P m := by
  suffices hall : ∀ sh, Session env ok sh → ∀ m, sh = .idle m → P m from hall _ h m rfl
  intro sh hsh
  induction hsh with
  | init heap world =>
    intro m hm
    obtain rfl := Shell.idle.inj hm
    exact hnil _ (consistent_memInit heap world) rfl
  | call before hcall ih =>
    intro m hm
    obtain ⟨code, m', hrun, hsh | ⟨-, p, -, hsh⟩⟩ := exec_cases hcall
    · rw [hsh] at hm
      obtain rfl := Shell.idle.inj hm
      exact hbuild _ _ _ _ code before.consistent (ih _ rfl) hrun
    · rw [hsh] at hm
      contradiction
  | step =>
    intro m hm
    contradiction
  | ret before hret =>
    intro m hm
    obtain rfl := Shell.idle.inj hm
    obtain ⟨hidle, hempty⟩ := Sched.step_none hret
    exact hnil _ (Consistent.of_idle before.consistent hidle) hempty

/-- The queue that is built is that of an idle shell too: it is left if the policy is rejected. -/
theorem Session.build (h : Session env ok (.idle m))
    (hrun : buildReadyQueue env files programs m = .ok (code, m')) : Session env ok (.idle m') := by
  have hcall : exec env files programs "" m = .ok (.idle m') := by
    rw [exec, hrun]
    show (if code ≠ 0 then .ok (.idle m') else .ok (.idle m') : Exec (Shell s L W)) = _
    rw [ite_self]
  exact h.call hcall

theorem Session.untouched (h : Session env ok (.idle m)) :
    ∃ m₀ : Machine s L W, Untouched m₀ m ∧ ∀ e ∈ m₀.history, e.pid < m₀.nextPid := by
  apply h.idle_induction (P := fun m => ∃ m₀ : Machine s L W, Untouched m₀ m ∧
    ∀ e ∈ m₀.history, e.pid < m₀.nextPid)
  · intro m hcons hempty
    exact ⟨m, .start hcons hempty, hcons.events⟩
  · intro m m' files programs code _ ⟨m₀, hun, hevents⟩ hrun
    exact ⟨m₀, hun.build hrun, hevents⟩

/-- Every mapped page of a queued process is in its frame. -/
theorem Session.mapped (h : Session env ok (.idle m)) : m.Mapped (Scope.all s) := by
  suffices hinv : (∃ m₀, Untouched m₀ m) ∧ m.Mapped (Scope.all s) from hinv.2
  apply h.idle_induction (P := fun m => (∃ m₀, Untouched m₀ m) ∧ m.Mapped (Scope.all s))
  · intro m hcons hempty
    have hnil := hcons.allocated_nil hempty
    exact ⟨⟨m, .start hcons hempty⟩, fun q hq => absurd hq (by simp [hnil])⟩
  · intro m m' files programs code _ ⟨⟨m₀, hun⟩, hmap⟩ hrun
    exact ⟨⟨m₀, hun.build hrun⟩, hun.mapped hmap hrun⟩

theorem Session.starts (h : Session env ok (.idle m)) (policy : Policy) (scope : Scope s) :
    Advancing scope m.queue (schedule env policy m) := by
  obtain ⟨m₀, hun, hevents⟩ := h.untouched
  exact .start hun hevents (fun q hq page f hf _ => h.mapped q hq page f hf trivial) policy

def Machine.DistinctNames (m : Machine s L W) : Prop :=
  (m.queue.map fun q => (m.pcbs q).filename).Nodup

theorem Machine.Appends.names (h : m.Appends script pcb m') (hcons : Consistent [] m) :
    (m'.queue.map fun q => (m'.pcbs q).filename) =
      (m.queue.map fun q => (m.pcbs q).filename) ++ [script] := by
  have hold : (m.queue.map fun q => (m'.pcbs q).filename) =
      m.queue.map fun q => (m.pcbs q).filename := by
    apply List.map_congr_left
    intro q hq
    have hne : q ≠ pcb := by
      rintro rfl
      exact h.fresh (hcons.queue_mem hq)
    rw [h.others q hne]
  rw [h.queue, List.map_append, hold, List.map_singleton, h.name]

/-- Queued processes with different names have frames of their own. -/
theorem Session.ownFrames (h : Session env ok (.idle m)) (hnames : m.DistinctNames) :
    Exclusive m ∧ m.Mapped (Scope.all s) := by
  have hinv : Consistent [] m ∧ (m.DistinctNames → Exclusive m ∧ m.Mapped (Scope.all s)) := by
    apply h.idle_induction (P := fun m => Consistent [] m ∧
      (m.DistinctNames → Exclusive m ∧ m.Mapped (Scope.all s)))
    · intro m hcons hempty
      have hnil := hcons.allocated_nil hempty
      refine ⟨hcons, fun _ => ⟨⟨?_, ?_⟩, ?_⟩⟩
      · exact fun q hq => absurd hq (by simp [hnil])
      · exact fun q hq => absurd hq (by simp [hnil])
      · exact fun q hq => absurd hq (by simp [hnil])
    · intro m m' files programs code _ hm hrun
      apply buildReadyQueue_induction (P := fun m => Consistent [] m ∧
        (m.DistinctNames → Exclusive m ∧ m.Mapped (Scope.all s))) _ _ hrun hm
      · intro m script dup ⟨hcons, _⟩ hfind
        have hdup := List.mem_of_find?_eq_some hfind
        refine ⟨(hcons.pcbDupInit (hcons.queue_mem hdup)).appendProcess, fun hnames => ?_⟩
        -- the duplicate has a name that is in the queue already
        rw [Machine.DistinctNames, (m.appends_dup env hfind).names hcons, List.nodup_append] at hnames
        have hname : (m.pcbs dup).filename = script := by simpa using List.find?_some hfind
        exact absurd rfl (hnames.2.2 script (hname ▸ List.mem_map_of_mem hdup) script (by simp))
      · intro m script contents pcb m' ⟨hcons, hown⟩ _ _ hinit
        have hlen : (contents.take maxLines).length ≤ maxLines := List.length_take_le _ _
        refine ⟨(hcons.pcbInit hlen hinit).appendProcess, fun hnames => ?_⟩
        rw [Machine.DistinctNames, (Machine.appends_init hinit).names hcons,
          List.nodup_append] at hnames
        obtain ⟨hexcl, hmap⟩ := hown hnames.1
        have hexcl' := hexcl.appendInit hmap hcons hlen hinit
        have hmap' := hmap.pcbInit hcons hlen hinit
        exact ⟨⟨hexcl'.entry, hexcl'.contents⟩, hmap'⟩
  exact hinv.2 hnames

/-- What holds in every run on different programs, whatever the policy. -/
theorem Session.run (h : Session env ok (.idle m)) (hnames : m.DistinctNames) (policy : Policy)
    {c : Sched s L W} (hrun : Steps env (fun _ => True) (schedule env policy m) c) :
    Exclusive c.machine ∧ Advancing (Scope.all s) m.queue c := by
  exact ((h.ownFrames hnames).1.schedule policy).steps (h.starts policy _) hrun

end PicoShell.Scheduling
