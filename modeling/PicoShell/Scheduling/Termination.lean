import PicoShell.Scheduling.Aging
import PicoShell.Scheduling.Gridlock
import PicoShell.Scheduling.Sequential

namespace PicoShell.Scheduling

variable {s : Sizes} {L W : Type} {env : Env s L W} {m m₀ m₁ : Machine s L W} {c : Sched s L W}
  {files : String → Option (List L)} {programs : List (Option String)} {code : ℤ} {q : ℕ}

/-- The processes that are built are at addresses that `malloc` has returned. -/
theorem buildReadyQueue_addresses (hempty : m.queue = [])
    (hrun : buildReadyQueue env files programs m = .ok (code, m₁)) (hq : q ∈ m₁.queue) :
    ∃ m', env.malloc m' = q := by
  have happend : ∀ (m : Machine s L W) (pcb : ℕ), (∀ q ∈ m.queue, ∃ m', env.malloc m' = q) →
      (∃ m', env.malloc m' = pcb) → ∀ q ∈ (m.appendProcess pcb).queue, ∃ m', env.malloc m' = q := by
    intro m pcb hold hnew q hq
    rcases List.mem_append.mp hq with hq | hq
    · exact hold q hq
    · rwa [List.mem_singleton.mp hq]
  refine buildReadyQueue_induction (P := fun m => ∀ q ∈ m.queue, ∃ m', env.malloc m' = q)
    ?_ ?_ hrun ?_ q hq
  · intro m _ dup hm _
    exact happend _ _ hm ⟨m, rfl⟩
  · intro m _ _ pcb m' hm _ _ hinit
    obtain ⟨hpcb, -, hqueue, -⟩ := Machine.pcbInit_spec hinit
    exact happend _ _ (by rwa [hqueue]) ⟨m, hpcb.symm⟩
  · rw [hempty]
    exact fun _ hq => absurd hq List.not_mem_nil

/-- The frames agree with the page tables if `malloc` keeps away from the addresses to which frames
were left. -/
theorem coherent_of_build (h : Consistent [] m) (hempty : m.queue = [])
    (hstale : ∀ f p page, m.frameTable f = some (p, page) → ∀ m', env.malloc m' ≠ p)
    (hrun : buildReadyQueue env files programs m = .ok (0, m₁)) : m₁.Coherent := by
  have hcoh : m.Coherent := fun q hq => absurd hq (by simp [h.allocated_nil hempty])
  refine hcoh.build (.start h hempty) (fun f p page hentry => .inr fun hq => ?_) hrun
  obtain ⟨m', hm'⟩ := buildReadyQueue_addresses hempty hrun hq
  exact hstale f p page hentry m' hm'

theorem Built.script_ne_nil (h : Built files programs m₀ m)
    (hfiles : ∀ script ∈ programs.reduceOption, files script ≠ some []) (hq : q ∈ m.queue) :
    (m.pcbs q).script ≠ [] := by
  obtain ⟨contents, hcontents, hscript⟩ := h.fromFile q hq
  intro hnil
  rw [hscript, List.take_eq_nil_iff] at hnil
  obtain rfl := hnil.resolve_left (by decide)
  exact hfiles _ (h.names ▸ List.mem_map_of_mem hq) hcontents

/-- What the round-robin scheduler needs to return. -/
def RoomFor (policy : Policy) (m : Machine s L W) : Prop :=
  ∀ ts, policy = .rr ts → 1 ≤ ts ∧ m.queue.length ≤ s.numFrames ∧ m.Coherent

theorem Built.returns (h : Built files programs m₀ m) (hexcl : Exclusive m)
    (hfiles : ∀ script ∈ programs.reduceOption, ∃ contents, files script = some contents ∧
      contents ≠ [] ∧ contents.length ≤ maxLines) (env : Env s L W) (policy : Policy)
    (hroom : RoomFor policy m) : (schedule env policy m).Returns env := by
  have hshort : ∀ script ∈ programs.reduceOption, ∃ contents, files script = some contents ∧
      contents.length ≤ maxLines := by
    intro script hscript
    obtain ⟨contents, hcontents, -, hlen⟩ := hfiles script hscript
    exact ⟨contents, hcontents, hlen⟩
  cases policy with
  | fcfs =>
    obtain ⟨last, hlast, hreturn, -⟩ := h.drain hexcl hshort .fcfs (.inl rfl) rfl (.refl _)
    exact ⟨last, hlast, hreturn⟩
  | sjf =>
    obtain ⟨queue, hperm, hsort⟩ := m.sortReadyQueue_eq
    obtain ⟨last, hlast, hreturn, -⟩ := h.drain hexcl hshort .sjf (.inr rfl) hsort hperm
    exact ⟨last, hlast, hreturn⟩
  | rr ts =>
    obtain ⟨hts, hfew, hcoh⟩ := hroom ts rfl
    have hturning : Turning ts m.queue (schedule env (.rr ts) m) := ⟨rfl, h.start _ _, hexcl⟩
    have hpending : Pending env ts m.queue _ (schedule env (.rr ts) m) :=
      ⟨hturning, rfl, fun c hsteps => (hturning.steps hsteps).not_gridlocked
        (hturning.coherent_steps hcoh hsteps) hfew, Nat.le_refl _⟩
    exact hpending.returns hts
  | aging =>
    have hstart : Steps env (fun _ => True) (schedule env .aging m) (schedule env .aging m) := .refl
    obtain ⟨hexcl', hadv⟩ := h.run hexcl hstart
    refine Ageing.returns ⟨rfl, hadv, hexcl', fun q hq => ?_⟩ rfl
    have hpcbs := congrFun (schedule_pcbs env .aging m) q
    rw [hpcbs]
    apply h.script_ne_nil _ hq
    intro script hscript hnil
    obtain ⟨contents, hcontents, hne, -⟩ := hfiles script hscript
    exact hne (Option.some.inj (hcontents.symm.trans hnil))

end PicoShell.Scheduling
