import Mathlib.Data.List.Basic

/-! A run of fallible writes as seen by one observer: what it reads is the value that was
written last, or the old one. -/

namespace LastWrite

variable {σ W α : Type*} {step : σ → W → Option σ} {effect : W → Option α}
  {ok : W → Prop} {s s' : σ} {ws : List W}

/-- The value of the last of the writes that the observer sees. -/
def last (effect : W → Option α) (ws : List W) : Option α := (ws.filterMap effect).getLast?

theorem last_cons_getD (w : W) (a : α) :
    (last effect (w :: ws)).getD a = (last effect ws).getD ((effect w).getD a) := by
  unfold last
  cases hw : effect w with
  | none => rw [List.filterMap_cons_none hw, Option.getD_none]
  | some b => rw [List.filterMap_cons_some hw, List.getLast?_cons, Option.getD_some, Option.getD_some]

theorem exists_run (hstep : ∀ s w, ok w → ∃ s', step s w = some s') (hws : ∀ w ∈ ws, ok w) (s : σ) :
    ∃ s', ws.foldlM step s = some s' := by
  induction ws generalizing s with
  | nil => exact ⟨s, rfl⟩
  | cons w ws ih =>
    obtain ⟨s₁, hs₁⟩ := hstep s w (hws w List.mem_cons_self)
    obtain ⟨s', hs'⟩ := ih (fun w hw => hws w (List.mem_cons_of_mem _ hw)) s₁
    refine ⟨s', ?_⟩
    rw [List.foldlM_cons, hs₁]
    exact hs'

/-- What a run leaves for an observer, from what one write does to it. -/
theorem read_run (read : σ → α)
    (hstep : ∀ s w s', ok w → step s w = some s' → read s' = (effect w).getD (read s))
    (hws : ∀ w ∈ ws, ok w) (h : ws.foldlM step s = some s') :
    read s' = (last effect ws).getD (read s) := by
  induction ws generalizing s with
  | nil =>
    obtain rfl := Option.some.inj h
    rfl
  | cons w ws ih =>
    rw [List.foldlM_cons] at h
    obtain ⟨s₁, hs₁, hrest⟩ := Option.bind_eq_some_iff.mp h
    rw [ih (fun w hw => hws w (List.mem_cons_of_mem _ hw)) hrest, last_cons_getD,
      hstep s w s₁ (hws w List.mem_cons_self) hs₁]

theorem read_run_same (read : σ → α) (hstep : ∀ s w s', ok w → step s w = some s' → read s' = read s)
    (hws : ∀ w ∈ ws, ok w) (h : ws.foldlM step s = some s') : read s' = read s := by
  have hnone : ∀ s w s', ok w → step s w = some s' → read s' = (none : Option α).getD (read s) := hstep
  rw [read_run read hnone hws h, last, List.filterMap_eq_nil_iff.mpr fun _ _ => rfl]
  rfl

end LastWrite
