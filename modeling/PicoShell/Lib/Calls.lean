import Mathlib.Logic.Relation

/-! A step goes on, calls the machine again, or returns to the caller.  Executed with the callers
on a stack, such a machine computes what it does when calls are evaluated recursively, whoever the
callers are. -/

namespace PicoShell.Calls

/-- What a machine does next; `call f k` starts `f` and leaves `k` on the stack. -/
inductive Action (F K R : Type)
  | goto (f : F)
  | call (f : F) (k : K)
  | ret (r : R)
  | stop

structure Machine (F K R : Type) where
  next : F → Action F K R
  /-- What a caller goes on with. -/
  resume : K → R → F

variable {F K R : Type}

namespace Machine

variable (M : Machine F K R)

def step : F × List K → Option (F × List K)
  | (f, ks) =>
    match M.next f with
    | .goto f' => some (f', ks)
    | .call f' k => some (f', k :: ks)
    | .ret r =>
      match ks with
      | [] => none
      | k :: ks => some (M.resume k r, ks)
    | .stop => none

def Steps : F × List K → F × List K → Prop := Relation.ReflTransGen fun x y => M.step x = some y

/-- The machine returns, with its calls evaluated recursively. -/
inductive Eval : F → R → Prop
  | ret {f : F} {r : R} (hnext : M.next f = .ret r) : Eval f r
  | goto {f f' : F} {r : R} (hnext : M.next f = .goto f') (rest : Eval f' r) : Eval f r
  | call {f f' : F} {k : K} {r r' : R} (hnext : M.next f = .call f' k) (inner : Eval f' r')
      (rest : Eval (M.resume k r') r) : Eval f r

variable {M} {f f' : F} {k : K} {ks : List K} {r r' : R}

theorem step_goto (h : M.next f = .goto f') : M.step (f, ks) = some (f', ks) := by
  simp only [step, h]

theorem step_call (h : M.next f = .call f' k) : M.step (f, ks) = some (f', k :: ks) := by
  simp only [step, h]

theorem step_ret (h : M.next f = .ret r) : M.step (f, k :: ks) = some (M.resume k r, ks) := by
  simp only [step, h]

namespace Eval

theorem unique (h : M.Eval f r) (h' : M.Eval f r') : r = r' := by
  induction h generalizing r' with
  | ret hnext =>
    cases h' with
    | ret hnext' => exact Action.ret.inj (hnext.symm.trans hnext')
    | goto hnext' => cases hnext.symm.trans hnext'
    | call hnext' => cases hnext.symm.trans hnext'
  | goto hnext _ ih =>
    cases h' with
    | ret hnext' => cases hnext.symm.trans hnext'
    | goto hnext' rest' =>
      rw [← Action.goto.inj (hnext.symm.trans hnext')] at rest'
      exact ih rest'
    | call hnext' => cases hnext.symm.trans hnext'
  | call hnext _ _ ihinner ihrest =>
    cases h' with
    | ret hnext' => cases hnext.symm.trans hnext'
    | goto hnext' => cases hnext.symm.trans hnext'
    | call hnext' inner' rest' =>
      obtain ⟨hf, hk⟩ := Action.call.inj (hnext.symm.trans hnext')
      rw [← hf] at inner'
      rw [← hk, ← ihinner inner'] at rest'
      exact ihrest rest'

theorem ret_iff (hnext : M.next f = .ret r) : M.Eval f r' ↔ r' = r := by
  constructor
  · intro h
    exact h.unique (.ret hnext)
  · rintro rfl
    exact .ret hnext

theorem goto_iff (hnext : M.next f = .goto f') : M.Eval f r ↔ M.Eval f' r := by
  constructor
  · intro h
    cases h with
    | ret hnext' => cases hnext.symm.trans hnext'
    | goto hnext' rest => rwa [Action.goto.inj (hnext.symm.trans hnext')]
    | call hnext' => cases hnext.symm.trans hnext'
  · exact .goto hnext

theorem call_iff (hnext : M.next f = .call f' k) :
    M.Eval f r ↔ ∃ r', M.Eval f' r' ∧ M.Eval (M.resume k r') r := by
  constructor
  · intro h
    cases h with
    | ret hnext' => cases hnext.symm.trans hnext'
    | goto hnext' => cases hnext.symm.trans hnext'
    | @call _ f₁ k₁ _ r₁ hnext' inner rest =>
      obtain ⟨rfl, rfl⟩ := Action.call.inj (hnext.symm.trans hnext')
      exact ⟨r₁, inner, rest⟩
  · rintro ⟨r', inner, rest⟩
    exact .call hnext inner rest

theorem not_stop (hnext : M.next f = .stop) : ¬ M.Eval f r := by
  intro h
  cases h with
  | ret hnext' => cases hnext.symm.trans hnext'
  | goto hnext' => cases hnext.symm.trans hnext'
  | call hnext' => cases hnext.symm.trans hnext'

/-- On the stack of any callers the machine gets to its return, and has not touched them. -/
theorem steps (h : M.Eval f r) :
    ∃ f', M.next f' = .ret r ∧ ∀ ks : List K, M.Steps (f, ks) (f', ks) := by
  induction h with
  | @ret f r hnext => exact ⟨f, hnext, fun ks => .refl⟩
  | goto hnext _ ih =>
    obtain ⟨f', hret, hsteps⟩ := ih
    exact ⟨f', hret, fun ks => .head (step_goto hnext) (hsteps ks)⟩
  | @call f f₁ k r r₁ hnext _ _ ihinner ihrest =>
    obtain ⟨f₂, hret₂, hinner⟩ := ihinner
    obtain ⟨f', hret, hrest⟩ := ihrest
    refine ⟨f', hret, fun ks => ?_⟩
    have hcall : M.Steps (f, ks) (f₂, k :: ks) := .head (step_call hnext) (hinner (k :: ks))
    exact (hcall.tail (step_ret hret₂)).trans (hrest ks)

end Eval

/-- The callers go on one after the other. -/
def Unwinds (M : Machine F K R) : R → List K → R → Prop
  | r, [], r' => r = r'
  | r, k :: ks, r' => ∃ r₁, M.Eval (M.resume k r) r₁ ∧ Unwinds M r₁ ks r'

/-- A run down to the empty stack returns from all calls. -/
theorem eval_of_steps {x : F × List K} (hsteps : M.Steps x (f', [])) (hret : M.next f' = .ret r) :
    ∃ r₁, M.Eval x.1 r₁ ∧ M.Unwinds r₁ x.2 r := by
  induction hsteps using Relation.ReflTransGen.head_induction_on with
  | refl => exact ⟨r, .ret hret, rfl⟩
  | @head x y hstep _ ih =>
    obtain ⟨f, ks⟩ := x
    obtain ⟨r₁, heval, hunwind⟩ := ih
    cases hnext : M.next f with
    | goto f₁ =>
      obtain rfl := Option.some.inj ((step_goto hnext).symm.trans hstep)
      exact ⟨r₁, .goto hnext heval, hunwind⟩
    | call f₁ k =>
      obtain rfl := Option.some.inj ((step_call hnext).symm.trans hstep)
      obtain ⟨r₂, hrest, hunwind⟩ := hunwind
      exact ⟨r₂, .call hnext heval hrest, hunwind⟩
    | ret r₂ =>
      cases ks with
      | nil => simp [step, hnext] at hstep
      | cons k ks =>
        obtain rfl := Option.some.inj ((step_ret hnext).symm.trans hstep)
        exact ⟨r₂, .ret hnext, r₁, heval, hunwind⟩
    | stop => simp [step, hnext] at hstep

/-- The stack computes what the recursion does. -/
theorem eval_iff_steps : M.Eval f r ↔ ∃ f', M.Steps (f, []) (f', []) ∧ M.next f' = .ret r := by
  constructor
  · intro h
    obtain ⟨f', hret, hsteps⟩ := h.steps
    exact ⟨f', hsteps [], hret⟩
  · rintro ⟨f', hsteps, hret⟩
    obtain ⟨r₁, heval, hunwind⟩ := eval_of_steps hsteps hret
    obtain rfl : r₁ = r := hunwind
    exact heval

end Machine

end PicoShell.Calls
