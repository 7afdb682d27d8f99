import Mathlib.Tactic.TypeStar

/-! A machine answers calls one after the other.  Two machines whose states are related, and
stay so under every legal call with the same answers, cannot be told apart by any list of
legal calls. -/

namespace Lockstep

variable {E C O S S' : Type*}

/-- The answers to a list of calls, and the state they leave. -/
def run (step : S → C → Except E (O × S)) : List C → S → Except E (List O × S)
  | [], s => .ok ([], s)
  | c :: cs, s => do
    let (o, s) ← step s c
    let (os, s) ← run step cs s
    return (o :: os, s)

/-- Every call meets `ok` in the state it is made in. -/
def Legal (step : S → C → Except E (O × S)) (ok : S → C → Prop) : List C → S → Prop
  | [], _ => True
  | c :: cs, s => ok s c ∧ ∀ o t, step s c = .ok (o, t) → Legal step ok cs t

/-- A legal call in related states gets the same answer and leaves related states. -/
def Keeps (step : S → C → Except E (O × S)) (step' : S' → C → Except E (O × S'))
    (ok : S → C → Prop) (R : S → S' → Prop) : Prop :=
  ∀ s s' c, R s s' → ok s c → ∃ o t t', step s c = .ok (o, t) ∧ step' s' c = .ok (o, t') ∧ R t t'

variable {step : S → C → Except E (O × S)} {step' : S' → C → Except E (O × S')}
  {ok : S → C → Prop} {R : S → S' → Prop} {s : S} {s' : S'} {cs : List C}

theorem Keeps.run (h : Keeps step step' ok R) (hR : R s s') (hlegal : Legal step ok cs s) :
    ∃ os t t', Lockstep.run step cs s = .ok (os, t) ∧ Lockstep.run step' cs s' = .ok (os, t') ∧
      R t t' := by
  induction cs generalizing s s' with
  | nil => exact ⟨[], s, s', rfl, rfl, hR⟩
  | cons c cs ih =>
    obtain ⟨hok, hrest⟩ := hlegal
    obtain ⟨o, t, t', hstep, hstep', hRt⟩ := h s s' c hR hok
    obtain ⟨os, u, u', hrun, hrun', hRu⟩ := ih hRt (hrest o t hstep)
    refine ⟨o :: os, u, u', ?_, ?_, hRu⟩
    · simp only [Lockstep.run, hstep, bind, Except.bind, hrun]
      rfl
    · simp only [Lockstep.run, hstep', bind, Except.bind, hrun']
      rfl

end Lockstep
