/-! A function of the source that reads or writes outside an object it was given, or through
a pointer that leads to none, has undefined behaviour; the model stops such a call with a
`Fault`. -/

namespace PicoShell

/-- An index outside its array, a negative shift count, or a pointer to no object. -/
inductive Fault
  | index
  | shift
  | pointer
  | fuel
  deriving DecidableEq, Repr

abbrev Exec := Except Fault

/-- A run that comes to an end has come through its first part. -/
theorem Exec.bind_ok {α β : Type} {x : Exec α} {f : α → Exec β} {b : β} (h : x >>= f = .ok b) :
    ∃ a, x = .ok a ∧ f a = .ok b := by
  cases x with
  | error e => contradiction
  | ok a => exact ⟨a, rfl, h⟩

/-- A run that fails fails in its first part, or behind it. -/
theorem Exec.bind_error_iff {α β : Type} {x : Exec α} {f : α → Exec β} {e : Fault} :
    x >>= f = .error e ↔ x = .error e ∨ ∃ a, x = .ok a ∧ f a = .error e := by
  cases x with
  | error e' => simp [bind, Except.bind]
  | ok a => simp [bind, Except.bind]

theorem Exec.map_ok {α β : Type} {x : Exec α} {f : α → β} {b : β} (h : f <$> x = .ok b) :
    ∃ a, x = .ok a ∧ f a = b := by
  cases x with
  | error e => contradiction
  | ok a => exact ⟨a, rfl, Except.ok.inj h⟩

theorem Exec.ok_inj {α β : Type} {a a' : α} {b b' : β}
    (h : (Except.ok (a, b) : Exec (α × β)) = .ok (a', b')) : a = a' ∧ b = b' :=
  Prod.mk.inj (Except.ok.inj h)

theorem Exec.ok_unique {α β : Type} {x : Exec (α × β)} {a a' : α} {b b' : β} (h : x = .ok (a, b))
    (h' : x = .ok (a', b')) : a = a' ∧ b = b' :=
  Exec.ok_inj (h.symm.trans h')

/-- Whatever the run returns satisfies `Q`. -/
def Exec.Ensures {α : Type} (x : Exec α) (Q : α → Prop) : Prop := ∀ a, x = .ok a → Q a

namespace Exec.Ensures

variable {α β : Type} {x y : Exec α} {a : α} {Q R : α → Prop} {Q' : β → Prop}

theorem ok (h : Q a) : Ensures (.ok a) Q := fun _ ha => Except.ok.inj ha ▸ h

theorem error (e : Fault) : Ensures (.error e) Q := fun _ ha => by cases ha

theorem mono (h : Ensures x R) (himp : ∀ a, R a → Q a) : Ensures x Q :=
  fun a ha => himp a (h a ha)

theorem bind {f : α → Exec β} (h : Ensures x R) (hf : ∀ a, R a → Ensures (f a) Q') :
    Ensures (x >>= f) Q' := by
  intro b hb
  obtain ⟨a, ha, hfa⟩ := bind_ok hb
  exact hf a (h a ha) b hfa

theorem trivial : Ensures x fun _ => True := fun _ _ => True.intro

theorem ite {p : Prop} [Decidable p] (hx : p → Ensures x Q) (hy : ¬ p → Ensures y Q) :
    Ensures (if p then x else y) Q := by
  split
  · exact hx (by assumption)
  · exact hy (by assumption)

end Exec.Ensures

theorem exists_of_any {α : Type} {x : Option α} {P : α → Prop} [DecidablePred P]
    (h : (x.any fun a => decide (P a)) = true) : ∃ a, x = some a ∧ P a := by
  obtain ⟨a, ha, hp⟩ := (Option.any_eq_true _ _).mp h
  exact ⟨a, ha, of_decide_eq_true hp⟩

theorem Exec.exists_of_any {α : Type} {x : Exec α} {P : α → Prop} [DecidablePred P]
    (h : (x.toOption.any fun a => decide (P a)) = true) : ∃ a, x = .ok a ∧ P a := by
  cases x with
  | error e => contradiction
  | ok a => exact ⟨a, rfl, of_decide_eq_true h⟩

end PicoShell
