import Mathlib.Data.Finset.Basic
import Mathlib.Logic.Function.Basic

/-! Pools that hand out the least number that is not taken, and take numbers back. -/

namespace Pool

/-- The least number below `n` that is not taken. -/
def least (n : ℕ) (taken : Finset ℕ) : Option ℕ := (List.range n).find? (· ∉ taken)

variable {n k : ℕ} {taken : Finset ℕ}

/-- No number is left exactly when all of them are taken. -/
theorem least_eq_none : least n taken = none ↔ ∀ j < n, j ∈ taken := by
  simp [least]

theorem least_eq_some : least n taken = some k ↔ k < n ∧ k ∉ taken ∧ ∀ j < k, j ∈ taken := by
  unfold least
  rw [List.find?_range_eq_some]
  simp only [decide_not, Bool.not_eq_true', decide_eq_false_iff_not, List.mem_range, Bool.not_not,
    decide_eq_true_eq]
  exact ⟨fun h => ⟨h.2.1, h.1, h.2.2⟩, fun h => ⟨h.2.1, h.1, h.2.2⟩⟩

/-- Hands out a number, or takes the given one back; `none` where that fails. -/
def step (n : ℕ) : Option ℕ → Finset ℕ → Option ℕ × Finset ℕ
  | none, taken =>
    match least n taken with
    | none => (none, taken)
    | some k => (some k, insert k taken)
  | some k, taken => if k ∈ taken then (some k, taken.erase k) else (none, taken)

theorem step_take_eq (n : ℕ) (taken : Finset ℕ) : step n none taken =
    (least n taken).elim (none, taken) fun k => (some k, insert k taken) := by
  rw [step]
  cases least n taken with
  | none => rfl
  | some k => rfl

theorem step_give_eq (n k : ℕ) (taken : Finset ℕ) : step n (some k) taken =
    if k ∈ taken then (some k, taken.erase k) else (none, taken) := rfl

/-- What is handed out was not taken, and is taken from then on. -/
theorem step_take (h : (step n none taken).1 = some k) :
    k ∉ taken ∧ k ∈ (step n none taken).2 := by
  rw [step_take_eq] at h ⊢
  cases hleast : least n taken with
  | none =>
    rw [hleast] at h
    contradiction
  | some j =>
    rw [hleast] at h
    obtain rfl := Option.some.inj h
    exact ⟨(least_eq_some.mp hleast).2.1, Finset.mem_insert_self j taken⟩

theorem step_keeps {call : Option ℕ} (hk : k ∈ taken) (hcall : call ≠ some k) :
    k ∈ (step n call taken).2 := by
  cases call with
  | none =>
    rw [step_take_eq]
    cases least n taken with
    | none => exact hk
    | some j => exact Finset.mem_insert_of_mem hk
  | some j =>
    rw [step_give_eq]
    split_ifs
    · exact Finset.mem_erase.mpr ⟨fun heq => hcall (heq ▸ rfl), hk⟩
    · exact hk

variable {ι : Type*} [DecidableEq ι] {size : ι → ℕ} {pools : ι → Finset ℕ} {i : ι} {a b : ℕ}
  {calls : List (ι × Option ℕ)}

def call (size : ι → ℕ) (c : ι × Option ℕ) (pools : ι → Finset ℕ) : Option ℕ × (ι → Finset ℕ) :=
  ((step (size c.1) c.2 (pools c.1)).1,
    Function.update pools c.1 (step (size c.1) c.2 (pools c.1)).2)

def run (size : ι → ℕ) : List (ι × Option ℕ) → (ι → Finset ℕ) → List (Option ℕ) × (ι → Finset ℕ)
  | [], pools => ([], pools)
  | c :: calls, pools =>
    ((call size c pools).1 :: (run size calls (call size c pools).2).1,
      (run size calls (call size c pools).2).2)

theorem call_pools (size : ι → ℕ) (c : ι × Option ℕ) (pools : ι → Finset ℕ) (i : ι) :
    (call size c pools).2 i = if i = c.1 then (step (size c.1) c.2 (pools c.1)).2 else pools i :=
  Function.update_apply _ _ _ _

theorem call_take_none (h : ∀ j < size i, j ∈ pools i) : call size (i, none) pools = (none, pools) := by
  rw [call, step_take_eq, least_eq_none.mpr h]
  exact Prod.ext rfl (Function.update_eq_self i pools)

theorem call_take_some (hk : k < size i) (hfree : k ∉ pools i) (hleast : ∀ j < k, j ∈ pools i) :
    call size (i, none) pools = (some k, Function.update pools i (insert k (pools i))) := by
  rw [call, step_take_eq, least_eq_some.mpr ⟨hk, hfree, hleast⟩]
  rfl

theorem call_give_none (hk : k ∉ pools i) : call size (i, some k) pools = (none, pools) := by
  rw [call, step_give_eq, if_neg hk]
  exact Prod.ext rfl (Function.update_eq_self i pools)

theorem call_give_some (hk : k ∈ pools i) :
    call size (i, some k) pools = (some k, Function.update pools i ((pools i).erase k)) := by
  rw [call, step_give_eq, if_pos hk]

theorem call_keeps {c : ι × Option ℕ} (hk : k ∈ pools i) (hc : c ≠ (i, some k)) :
    k ∈ (call size c pools).2 i := by
  rw [call_pools]
  split_ifs with hi
  · subst hi
    exact step_keeps hk fun heq => hc (Prod.ext rfl heq)
  · exact hk

/-- A taken number is handed out again only after it was given back. -/
theorem given_back_of_mem (hk : k ∈ pools i) (hcall : calls[b]? = some (i, none))
    (hres : (run size calls pools).1[b]? = some (some k)) : ∃ c < b, calls[c]? = some (i, some k) := by
  induction calls generalizing pools b with
  | nil => simp at hcall
  | cons c calls ih =>
    cases b with
    | zero =>
      rw [List.getElem?_cons_zero, Option.some.injEq] at hcall
      subst hcall
      exact absurd hk (step_take (Option.some.inj hres)).1
    | succ b =>
      rw [List.getElem?_cons_succ] at hcall
      by_cases hc : c = (i, some k)
      · exact ⟨0, Nat.zero_lt_succ b, congrArg some hc⟩
      · obtain ⟨d, hd, hback⟩ := ih (call_keeps hk hc) hcall hres
        exact ⟨d + 1, Nat.succ_lt_succ hd, hback⟩

/-- Between two calls that hand out the same number of a pool, it is given back. -/
theorem given_back (hab : a < b) (ha : calls[a]? = some (i, none)) (hb : calls[b]? = some (i, none))
    (hres : (run size calls pools).1[a]? = some (some k))
    (hres' : (run size calls pools).1[b]? = some (some k)) :
    ∃ c, a < c ∧ c < b ∧ calls[c]? = some (i, some k) := by
  induction calls generalizing pools a b with
  | nil => simp at ha
  | cons c calls ih =>
    obtain ⟨b, rfl⟩ := Nat.exists_eq_succ_of_ne_zero (Nat.ne_of_gt (Nat.zero_lt_of_lt hab))
    rw [List.getElem?_cons_succ] at hb
    cases a with
    | zero =>
      rw [List.getElem?_cons_zero, Option.some.injEq] at ha
      subst ha
      have hk : k ∈ (call size (i, none) pools).2 i := by
        rw [call_pools, if_pos rfl]
        exact (step_take (Option.some.inj hres)).2
      obtain ⟨d, hd, hback⟩ := given_back_of_mem hk hb hres'
      exact ⟨d + 1, Nat.zero_lt_succ d, Nat.succ_lt_succ hd, hback⟩
    | succ a =>
      obtain ⟨d, had, hdb, hback⟩ := ih (Nat.lt_of_succ_lt_succ hab) ha hb hres hres'
      exact ⟨d + 1, Nat.succ_lt_succ had, Nat.succ_lt_succ hdb, hback⟩

end Pool
