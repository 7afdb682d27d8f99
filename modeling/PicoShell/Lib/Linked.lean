import Mathlib.Data.List.Chain
import Mathlib.Logic.Function.Basic

/-! Nodes in a memory with links to their successors, and to their predecessors, as the
lists of nodes they stand for. -/

namespace Linked

variable {α : Type*} {next next' prev prev' : α → Option α} {p : Option α} {a b x : α}
  {l l' l₁ l₂ : List α}

/-- The links from `p` lead through the nodes of `l` to an end. -/
def Leads (next : α → Option α) : Option α → List α → Prop
  | p, [] => p = none
  | p, a :: l => p = some a ∧ Leads next (next a) l

@[simp] theorem leads_nil : Leads next p [] ↔ p = none := Iff.rfl

@[simp] theorem leads_cons : Leads next p (a :: l) ↔ p = some a ∧ Leads next (next a) l := Iff.rfl

theorem leads_none : Leads next none l ↔ l = [] := by
  cases l with
  | nil => simp
  | cons a l => simp

/-- Only the links of the nodes matter. -/
theorem Leads.congr (h : Leads next p l) (hsame : ∀ a ∈ l, next' a = next a) : Leads next' p l := by
  induction l generalizing p with
  | nil => exact h
  | cons a l ih =>
    refine ⟨h.1, ?_⟩
    rw [hsame a List.mem_cons_self]
    exact ih h.2 fun b hb => hsame b (List.mem_cons_of_mem a hb)

theorem Leads.unique (h : Leads next p l) (h' : Leads next p l') : l = l' := by
  induction l generalizing p l' with
  | nil =>
    rw [leads_nil.mp h, leads_none] at h'
    exact h'.symm
  | cons a l ih =>
    cases l' with
    | nil =>
      rw [h.1] at h'
      contradiction
    | cons b l' =>
      have hab : a = b := Option.some.inj (h.1.symm.trans h'.1)
      subst hab
      rw [ih h.2 h'.2]

theorem Leads.suffix (h : Leads next p (l₁ ++ l₂)) : ∃ q, Leads next q l₂ := by
  induction l₁ generalizing p with
  | nil => exact ⟨p, h⟩
  | cons a l₁ ih => exact ih h.2

/-- Links that come to an end do not come back to a node. -/
theorem Leads.nodup (h : Leads next p l) : l.Nodup := by
  induction l generalizing p with
  | nil => exact List.nodup_nil
  | cons a l ih =>
    refine List.nodup_cons.mpr ⟨?_, ih h.2⟩
    intro ha
    obtain ⟨l₁, l₂, rfl⟩ := List.append_of_mem ha
    obtain ⟨q, -, hq⟩ := Leads.suffix h.2
    have hlen := congrArg List.length (Leads.unique h.2 hq)
    rw [List.length_append, List.length_cons] at hlen
    omega

section Update

variable [DecidableEq α]

/-- Linking a node behind the last one. -/
theorem Leads.concat (h : Leads next p (l ++ [b])) (ha : a ∉ l ++ [b]) (hend : next a = none) :
    Leads (Function.update next b (some a)) p (l ++ [b] ++ [a]) := by
  induction l generalizing p with
  | nil =>
    have hab : a ≠ b := by simpa using ha
    refine ⟨h.1, ?_⟩
    rw [Function.update_self]
    refine ⟨rfl, ?_⟩
    rwa [Function.update_of_ne hab]
  | cons c l ih =>
    have hcb : c ≠ b := by
      have := (List.nodup_cons.mp h.nodup).1
      rintro rfl
      simp at this
    refine ⟨h.1, ?_⟩
    rw [Function.update_of_ne hcb]
    exact ih h.2 fun hmem => ha (List.mem_cons_of_mem c hmem)

theorem Leads.cons_update (h : Leads next p l) (ha : a ∉ l) :
    Leads (Function.update next a p) (some a) (a :: l) := by
  refine ⟨rfl, ?_⟩
  rw [Function.update_self]
  apply h.congr
  intro b hb
  apply Function.update_of_ne
  rintro rfl
  exact ha hb

theorem Leads.tail_update (h : Leads next p (a :: l)) (q : Option α) :
    Leads (Function.update next a q) (next a) l := by
  have ha := (List.nodup_cons.mp h.nodup).1
  apply h.2.congr
  intro b hb
  apply Function.update_of_ne
  rintro rfl
  exact ha hb

end Update

def follow (next : α → Option α) (p : Option α) (n : ℕ) : Option α := (· >>= next)^[n] p

theorem follow_none (next : α → Option α) (n : ℕ) : follow next none n = none := by
  induction n with
  | zero => rfl
  | succ n ih => exact ih

/-- The nodes of the list are the ones that the links reach. -/
theorem Leads.mem_iff (h : Leads next p l) : a ∈ l ↔ ∃ n, follow next p n = some a := by
  induction l generalizing p with
  | nil =>
    rw [leads_nil.mp h]
    simp [follow_none]
  | cons b l ih =>
    obtain ⟨rfl, h⟩ := h
    rw [List.mem_cons, ih h]
    constructor
    · rintro (rfl | ⟨n, hn⟩)
      · exact ⟨0, rfl⟩
      · exact ⟨n + 1, hn⟩
    · rintro ⟨n, hn⟩
      cases n with
      | zero => exact .inl (Option.some.inj hn).symm
      | succ n => exact .inr ⟨n, hn⟩

def Joined (next prev : α → Option α) (l : List α) : Prop :=
  l.IsChain fun a b => next a = some b ∧ prev b = some a

/-- The last node needs no successor, and the first one no predecessor. -/
theorem Joined.congr (h : Joined next prev l) (hnext : ∀ a ∈ l.dropLast, next' a = next a)
    (hprev : ∀ a ∈ l.tail, prev' a = prev a) : Joined next' prev' l := by
  induction l with
  | nil => exact .nil
  | cons a l ih =>
    cases l with
    | nil => exact .singleton a
    | cons b l =>
      obtain ⟨⟨hab, hba⟩, hl⟩ := List.isChain_cons_cons.mp h
      refine List.isChain_cons_cons.mpr ⟨⟨?_, ?_⟩, ih hl ?_ ?_⟩
      · rw [hnext a (by simp), hab]
      · rw [hprev b (by simp), hba]
      · exact fun c hc => hnext c (by simp [hc])
      · exact fun c hc => hprev c (List.mem_cons_of_mem b hc)

/-- Read forwards, the links lead through the list. -/
theorem Joined.leads (h : Joined next prev (a :: l)) (hend : ∀ b ∈ (a :: l).getLast?, next b = none) :
    Leads next (some a) (a :: l) := by
  induction l generalizing a with
  | nil => exact ⟨rfl, hend a rfl⟩
  | cons b l ih =>
    obtain ⟨⟨hab, -⟩, hl⟩ := List.isChain_cons_cons.mp h
    refine ⟨rfl, ?_⟩
    rw [hab]
    apply ih hl
    rwa [List.getLast?_cons_cons] at hend

variable [DecidableEq α]

/-- A node is unlinked by joining its neighbours. -/
theorem Joined.unlink (h : Joined next prev (l₁ ++ a :: x :: b :: l₂))
    (hnodup : (l₁ ++ a :: x :: b :: l₂).Nodup) :
    Joined (Function.update next a (some b)) (Function.update prev b (some a))
      (l₁ ++ a :: b :: l₂) := by
  obtain ⟨hleft, -, hright⟩ := List.isChain_append_cons_cons.mp h
  have hright := (List.isChain_cons_cons.mp hright).2
  obtain ⟨-, hnd, hside⟩ := List.nodup_append.mp hnodup
  simp only [List.nodup_cons, List.mem_cons, not_or] at hnd
  refine List.isChain_append_cons_cons.mpr ⟨Joined.congr hleft ?_ ?_, ?_, Joined.congr hright ?_ ?_⟩
  · intro c hc
    rw [List.dropLast_concat] at hc
    apply Function.update_of_ne
    exact hside c hc a (by simp)
  · intro c hc
    have hc := List.mem_of_mem_tail hc
    apply Function.update_of_ne
    rintro rfl
    rcases List.mem_append.mp hc with hc | hc
    · exact hside c hc c (by simp) rfl
    · exact hnd.1.2.1 (List.mem_singleton.mp hc).symm
  · exact ⟨Function.update_self .., Function.update_self ..⟩
  · intro c hc
    have hc := List.dropLast_subset _ hc
    apply Function.update_of_ne
    rintro rfl
    rcases List.mem_cons.mp hc with rfl | hc
    · exact hnd.1.2.1 rfl
    · exact hnd.1.2.2 hc
  · intro c hc
    apply Function.update_of_ne
    rintro rfl
    exact hnd.2.2.1 hc

/-- A node is linked in behind the last one. -/
theorem Joined.concat (h : Joined next prev (l ++ [b])) (ha : a ∉ l ++ [b])
    (hnodup : (l ++ [b]).Nodup) :
    Joined (Function.update next b (some a)) (Function.update prev a (some b)) (l ++ [b] ++ [a]) := by
  rw [List.append_assoc, List.singleton_append]
  refine List.isChain_append_cons_cons.mpr ⟨Joined.congr h ?_ ?_, ?_, .singleton a⟩
  · intro c hc
    rw [List.dropLast_concat] at hc
    apply Function.update_of_ne
    exact (List.nodup_append.mp hnodup).2.2 c hc b (List.mem_singleton_self b)
  · intro c hc
    apply Function.update_of_ne
    rintro rfl
    exact ha (List.mem_of_mem_tail hc)
  · exact ⟨Function.update_self .., Function.update_self ..⟩

/-- A node is linked in behind the first one. -/
theorem Joined.insert (h : Joined next prev (a :: b :: l)) (hnodup : (a :: b :: l).Nodup)
    (hx : x ∉ a :: b :: l) :
    Joined (Function.update (Function.update next a (some x)) x (some b))
      (Function.update (Function.update prev b (some x)) x (some a)) (a :: x :: b :: l) := by
  have hl := (List.isChain_cons_cons.mp h).2
  simp only [List.nodup_cons, List.mem_cons, not_or] at hnodup hx
  refine List.isChain_cons_cons.mpr ⟨⟨?_, ?_⟩, List.isChain_cons_cons.mpr ⟨⟨?_, ?_⟩,
    Joined.congr hl ?_ ?_⟩⟩
  · rw [Function.update_of_ne (Ne.symm hx.1), Function.update_self]
  · rw [Function.update_self]
  · rw [Function.update_self]
  · rw [Function.update_of_ne (Ne.symm hx.2.1), Function.update_self]
  · intro c hc
    have hc := List.dropLast_subset _ hc
    rw [Function.update_of_ne, Function.update_of_ne]
    · rintro rfl
      exact not_or.mpr hnodup.1 (List.mem_cons.mp hc)
    · rintro rfl
      exact not_or.mpr hx.2 (List.mem_cons.mp hc)
  · intro c hc
    rw [Function.update_of_ne, Function.update_of_ne]
    · rintro rfl
      exact hnodup.2.1 hc
    · rintro rfl
      exact hx.2.2 hc

end Linked
