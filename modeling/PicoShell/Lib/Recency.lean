import Mathlib.Data.Fintype.Card

/-! All elements of a finite type, the most recently used one first. -/

/-- Every element once, the most recently used first. -/
@[ext] structure Recency (α : Type*) where
  order : List α
  nodup : order.Nodup
  complete : ∀ a, a ∈ order

namespace Recency

variable {α : Type*}

theorem order_ne_nil [Nonempty α] (r : Recency α) : r.order ≠ [] :=
  List.ne_nil_of_mem (r.complete (Classical.arbitrary α))

def oldest [Nonempty α] (r : Recency α) : α := r.order.getLast r.order_ne_nil

theorem dropLast_concat_oldest [Nonempty α] (r : Recency α) :
    r.order.dropLast ++ [r.oldest] = r.order := List.dropLast_append_getLast _

theorem oldest_not_mem [Nonempty α] (r : Recency α) : r.oldest ∉ r.order.dropLast := by
  have hnodup := r.nodup
  rw [← r.dropLast_concat_oldest, List.nodup_append] at hnodup
  exact fun hmem => hnodup.2.2 _ hmem _ (List.mem_singleton_self _) rfl

variable [DecidableEq α] {r : Recency α} {a b c : α}

def touch (r : Recency α) (a : α) : Recency α where
  order := a :: r.order.erase a
  nodup := List.nodup_cons.mpr ⟨r.nodup.not_mem_erase, r.nodup.erase a⟩
  complete b := by
    by_cases h : b = a
    · simp [h]
    · exact List.mem_cons_of_mem _ ((List.mem_erase_of_ne h).mpr (r.complete b))

/-- The number of elements that were used after `a`. -/
def rank (r : Recency α) (a : α) : ℕ := r.order.idxOf a

@[simp] theorem rank_touch_self (r : Recency α) (a : α) : (r.touch a).rank a = 0 :=
  List.idxOf_cons_self

theorem erase_oldest [Nonempty α] (r : Recency α) :
    r.order.erase r.oldest = r.order.dropLast := by
  nth_rewrite 1 [← r.dropLast_concat_oldest]
  rw [List.erase_append_right _ r.oldest_not_mem, List.erase_cons_head, List.append_nil]

/-- The elements in front stay in order behind one that was used and is none of them. -/
theorem take_touch {k : ℕ} (h : a ∉ r.order.take k) :
    (r.touch a).order.take (k + 1) = a :: r.order.take k := by
  have hk : k < r.order.length := by
    by_contra hle
    rw [List.take_of_length_le (Nat.le_of_not_lt hle)] at h
    exact h (r.complete a)
  have herase : r.order.erase a = r.order.take k ++ (r.order.drop k).erase a := by
    nth_rewrite 1 [← List.take_append_drop k r.order]
    exact List.erase_append_right _ h
  rw [touch, List.take_succ_cons, herase,
    List.take_append_of_le_length (by rw [List.length_take]; omega), List.take_take, Nat.min_self]

theorem length_order [Fintype α] (r : Recency α) : r.order.length = Fintype.card α := by
  rw [← List.toFinset_card_of_nodup r.nodup, ← Finset.card_univ]
  congr 1
  ext a
  simp [r.complete a]

section History

variable {history : List α}

/-- The time of the last use of `a`, counted from one; zero if it was never used. -/
def lastUse (history : List α) (a : α) : ℕ := history.length - history.reverse.idxOf a

theorem lastUse_concat (history : List α) (a c : α) :
    lastUse (history ++ [c]) a = if a = c then history.length + 1 else lastUse history a := by
  unfold lastUse
  rw [List.reverse_append, List.reverse_singleton, List.singleton_append, List.length_append,
    List.length_singleton]
  split_ifs with h
  · rw [h, List.idxOf_cons_self, Nat.sub_zero]
  · rw [List.idxOf_cons_ne _ (Ne.symm h), Nat.succ_sub_succ]

theorem lastUse_le (history : List α) (a : α) : lastUse history a ≤ history.length :=
  Nat.sub_le _ _

/-- The later use comes first; of elements that were never used, the smaller one. -/
def Before [LT α] (history : List α) (a b : α) : Prop :=
  lastUse history b < lastUse history a ∨
    (lastUse history a = 0 ∧ lastUse history b = 0 ∧ a < b)

theorem pairwise_touches [LT α] {r₀ : Recency α} (h₀ : r₀.order.Pairwise (· < ·))
    (history : List α) : (history.foldl touch r₀).order.Pairwise (Before history) := by
  induction history using List.reverseRecOn with
  | nil => exact h₀.imp fun hab => .inr ⟨rfl, rfl, hab⟩
  | append_singleton history c ih =>
    rw [List.foldl_append]
    -- the used element is in front, and the others keep their order
    refine List.pairwise_cons.mpr ⟨?_, ?_⟩
    · intro b hb
      have hbc : b ≠ c := ((history.foldl touch r₀).nodup.mem_erase_iff.mp hb).1
      have hle := lastUse_le history b
      refine .inl ?_
      rw [lastUse_concat, lastUse_concat, if_neg hbc, if_pos rfl]
      omega
    · refine (ih.sublist List.erase_sublist).imp_of_mem ?_
      intro a b ha hb hab
      have hac : a ≠ c := ((history.foldl touch r₀).nodup.mem_erase_iff.mp ha).1
      have hbc : b ≠ c := ((history.foldl touch r₀).nodup.mem_erase_iff.mp hb).1
      unfold Before
      rwa [lastUse_concat, lastUse_concat, if_neg hac, if_neg hbc]

/-- The oldest element was used last the longest time ago, and is the largest of those that were
never used. -/
theorem oldest_le [LinearOrder α] [Nonempty α] (h : r.order.Pairwise (Before history)) (a : α) :
    lastUse history r.oldest ≤ lastUse history a ∧ (lastUse history a = 0 → a ≤ r.oldest) := by
  have hsplit := r.dropLast_concat_oldest
  have hmem := r.complete a
  rw [← hsplit] at h hmem
  rcases List.mem_append.mp hmem with ha | ha
  · rcases (List.pairwise_append.mp h).2.2 a ha _ (List.mem_singleton_self _) with hlt | ⟨h1, h2, h3⟩
    · exact ⟨hlt.le, fun h0 => by omega⟩
    · exact ⟨by omega, fun _ => h3.le⟩
  · rw [List.mem_singleton.mp ha]
    exact ⟨le_rfl, fun _ => le_rfl⟩

end History

end Recency
