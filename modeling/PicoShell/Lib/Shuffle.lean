import Mathlib.Data.List.Nodup

/-! Several lists are taken apart from their fronts into one. -/

variable {α β κ : Type*} {ls : List (List α)}

/-- `w` takes the elements of each list in order. -/
inductive Shuffle : List (List α) → List α → Prop
  | nil {ls : List (List α)} (hempty : ∀ l ∈ ls, l = []) : Shuffle ls []
  | cons {pre post : List (List α)} {a : α} {l w : List α}
      (rest : Shuffle (pre ++ l :: post) w) : Shuffle (pre ++ (a :: l) :: post) (a :: w)

namespace Shuffle

theorem exists_mem {w : List α} (h : Shuffle ls w) {a : α} (ha : a ∈ w) : ∃ l ∈ ls, a ∈ l := by
  induction h with
  | nil => exact absurd ha List.not_mem_nil
  | @cons pre post b l w _ ih =>
    rcases List.mem_cons.mp ha with rfl | ha
    · exact ⟨a :: l, by simp, List.mem_cons_self⟩
    · obtain ⟨l', hl', ha⟩ := ih ha
      rcases List.mem_append.mp hl' with hpre | hpost
      · exact ⟨l', List.mem_append_left _ hpre, ha⟩
      rcases List.mem_cons.mp hpost with rfl | hpost
      · exact ⟨b :: l', by simp, List.mem_cons_of_mem _ ha⟩
      · exact ⟨l', by simp [hpost], ha⟩

theorem of_labels [DecidableEq κ] {ks : List κ} (hks : ks.Nodup) (t : List (κ × α))
    (hmem : ∀ x ∈ t, x.1 ∈ ks) :
    Shuffle (ks.map fun k => (t.filter fun x => x.1 = k).map Prod.snd) (t.map Prod.snd) := by
  induction t with
  | nil =>
    refine .nil fun l hl => ?_
    obtain ⟨k, -, rfl⟩ := List.mem_map.mp hl
    rfl
  | cons x t ih =>
    obtain ⟨hx, hmem⟩ := List.forall_mem_cons.mp hmem
    have ih := ih hmem
    obtain ⟨ks₁, ks₂, rfl⟩ := List.append_of_mem hx
    obtain ⟨-, hrest, hdisjoint⟩ := List.nodup_append'.mp hks
    have hnot₁ : x.1 ∉ ks₁ := fun h => hdisjoint h List.mem_cons_self
    have hnot₂ : x.1 ∉ ks₂ := (List.nodup_cons.mp hrest).1
    -- only the part of its own label starts with the first element
    have hother : ∀ ks' : List κ, x.1 ∉ ks' →
        (ks'.map fun k => ((x :: t).filter fun y => y.1 = k).map Prod.snd) =
          ks'.map fun k => (t.filter fun y => y.1 = k).map Prod.snd := by
      intro ks' hnot
      apply List.map_congr_left
      intro k hk
      have hne : x.1 ≠ k := fun heq => hnot (heq ▸ hk)
      simp [hne]
    rw [List.map_append, List.map_cons, List.map_cons, hother ks₁ hnot₁, hother ks₂ hnot₂,
      List.filter_cons_of_pos (by simp), List.map_cons]
    rw [List.map_append, List.map_cons] at ih
    exact .cons ih

/-- The images of lists are interleaved as the lists themselves. -/
theorem of_map {g : α → β} {w : List β} (h : Shuffle (ls.map (List.map g)) w) :
    ∃ v, Shuffle ls v ∧ w = v.map g := by
  generalize hls : ls.map (List.map g) = ls' at h
  induction h generalizing ls with
  | nil hempty =>
    refine ⟨[], .nil fun l hl => ?_, rfl⟩
    rw [← hls] at hempty
    exact List.map_eq_nil_iff.mp (hempty _ (List.mem_map_of_mem hl))
  | @cons pre' post' b l' w _ ih =>
    obtain ⟨pre, rest, rfl, hpre, hrest⟩ := List.map_eq_append_iff.mp hls
    obtain ⟨l, post, rfl, hl, hpost⟩ := List.map_eq_cons_iff.mp hrest
    obtain ⟨a, l, rfl, ha, hl⟩ := List.map_eq_cons_iff.mp hl
    have hrest' : (pre ++ l :: post).map (List.map g) = pre' ++ l' :: post' := by
      rw [List.map_append, List.map_cons, hpre, hl, hpost]
    obtain ⟨v, hv, hw⟩ := ih hrest'
    exact ⟨a :: v, hv.cons, by rw [List.map_cons, ha, hw]⟩

end Shuffle
