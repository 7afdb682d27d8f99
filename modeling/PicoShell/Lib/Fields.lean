import Mathlib.Data.List.TakeWhile
import Mathlib.Tactic.Conv

/-! Two ways to cut a list at a separator: the maximal runs of other elements, and the fields
of a reader who goes over exactly one separator behind each.  They are the same where no
field is empty. -/

namespace Fields

variable {α : Type*} {sep : α} {l w rest : List α}

/-- Two separators in a row are at the end of the first field or behind it. -/
theorem pair_infix_append (hw : sep ∉ w) :
    [sep, sep] <:+: w ++ sep :: rest ↔ rest.head? = some sep ∨ [sep, sep] <:+: rest := by
  induction w with
  | nil =>
    rw [List.nil_append, List.infix_cons_iff, List.cons_prefix_cons]
    cases rest with
    | nil => simp
    | cons a rest => simp [List.cons_prefix_cons, eq_comm]
  | cons a w ih =>
    obtain ⟨ha, hw⟩ := not_or.mp (mt List.mem_cons.mpr hw)
    rw [List.cons_append, List.infix_cons_iff, List.cons_prefix_cons, ih hw]
    simp [ha]

variable [DecidableEq α]

/-- The maximal runs of elements other than `sep`. -/
def runs (sep : α) (l : List α) : List (List α) := (l.splitOn sep).filter (· ≠ [])

/-- The pieces between separators, without the last one if that is empty. -/
def fields (sep : α) (l : List α) : List (List α) :=
  if (l.splitOn sep).getLast? = some [] then (l.splitOn sep).dropLast else l.splitOn sep

/-- Induction from one separator to the next. -/
theorem split_induction (sep : α) {P : List α → Prop} (hlast : ∀ w, sep ∉ w → P w)
    (hcons : ∀ w rest, sep ∉ w → P rest → P (w ++ sep :: rest)) (l : List α) : P l := by
  induction hn : l.length using Nat.strong_induction_on generalizing l with
  | _ n ih =>
    by_cases hmem : sep ∈ l
    · obtain ⟨w, rest, rfl, hw⟩ := List.eq_append_cons_of_mem hmem
      apply hcons w rest hw
      apply ih rest.length _ rest rfl
      rw [← hn, List.length_append, List.length_cons]
      omega
    · exact hlast l hmem

theorem runs_of_not_mem (hw : sep ∉ w) : runs sep w = if w = [] then [] else [w] := by
  rw [runs, List.splitOn_eq_singleton hw]
  by_cases hnil : w = []
  · simp [hnil]
  · simp [hnil]

@[simp] theorem runs_nil : runs sep [] = [] := by
  rw [runs_of_not_mem List.not_mem_nil, if_pos rfl]

theorem runs_append (sep : α) (l rest : List α) :
    runs sep (l ++ sep :: rest) = runs sep l ++ runs sep rest := by
  rw [runs, List.splitOn_append_cons_self, List.filter_append]
  rfl

theorem runs_cons_sep (sep : α) (l : List α) : runs sep (sep :: l) = runs sep l := by
  have := runs_append sep [] l
  rwa [List.nil_append, runs_nil, List.nil_append] at this

theorem runs_dropWhile (sep : α) (l : List α) : runs sep (l.dropWhile (· == sep)) = runs sep l := by
  induction l with
  | nil => rfl
  | cons a l ih =>
    by_cases ha : a = sep
    · rw [ha, runs_cons_sep, List.dropWhile_cons_of_pos (by simp), ih]
    · rw [List.dropWhile_cons_of_neg (by simpa using ha)]

/-- The first run, and those behind the separator that ends it. -/
theorem runs_of_head (hne : l ≠ []) (hhead : l.head? ≠ some sep) : runs sep l =
    l.takeWhile (· != sep) :: runs sep ((l.dropWhile (· != sep)).drop 1) := by
  have hfirst : l.takeWhile (· != sep) ≠ [] := by
    cases l with
    | nil => contradiction
    | cons a l =>
      rw [List.takeWhile_cons_of_pos (by simpa using hhead)]
      exact List.cons_ne_nil _ _
  have hno : sep ∉ l.takeWhile (· != sep) := by
    intro hmem
    have := List.mem_takeWhile_imp hmem
    simp at this
  conv_lhs => rw [← List.takeWhile_append_dropWhile (p := (· != sep)) (l := l)]
  cases hrest : l.dropWhile (· != sep) with
  | nil => rw [List.append_nil, runs_of_not_mem hno, if_neg hfirst, List.drop_nil, runs_nil]
  | cons a rest =>
    have ha : a = sep := by
      have := List.head_dropWhile_not (· != sep) (l := l) (by rw [hrest]; exact List.cons_ne_nil _ _)
      simpa [hrest] using this
    rw [ha, runs_append, runs_of_not_mem hno, if_neg hfirst]
    rfl

theorem mem_runs (hw : w ∈ runs sep l) : w ≠ [] := by
  simpa using (List.mem_filter.mp hw).2

theorem infix_of_mem_runs (hw : w ∈ runs sep l) : w <:+: l := by
  induction l using split_induction sep with
  | hlast v hv =>
    rw [runs_of_not_mem hv] at hw
    split_ifs at hw
    · contradiction
    · obtain rfl := List.mem_singleton.mp hw
      exact List.infix_rfl
  | hcons v rest hv ih =>
    rw [runs_append, List.mem_append] at hw
    rcases hw with hw | hw
    · rw [runs_of_not_mem hv] at hw
      split_ifs at hw
      · contradiction
      · rw [List.mem_singleton.mp hw]
        exact (List.prefix_append v _).isInfix
    · exact (ih hw).trans ((List.suffix_cons sep rest).trans (List.suffix_append v _)).isInfix

theorem runs_eq_nil_iff : runs sep l = [] ↔ ∀ a ∈ l, a = sep := by
  induction l using split_induction sep with
  | hlast w hw =>
    rw [runs_of_not_mem hw]
    cases w with
    | nil => simp
    | cons a w =>
      rw [if_neg (List.cons_ne_nil a w)]
      refine iff_of_false (List.cons_ne_nil _ _) fun h => hw ?_
      rw [h a List.mem_cons_self]
      exact List.mem_cons_self
  | hcons w rest hw ih =>
    rw [runs_append, List.append_eq_nil_iff, ih, runs_of_not_mem hw]
    constructor
    · rintro ⟨hnil, hrest⟩ a ha
      have hwnil : w = [] := by
        by_contra hne
        rw [if_neg hne] at hnil
        exact List.cons_ne_nil _ _ hnil
      rw [hwnil, List.nil_append, List.mem_cons] at ha
      exact ha.elim id (hrest a)
    · intro h
      refine ⟨?_, fun a ha => h a (by simp [ha])⟩
      rw [if_pos]
      by_contra hne
      obtain ⟨a, ha⟩ := List.exists_mem_of_ne_nil w hne
      apply hw
      rw [← h a (by simp [ha])]
      exact ha

theorem fields_of_not_mem (hw : sep ∉ w) : fields sep w = if w = [] then [] else [w] := by
  unfold fields
  rw [List.splitOn_eq_singleton hw]
  simp

theorem fields_append (hw : sep ∉ w) : fields sep (w ++ sep :: rest) = w :: fields sep rest := by
  unfold fields
  rw [List.splitOn_append_cons_self, List.splitOn_eq_singleton hw, List.singleton_append,
    List.getLast?_cons, List.dropLast_cons_of_ne_nil (List.splitOn_ne_nil sep rest)]
  obtain ⟨a, ha⟩ := Option.ne_none_iff_exists'.mp
    (mt List.getLast?_eq_none_iff.mp (List.splitOn_ne_nil sep rest))
  rw [ha, Option.getD_some]
  split_ifs
  · rfl
  · rfl

theorem runs_eq_filter (sep : α) (l : List α) : runs sep l = (fields sep l).filter (· ≠ []) := by
  induction l using split_induction sep with
  | hlast w hw =>
    rw [runs_of_not_mem hw, fields_of_not_mem hw]
    split_ifs with hnil
    · rfl
    · simp [hnil]
  | hcons w rest hw ih =>
    rw [runs_append, fields_append hw, runs_of_not_mem hw, ih]
    split_ifs with hnil
    · simp [hnil]
    · rw [List.filter_cons_of_pos (by simpa using hnil)]
      rfl

/-- What holds of the empty list holds of all fields if it does of all runs. -/
theorem forall_fields_iff {P : List α → Prop} (hnil : P []) :
    (∀ w ∈ fields sep l, P w) ↔ ∀ w ∈ runs sep l, P w := by
  rw [runs_eq_filter]
  constructor
  · exact fun h w hw => h w (List.mem_filter.mp hw).1
  · intro h w hw
    by_cases hw' : w = []
    · rw [hw']
      exact hnil
    · exact h w (List.mem_filter.mpr ⟨hw, by simpa using hw'⟩)

/-- No field is empty just when there is no separator in front and no two in a row. -/
theorem fields_eq_runs_iff (sep : α) (l : List α) :
    fields sep l = runs sep l ↔ l.head? ≠ some sep ∧ ¬ [sep, sep] <:+: l := by
  rw [runs_eq_filter, eq_comm, List.filter_eq_self]
  induction l using split_induction sep with
  | hlast w hw =>
    have hpair : ¬ [sep, sep] <:+: w := fun h => hw (h.subset List.mem_cons_self)
    have hhead : w.head? ≠ some sep := fun h => hw (List.mem_of_head? h)
    rw [fields_of_not_mem hw]
    refine iff_of_true ?_ ⟨hhead, hpair⟩
    split_ifs with hnil
    · simp
    · simpa using hnil
  | hcons w rest hw ih =>
    have hhead : (w ++ sep :: rest).head? ≠ some sep ↔ w ≠ [] := by
      cases w with
      | nil => simp
      | cons a w => simpa using fun ha => hw (by simp [ha])
    rw [fields_append hw, List.forall_mem_cons, ih, hhead, pair_infix_append hw]
    simp only [decide_eq_true_eq, not_or]

theorem length_fields (sep : α) (l : List α) : (fields sep l).length =
    l.count sep + if l = [] ∨ l.getLast? = some sep then 0 else 1 := by
  induction l using split_induction sep with
  | hlast w hw =>
    have hlast : w.getLast? ≠ some sep := fun h => hw (List.mem_of_getLast? h)
    rw [fields_of_not_mem hw, List.count_eq_zero_of_not_mem hw]
    by_cases hnil : w = []
    · simp [hnil]
    · simp [hnil, hlast]
  | hcons w rest hw ih =>
    rw [fields_append hw, List.length_cons, ih, List.count_append, List.count_eq_zero_of_not_mem hw,
      List.count_cons_self]
    cases rest with
    | nil => simp
    | cons a rest =>
      rw [List.getLast?_append, List.getLast?_cons_cons]
      simp
      omega

theorem runs_intercalate {ws : List (List α)} (hw : ∀ w ∈ ws, sep ∉ w) (hne : ∀ w ∈ ws, w ≠ []) :
    runs sep ([sep].intercalate ws) = ws := by
  by_cases hnil : ws = []
  · rw [hnil, List.intercalate_nil, runs_nil]
  · rw [runs, List.splitOn_intercalate sep hw hnil, List.filter_eq_self]
    exact fun w hmem => by simpa using hne w hmem

theorem fields_intercalate {ws : List (List α)} (hw : ∀ w ∈ ws, sep ∉ w) (hne : ∀ w ∈ ws, w ≠ []) :
    fields sep ([sep].intercalate ws) = ws := by
  by_cases hnil : ws = []
  · rw [hnil, List.intercalate_nil, fields_of_not_mem List.not_mem_nil, if_pos rfl]
  · rw [fields, List.splitOn_intercalate sep hw hnil, if_neg]
    intro hlast
    exact hne [] (List.mem_of_getLast? hlast) rfl

omit [DecidableEq α] in
theorem intercalate_concat_append (sep : α) (ws : List (List α)) (w t : List α) :
    [sep].intercalate (ws ++ [w]) ++ t = [sep].intercalate (ws ++ [w ++ t]) := by
  induction ws with
  | nil => rw [List.nil_append, List.nil_append, List.intercalate_singleton, List.intercalate_singleton]
  | cons v ws ih =>
    rw [List.cons_append, List.cons_append, List.intercalate_cons_of_ne_nil (by simp),
      List.intercalate_cons_of_ne_nil (by simp), List.append_assoc, ih]

end Fields
