import Mathlib.Data.Finset.Erase
import Mathlib.Data.Finset.Insert
import Mathlib.Data.List.Induction
import PicoShell.Lib.DotTree

/-! A tree with dot labels up to the choice of its nodes: the set of the paths that lead to them.
Walks in the tree are computed on the paths, a new leaf is a new path, and a leaf that is cut
off is a path less. -/

namespace Walk

variable {V L : Type*} {dot up : L}

theorem DotFree.concat {p : List L} {l : L} (hp : DotFree dot up p) (hl : ¬ (l = dot ∨ l = up)) :
    DotFree dot up (p ++ [l]) := by
  intro m hm
  rcases List.mem_append.mp hm with hm | hm
  · exact hp m hm
  · rw [List.mem_singleton.mp hm]
    exact not_or.mp hl

theorem walk_congr {next next' : V → L → Option V} {S : V → Prop} {v : V} (hS : Closed next S)
    (hnext : ∀ v l, S v → next' v l = next v l) (hv : S v) (p : List L) :
    walk next' v p = walk next v p := by
  induction p generalizing v with
  | nil => rfl
  | cons l p ih =>
    rw [walk_cons, walk_cons, hnext v l hv]
    cases hw : next v l with
    | none => rfl
    | some w => exact ih (hS v l w hv hw)

/-- The paths of a tree, without dot labels. -/
structure Names (L : Type*) (dot up : L) where
  dirs : Finset (List L)
  root : [] ∈ dirs
  prefixes : ∀ p l, p ++ [l] ∈ dirs → p ∈ dirs
  dotFree : ∀ p ∈ dirs, DotFree dot up p

namespace Names

variable {g : V → L → Option V} {root v : V} {t : Names L dot up} {p q : List L} {k l : L}

def single (L : Type*) (dot up : L) : Names L dot up where
  dirs := {[]}
  root := Finset.mem_singleton_self []
  prefixes p l h := by simp at h
  dotFree p h := by
    rw [Finset.mem_singleton.mp h]
    exact fun _ hl => absurd hl List.not_mem_nil

def Of (t : Names L dot up) (g : V → L → Option V) (root : V) : Prop :=
  ∀ p, DotFree dot up p → (p ∈ t.dirs ↔ walk g root p ≠ none)

theorem walk_of_mem (ht : t.Of g root) (hp : p ∈ t.dirs) :
    ∃ v, walk g root p = some v :=
  Option.ne_none_iff_exists'.mp ((ht p (t.dotFree p hp)).mp hp)

theorem leaf_iff (ht : t.Of g root) (hp : DotFree dot up p) (hv : walk g root p = some v) :
    (∀ r ∈ t.dirs, r ≠ [] → r.dropLast ≠ p) ↔ ∀ l, ¬ (l = dot ∨ l = up) → g v l = none := by
  constructor
  · intro hnone l hl
    by_contra hsome
    have hmem : p ++ [l] ∈ t.dirs := by
      rw [ht _ (hp.concat hl), walk_concat, hv, Option.bind_some]
      exact hsome
    exact hnone _ hmem (by simp) List.dropLast_concat
  · intro hleaf r hr hne heq
    have hr' := (ht r (t.dotFree r hr)).mp hr
    have hl := t.dotFree r hr (r.getLast hne) (List.getLast_mem hne)
    rw [← List.dropLast_append_getLast hne, heq, walk_concat, hv, Option.bind_some,
      hleaf _ (not_or.mpr hl)] at hr'
    exact hr' rfl

variable [DecidableEq L]

def insert (t : Names L dot up) (q : List L) (k : L) : Names L dot up :=
  if h : q ∈ t.dirs ∧ ¬ (k = dot ∨ k = up) then
    { dirs := Insert.insert (q ++ [k]) t.dirs
      root := Finset.mem_insert_of_mem t.root
      prefixes := by
        intro p l hp
        apply Finset.mem_insert_of_mem
        rcases Finset.mem_insert.mp hp with hp | hp
        · rw [(List.append_inj' hp rfl).1]
          exact h.1
        · exact t.prefixes p l hp
      dotFree := by
        intro p hp
        rcases Finset.mem_insert.mp hp with rfl | hp
        · exact (t.dotFree q h.1).concat h.2
        · exact t.dotFree p hp }
  else t

def erase (t : Names L dot up) (q : List L) (k : L) : Names L dot up :=
  if h : ∀ p ∈ t.dirs, p ≠ [] → p.dropLast ≠ q ++ [k] then
    { dirs := t.dirs.erase (q ++ [k])
      root := Finset.mem_erase.mpr ⟨by simp, t.root⟩
      prefixes := by
        intro p l hp
        have hp := Finset.mem_of_mem_erase hp
        refine Finset.mem_erase.mpr ⟨?_, t.prefixes p l hp⟩
        have hleaf := h _ hp (by simp)
        rwa [List.dropLast_concat] at hleaf
      dotFree := fun p hp => t.dotFree p (Finset.mem_of_mem_erase hp) }
  else t

theorem mem_insert (hq : q ∈ t.dirs) (hk : ¬ (k = dot ∨ k = up)) :
    p ∈ (t.insert q k).dirs ↔ p = q ++ [k] ∨ p ∈ t.dirs := by
  rw [insert, dif_pos ⟨hq, hk⟩]
  exact Finset.mem_insert

theorem mem_erase (hleaf : ∀ p ∈ t.dirs, p ≠ [] → p.dropLast ≠ q ++ [k]) :
    p ∈ (t.erase q k).dirs ↔ p ≠ q ++ [k] ∧ p ∈ t.dirs := by
  rw [erase, dif_pos hleaf]
  exact Finset.mem_erase

theorem eq_or_mem_of_insert (h : p ∈ (t.insert q k).dirs) : p = q ++ [k] ∨ p ∈ t.dirs := by
  unfold insert at h
  split_ifs at h
  · exact Finset.mem_insert.mp h
  · exact .inr h

theorem mem_insert_of_mem (h : p ∈ t.dirs) : p ∈ (t.insert q k).dirs := by
  unfold insert
  split_ifs
  · exact Finset.mem_insert_of_mem h
  · exact h

theorem mem_of_erase (h : p ∈ (t.erase q k).dirs) : p ∈ t.dirs := by
  unfold erase at h
  split_ifs at h
  · exact Finset.mem_of_mem_erase h
  · exact h

/-- The path behind one more label. -/
def next (t : Names L dot up) (p : List L) (l : L) : Option (List L) :=
  if normStep dot up p l ∈ t.dirs then some (normStep dot up p l) else none

def resolve (t : Names L dot up) (ls : List L) : Option (List L) := walk t.next [] ls

theorem closed (t : Names L dot up) : Closed t.next (· ∈ t.dirs) := by
  intro p l q _ hpq
  unfold next at hpq
  split_ifs at hpq with hmem
  rwa [← Option.some.inj hpq]

theorem mem_of_resolve {ls : List L} (h : t.resolve ls = some p) : p ∈ t.dirs :=
  t.closed.walk t.root h

theorem resolve_concat (t : Names L dot up) (ls : List L) (l : L) :
    t.resolve (ls ++ [l]) = (t.resolve ls).bind fun p => t.next p l := walk_concat

theorem normStep_of_dot (hp : p ∈ t.dirs) (hl : l = dot ∨ l = up) : normStep dot up p l ∈ t.dirs := by
  unfold normStep
  split_ifs with hd hu
  · exact hp
  · rcases List.eq_nil_or_concat p with rfl | ⟨q, m, rfl⟩
    · exact hp
    · rw [List.concat_eq_append] at hp ⊢
      rw [List.dropLast_concat]
      exact t.prefixes q m hp
  · exact absurd hl (not_or.mpr ⟨hd, hu⟩)

theorem next_of_not_dot (t : Names L dot up) (p : List L) (hl : ¬ (l = dot ∨ l = up)) :
    t.next p l = if p ++ [l] ∈ t.dirs then some (p ++ [l]) else none := by
  obtain ⟨hd, hu⟩ := not_or.mp hl
  rw [next, normStep, if_neg hd, if_neg hu]

end Names

namespace DotTree

variable [Preorder V] {next next' : V → L → Option V} {dir S : V → Prop} {root n u v w : V}
  {p q : List L} {k l : L} {t : Names L dot up}

theorem walk_dir (h : DotTree next dir S root dot up) (hv : walk next root p = some v) : dir v := by
  rcases List.eq_nil_or_concat p with rfl | ⟨q, l, rfl⟩
  · rw [walk_nil, Option.some.injEq] at hv
    rw [← hv]
    exact h.root_dir
  · rw [List.concat_eq_append, walk_concat, Option.bind_eq_some_iff] at hv
    obtain ⟨u, hu, huv⟩ := hv
    exact h.target u l v (h.closed.walk h.root_mem hu) huv

theorem walk_inj (h : DotTree next dir S root dot up) (hp : DotFree dot up p) (hq : DotFree dot up q)
    (hpv : walk next root p = some v) (hqv : walk next root q = some v) : p = q := by
  have hnotRoot : ∀ {r : List L} {l u}, DotFree dot up (r ++ [l]) → walk next root r = some u →
      next u l ≠ some root := by
    intro r l u hr hu hroot
    have hl := hr l (by simp)
    exact h.ne_root (h.closed.walk h.root_mem hu) (not_or.mpr hl) hroot rfl
  induction p using List.reverseRecOn generalizing q v with
  | nil =>
    rw [walk_nil, Option.some.injEq] at hpv
    subst hpv
    rcases List.eq_nil_or_concat q with rfl | ⟨q, l, rfl⟩
    · rfl
    · rw [List.concat_eq_append] at hq hqv
      rw [walk_concat, Option.bind_eq_some_iff] at hqv
      obtain ⟨u, hu, huv⟩ := hqv
      exact absurd huv (hnotRoot hq hu)
  | append_singleton p l ih =>
    rw [walk_concat, Option.bind_eq_some_iff] at hpv
    obtain ⟨u, hu, huv⟩ := hpv
    rcases List.eq_nil_or_concat q with rfl | ⟨q, m, rfl⟩
    · rw [walk_nil, Option.some.injEq] at hqv
      subst hqv
      exact absurd huv (hnotRoot hp hu)
    · rw [List.concat_eq_append] at hq hqv ⊢
      rw [walk_concat, Option.bind_eq_some_iff] at hqv
      obtain ⟨u', hu', hu'v⟩ := hqv
      have hSu := h.closed.walk h.root_mem hu
      have hl := not_or.mpr (hp l (by simp))
      have hm := not_or.mpr (hq m (by simp))
      -- both edges come from the parent
      have hparent := h.up_child u l v hSu hl huv
      rw [h.up_child u' m v (h.closed.walk h.root_mem hu') hm hu'v, Option.some.injEq] at hparent
      subst hparent
      obtain rfl := h.inj u' l m v hSu hl hm huv hu'v
      obtain rfl := ih (fun l hl => hp l (List.mem_append_left _ hl))
        (fun l hl => hq l (List.mem_append_left _ hl)) hu hu'
      rfl

variable [DecidableEq L]

/-- One more label leads to the same directory on the names. -/
theorem next_eq (h : DotTree next dir S root dot up) (ht : t.Of next root) (hp : p ∈ t.dirs)
    (hv : walk next root p = some v) (l : L) : next v l = (t.next p l).bind (walk next root) := by
  have hSv := h.closed.walk h.root_mem hv
  have hdir := h.walk_dir hv
  by_cases hl : l = dot ∨ l = up
  · rw [Names.next, if_pos (Names.normStep_of_dot hp hl), Option.bind_some, normStep]
    split_ifs with hd hu
    · rw [hd, h.self v hSv hdir, hv]
    · obtain ⟨w, hw⟩ := h.hasUp v hSv hdir
      have hstep := h.dotted.walk_normStep (t.dotFree p hp) hv hw
      rw [normStep, if_neg (by rwa [hu] at hd), if_pos rfl] at hstep
      rw [hu, hw, hstep]
    · exact absurd hl (not_or.mpr ⟨hd, hu⟩)
  · have hwalk : walk next root (p ++ [l]) = next v l := by rw [walk_concat, hv, Option.bind_some]
    have hfree := (t.dotFree p hp).concat hl
    rw [t.next_of_not_dot p hl]
    split_ifs with hmem
    · rw [Option.bind_some, hwalk]
    · rw [ht _ hfree, not_not, hwalk] at hmem
      rw [hmem, Option.bind_none]

theorem walk_eq (h : DotTree next dir S root dot up) (ht : t.Of next root) (ls : List L) :
    walk next root ls = (t.resolve ls).bind (walk next root) := by
  induction ls using List.reverseRecOn with
  | nil => rfl
  | append_singleton ls l ih =>
    rw [walk_concat, ih, t.resolve_concat]
    cases hp : t.resolve ls with
    | none => rfl
    | some p =>
      have hmem := Names.mem_of_resolve hp
      obtain ⟨v, hv⟩ := Names.walk_of_mem ht hmem
      rw [Option.bind_some, Option.bind_some, hv, Option.bind_some]
      exact h.next_eq ht hmem hv l

/-- A label that leads to a leaf, or nowhere, may be changed without touching other paths. -/
theorem walk_change (h : DotTree next dir S root dot up) (hq : DotFree dot up q)
    (hu : walk next root q = some u)
    (hold : ∀ v l, S v → ¬ (v = u ∧ l = k) → next' v l = next v l)
    (hleaf : ∀ w l, next u k = some w → ¬ (l = dot ∨ l = up) → next w l = none)
    (hleaf' : ∀ w l, next' u k = some w → ¬ (l = dot ∨ l = up) → next' w l = none)
    (hp : DotFree dot up p) :
    walk next' root p = if p = q ++ [k] then next' u k else walk next root p := by
  induction p using List.reverseRecOn with
  | nil => rw [if_neg (by simp), walk_nil, walk_nil]
  | append_singleton p l ih =>
    have hpfree : DotFree dot up p := fun l hl => hp l (List.mem_append_left _ hl)
    have hl := not_or.mpr (hp l (by simp))
    rw [walk_concat, walk_concat, ih hpfree]
    by_cases hpq : p = q ++ [k]
    · have hnew : ((next' u k).bind fun w => next' w l) = none :=
        Option.bind_eq_none_iff.mpr fun w hw => hleaf' w l hw hl
      have hnone : ((next u k).bind fun w => next w l) = none :=
        Option.bind_eq_none_iff.mpr fun w hw => hleaf w l hw hl
      rw [if_pos hpq, hnew, hpq, if_neg (by simp), walk_concat, hu, Option.bind_some, hnone]
    · rw [if_neg hpq]
      cases hv : walk next root p with
      | none =>
        rw [Option.bind_none, Option.bind_none, if_neg]
        intro heq
        rw [(List.append_inj' heq rfl).1, hu] at hv
        contradiction
      | some v =>
        rw [Option.bind_some, Option.bind_some]
        by_cases hvk : v = u ∧ l = k
        · obtain ⟨rfl, rfl⟩ := hvk
          rw [h.walk_inj hpfree hq hv hu, if_pos rfl]
        · rw [hold v l (h.closed.walk h.root_mem hv) hvk, if_neg]
          intro heq
          obtain ⟨rfl, hlk⟩ := List.append_inj' heq rfl
          exact hvk ⟨Option.some.inj (hv.symm.trans hu), List.head_eq_of_cons_eq hlk⟩

/-- A new leaf is behind no other path. -/
theorem walk_link (h : DotTree next dir S root dot up) (hq : DotFree dot up q)
    (hu : walk next root q = some u) (hnew : next u k = none) (hlink : next' u k = some n)
    (hold : ∀ v l, S v → ¬ (v = u ∧ l = k) → next' v l = next v l)
    (hleaf : ∀ l, ¬ (l = dot ∨ l = up) → next' n l = none) (hp : DotFree dot up p) :
    walk next' root p = if p = q ++ [k] then some n else walk next root p := by
  rw [h.walk_change hq hu hold ?_ ?_ hp, hlink]
  · intro w l hw
    rw [hnew] at hw
    contradiction
  · intro w l hw
    rw [hlink, Option.some.injEq] at hw
    exact hw ▸ hleaf l

/-- A leaf that is cut off was behind no other path. -/
theorem walk_unlink (h : DotTree next dir S root dot up) (hq : DotFree dot up q)
    (hu : walk next root q = some u) (hlink : next u k = some n)
    (hleaf : ∀ l, ¬ (l = dot ∨ l = up) → next n l = none) (hgone : next' u k = none)
    (hold : ∀ v l, S v → ¬ (v = u ∧ l = k) → next' v l = next v l) (hp : DotFree dot up p) :
    walk next' root p = if p = q ++ [k] then none else walk next root p := by
  rw [h.walk_change hq hu hold ?_ ?_ hp, hgone]
  · intro w l hw
    rw [hlink, Option.some.injEq] at hw
    exact hw ▸ hleaf l
  · intro w l hw
    rw [hgone] at hw
    contradiction

theorem of_insert (h : DotTree next dir S root dot up) (ht : t.Of next root) (hq : q ∈ t.dirs)
    (hu : walk next root q = some u) (hk : ¬ (k = dot ∨ k = up)) (hnew : next u k = none)
    (hlink : next' u k = some n)
    (hold : ∀ v l, S v → ¬ (v = u ∧ l = k) → next' v l = next v l)
    (hleaf : ∀ l, ¬ (l = dot ∨ l = up) → next' n l = none) : (t.insert q k).Of next' root := by
  intro p hp
  rw [Names.mem_insert hq hk, ht p hp, h.walk_link (t.dotFree q hq) hu hnew hlink hold hleaf hp]
  by_cases hpq : p = q ++ [k]
  · simp [hpq]
  · simp [hpq]

theorem of_erase (h : DotTree next dir S root dot up) (ht : t.Of next root) (hq : q ∈ t.dirs)
    (hu : walk next root q = some u) (hlink : next u k = some n) (hk : ¬ (k = dot ∨ k = up))
    (hleaf : ∀ l, ¬ (l = dot ∨ l = up) → next n l = none) (hgone : next' u k = none)
    (hold : ∀ v l, S v → ¬ (v = u ∧ l = k) → next' v l = next v l) : (t.erase q k).Of next' root := by
  have hqk : walk next root (q ++ [k]) = some n := by rw [walk_concat, hu, Option.bind_some, hlink]
  intro p hp
  rw [Names.mem_erase ((Names.leaf_iff ht ((t.dotFree q hq).concat hk) hqk).mpr hleaf), ht p hp,
    h.walk_unlink (t.dotFree q hq) hu hlink hleaf hgone hold hp]
  by_cases hpq : p = q ++ [k]
  · simp [hpq]
  · simp [hpq]

end DotTree

end Walk
