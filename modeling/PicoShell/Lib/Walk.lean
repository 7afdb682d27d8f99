import Mathlib.Data.List.Infix

/-! Walks along a list of labels in a graph with at most one edge per node and label,
and graphs in which two labels stand for the node itself and for its parent. -/

namespace Walk

variable {V L : Type*}

def walk (next : V → L → Option V) : V → List L → Option V
  | v, [] => some v
  | v, l :: p => (next v l).bind fun w => walk next w p

variable {next next' : V → L → Option V} {S : V → Prop} {v w : V} {p q : List L} {l : L}

@[simp] theorem walk_nil : walk next v [] = some v := rfl

theorem walk_cons : walk next v (l :: p) = (next v l).bind fun w => walk next w p := rfl

theorem walk_append : walk next v (p ++ q) = (walk next v p).bind fun w => walk next w q := by
  induction p generalizing v with
  | nil => rfl
  | cons l p ih =>
    rw [List.cons_append, walk_cons, walk_cons]
    cases next v l with
    | none => rfl
    | some u => exact ih

theorem walk_concat : walk next v (p ++ [l]) = (walk next v p).bind fun w => next w l := by
  rw [walk_append]
  congr 1
  funext w
  rw [walk_cons]
  exact Option.bind_fun_some _

def Closed (next : V → L → Option V) (S : V → Prop) : Prop :=
  ∀ v l w, S v → next v l = some w → S w

theorem Closed.walk (hS : Closed next S) (hv : S v) (h : walk next v p = some w) : S w := by
  induction p generalizing v with
  | nil =>
    rw [walk_nil, Option.some.injEq] at h
    rwa [← h]
  | cons l p ih =>
    rw [walk_cons, Option.bind_eq_some_iff] at h
    obtain ⟨u, hu, h⟩ := h
    exact ih (hS v l u hv hu) h

theorem walk_mono (hS : Closed next S)
    (hnext : ∀ v l w, S v → next v l = some w → next' v l = some w) (hv : S v)
    (h : walk next v p = some w) : walk next' v p = some w := by
  induction p generalizing v with
  | nil => exact h
  | cons l p ih =>
    rw [walk_cons, Option.bind_eq_some_iff] at h
    obtain ⟨u, hu, h⟩ := h
    rw [walk_cons, hnext v l u hv hu, Option.bind_some]
    exact ih (hS v l u hv hu) h

/-- Cutting the edge to a node without successors under the labels of `p` spoils only the walks
that end there. -/
theorem walk_cut (hS : Closed next S) {x : V}
    (hnext : ∀ v l w, S v → next v l = some w → w ≠ x → next' v l = some w)
    (hleaf : ∀ l ∈ p, next x l = none) (hv : S v) (h : walk next v p = some w) (hw : w ≠ x) :
    walk next' v p = some w := by
  induction p generalizing v with
  | nil => exact h
  | cons l p ih =>
    rw [walk_cons, Option.bind_eq_some_iff] at h
    obtain ⟨u, hu, h⟩ := h
    have hux : u ≠ x := by
      rintro rfl
      cases p with
      | nil =>
        rw [walk_nil, Option.some.injEq] at h
        exact hw h.symm
      | cons l' p =>
        rw [walk_cons, hleaf l' (by simp)] at h
        contradiction
    rw [walk_cons, hnext v l u hv hu hux, Option.bind_some]
    exact ih (fun l hl => hleaf l (List.mem_cons_of_mem _ hl)) (hS v l u hv hu) h

section Dots

variable {root : V} {dot up : L}

/-- Inside `S`, `dot` leads back to the node itself and `up` to the node every other label came
from. -/
structure Dotted (next : V → L → Option V) (S : V → Prop) (root : V) (dot up : L) : Prop where
  closed : Closed next S
  root_mem : S root
  self : ∀ v w, S v → next v dot = some w → w = v
  above_root : ∀ w, next root up = some w → w = root
  above : ∀ v l w u, S v → l ≠ dot → l ≠ up → next v l = some w → next w up = some u → u = v

/-- No label of `p` is one of the two dot labels. -/
def DotFree (dot up : L) (p : List L) : Prop := ∀ l ∈ p, l ≠ dot ∧ l ≠ up

variable [DecidableEq L]

/-- The effect of one label on a path without dot labels. -/
def normStep (dot up : L) (p : List L) (l : L) : List L :=
  if l = dot then p else if l = up then p.dropLast else p ++ [l]

/-- The path with its dot labels worked off. -/
def normalize (dot up : L) (p : List L) : List L := p.foldl (normStep dot up) []

theorem DotFree.normStep (hp : DotFree dot up p) (l : L) : DotFree dot up (normStep dot up p l) := by
  unfold Walk.normStep
  split_ifs with hd hu
  · exact hp
  · exact fun m hm => hp m (List.mem_of_mem_dropLast hm)
  · intro m hm
    rcases List.mem_append.mp hm with hm | hm
    · exact hp m hm
    · rw [List.mem_singleton.mp hm]
      exact ⟨hd, hu⟩

theorem dotFree_foldl (hp : DotFree dot up p) : DotFree dot up (q.foldl (normStep dot up) p) := by
  induction q generalizing p with
  | nil => exact hp
  | cons l q ih => exact ih (hp.normStep l)

theorem dotFree_normalize (dot up : L) (p : List L) : DotFree dot up (normalize dot up p) :=
  dotFree_foldl fun _ hl => absurd hl (by simp)

theorem normalize_concat (hd : l ≠ dot) (hu : l ≠ up) :
    normalize dot up (p ++ [l]) = normalize dot up p ++ [l] := by
  rw [normalize, List.foldl_append, List.foldl_cons, List.foldl_nil, Walk.normStep, if_neg hd,
    if_neg hu]
  rfl

namespace Dotted

theorem walk_normStep (h : Dotted next S root dot up) (hp : DotFree dot up p)
    (hv : Walk.walk next root p = some v) (hl : next v l = some w) :
    Walk.walk next root (Walk.normStep dot up p l) = some w := by
  have hSv := h.closed.walk h.root_mem hv
  unfold Walk.normStep
  split_ifs with hd hu
  · subst hd
    rw [h.self v w hSv hl, hv]
  · subst hu
    rcases List.eq_nil_or_concat p with rfl | ⟨q, m, rfl⟩
    · rw [walk_nil, Option.some.injEq] at hv
      subst hv
      rw [h.above_root w hl]
      rfl
    · rw [List.concat_eq_append] at hp hv ⊢
      rw [List.dropLast_concat]
      rw [walk_concat, Option.bind_eq_some_iff] at hv
      obtain ⟨u, hq, hm⟩ := hv
      have hSu := h.closed.walk h.root_mem hq
      obtain ⟨hmd, hmu⟩ := hp m (by simp)
      rw [h.above u m v w hSu hmd hmu hm hl, hq]
  · rw [walk_concat, hv, Option.bind_some, hl]

theorem walk_foldl (h : Dotted next S root dot up) (hp : DotFree dot up p)
    (hv : Walk.walk next root p = some v) (hw : Walk.walk next v q = some w) :
    Walk.walk next root (q.foldl (Walk.normStep dot up) p) = some w := by
  induction q generalizing p v with
  | nil =>
    rw [walk_nil, Option.some.injEq] at hw
    rwa [← hw]
  | cons l q ih =>
    rw [walk_cons, Option.bind_eq_some_iff] at hw
    obtain ⟨u, hu, hw⟩ := hw
    exact ih (hp.normStep l) (h.walk_normStep hp hv hu) hw

/-- A path that leads somewhere leads where its normal form leads. -/
theorem walk_normalize (h : Dotted next S root dot up) (hw : Walk.walk next root p = some w) :
    Walk.walk next root (normalize dot up p) = some w :=
  h.walk_foldl (fun _ hl => absurd hl (by simp)) rfl hw

end Dotted

end Dots

end Walk
