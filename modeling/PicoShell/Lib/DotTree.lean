import Mathlib.Order.Basic
import PicoShell.Lib.Walk

/-! Rooted trees in labelled graphs, in which `dot` leads from every directory to itself and
`up` to its parent.  A tree grows by a leaf and shrinks by one. -/

namespace Walk

variable {V L : Type*} [Preorder V] {next next' : V → L → Option V} {dir dir' S : V → Prop}
  {root n p v : V} {dot up k l : L}

/-- The nodes of `S` are a tree under `root`: edges end in directories, labels other than the two
dot labels lead to larger nodes, and each directory but the root has one such edge into it. -/
structure DotTree (next : V → L → Option V) (dir S : V → Prop) (root : V) (dot up : L) : Prop where
  closed : Closed next S
  root_mem : S root
  root_dir : dir root
  source : ∀ v l w, S v → next v l = some w → dir v
  target : ∀ v l w, S v → next v l = some w → dir w
  self : ∀ v, S v → dir v → next v dot = some v
  hasUp : ∀ v, S v → dir v → ∃ u, next v up = some u
  up_root : next root up = some root
  up_child : ∀ v l w, S v → ¬ (l = dot ∨ l = up) → next v l = some w → next w up = some v
  lt : ∀ v l w, S v → ¬ (l = dot ∨ l = up) → next v l = some w → v < w
  inj : ∀ v l l' w, S v → ¬ (l = dot ∨ l = up) → ¬ (l' = dot ∨ l' = up) → next v l = some w →
    next v l' = some w → l = l'
  linked : ∀ w, S w → dir w → w ≠ root →
    ∃ v l, S v ∧ ¬ (l = dot ∨ l = up) ∧ next v l = some w

namespace DotTree

theorem dotted (h : DotTree next dir S root dot up) : Dotted next S root dot up where
  closed := h.closed
  root_mem := h.root_mem
  self v w hv hvw := by
    rw [h.self v hv (h.source v dot w hv hvw), Option.some.injEq] at hvw
    exact hvw.symm
  above_root w hw := by
    rw [h.up_root, Option.some.injEq] at hw
    exact hw.symm
  above v l w u hv hd hu hvw hwu := by
    rw [h.up_child v l w hv (by rintro (rfl | rfl) <;> contradiction) hvw, Option.some.injEq] at hwu
    exact hwu.symm

/-- A label that leads nowhere from a directory is no dot label. -/
theorem not_dot_of_none (h : DotTree next dir S root dot up) (hv : S v) (hdir : dir v)
    (hnone : next v l = none) : ¬ (l = dot ∨ l = up) := by
  obtain ⟨u, hu⟩ := h.hasUp v hv hdir
  rintro (rfl | rfl)
  · rw [h.self v hv hdir] at hnone
    contradiction
  · rw [hu] at hnone
    contradiction

theorem ne_root (h : DotTree next dir S root dot up) {w : V} (hv : S v)
    (hl : ¬ (l = dot ∨ l = up)) (hvw : next v l = some w) : w ≠ root := by
  rintro rfl
  have hup := h.up_child v l w hv hl hvw
  rw [h.up_root, Option.some.injEq] at hup
  have hlt := h.lt v l w hv hl hvw
  rw [hup] at hlt
  exact lt_irrefl v hlt

theorem single (hS : ∀ v, S v ↔ v = root) (hdir : dir root) (hself : next root dot = some root)
    (hup : next root up = some root) (hleaf : ∀ l, ¬ (l = dot ∨ l = up) → next root l = none) :
    DotTree next dir S root dot up := by
  have hedge : ∀ {v l w}, S v → next v l = some w → v = root ∧ w = root ∧ (l = dot ∨ l = up) := by
    intro v l w hv hvw
    obtain rfl := (hS v).mp hv
    by_cases hl : l = dot ∨ l = up
    · refine ⟨rfl, ?_, hl⟩
      rcases hl with rfl | rfl
      · exact Option.some.inj (hvw.symm.trans hself)
      · exact Option.some.inj (hvw.symm.trans hup)
    · rw [hleaf l hl] at hvw
      contradiction
  have hno : ∀ {v l w}, S v → ¬ (l = dot ∨ l = up) → next v l ≠ some w :=
    fun hv hl hvw => hl (hedge hv hvw).2.2
  constructor
  case closed =>
    intro v l w hv hvw
    exact (hS w).mpr (hedge hv hvw).2.1
  case root_mem => exact (hS root).mpr rfl
  case root_dir => exact hdir
  case source =>
    intro v l w hv _
    rwa [(hS v).mp hv]
  case target =>
    intro v l w hv hvw
    rwa [(hedge hv hvw).2.1]
  case self =>
    intro v hv _
    rw [(hS v).mp hv, hself]
  case hasUp =>
    intro v hv _
    exact ⟨root, by rw [(hS v).mp hv, hup]⟩
  case up_root => exact hup
  case up_child => exact fun v l w hv hl hvw => absurd hvw (hno hv hl)
  case lt => exact fun v l w hv hl hvw => absurd hvw (hno hv hl)
  case inj => exact fun v l l' w hv hl _ hvw _ => absurd hvw (hno hv hl)
  case linked => exact fun w hw _ hne => absurd ((hS w).mp hw) hne

theorem insert_bare (h : DotTree next dir S root dot up)
    (hold : ∀ v l, S v → next' v l = next v l) (hnone : ∀ l, next' n l = none)
    (hdir : ∀ v, S v → (dir' v ↔ dir v)) (hbare : ¬ dir' n) :
    DotTree next' dir' (fun v => S v ∨ v = n) root dot up where
  closed := by
    -- The new node has no edges, and the old ones keep theirs.
    rintro v l w (hv | rfl) hvw
    · rw [hold v l hv] at hvw
      exact .inl (h.closed v l w hv hvw)
    · rw [hnone] at hvw
      contradiction
  root_mem := .inl h.root_mem
  root_dir := (hdir root h.root_mem).mpr h.root_dir
  source := by
    rintro v l w (hv | rfl) hvw
    · rw [hold v l hv] at hvw
      exact (hdir v hv).mpr (h.source v l w hv hvw)
    · rw [hnone] at hvw
      contradiction
  target := by
    rintro v l w (hv | rfl) hvw
    · rw [hold v l hv] at hvw
      exact (hdir w (h.closed v l w hv hvw)).mpr (h.target v l w hv hvw)
    · rw [hnone] at hvw
      contradiction
  self := by
    rintro v (hv | rfl) hvdir
    · rw [hold v dot hv]
      exact h.self v hv ((hdir v hv).mp hvdir)
    · exact absurd hvdir hbare
  hasUp := by
    rintro v (hv | rfl) hvdir
    · rw [hold v up hv]
      exact h.hasUp v hv ((hdir v hv).mp hvdir)
    · exact absurd hvdir hbare
  up_root := by rw [hold root up h.root_mem, h.up_root]
  up_child := by
    rintro v l w (hv | rfl) hl hvw
    · rw [hold v l hv] at hvw
      rw [hold w up (h.closed v l w hv hvw)]
      exact h.up_child v l w hv hl hvw
    · rw [hnone] at hvw
      contradiction
  lt := by
    rintro v l w (hv | rfl) hl hvw
    · rw [hold v l hv] at hvw
      exact h.lt v l w hv hl hvw
    · rw [hnone] at hvw
      contradiction
  inj := by
    rintro v l l' w (hv | rfl) hl hl' hvw hvw'
    · rw [hold v l hv] at hvw
      rw [hold v l' hv] at hvw'
      exact h.inj v l l' w hv hl hl' hvw hvw'
    · rw [hnone] at hvw
      contradiction
  linked := by
    rintro w (hw | rfl) hwdir hne
    · obtain ⟨v, l, hv, hl, hvw⟩ := h.linked w hw ((hdir w hw).mp hwdir) hne
      exact ⟨v, l, .inl hv, hl, by rw [hold v l hv, hvw]⟩
    · exact absurd hwdir hbare

/-- A new directory `n`, to which label `k` leads from `p`. -/
theorem insert_leaf (h : DotTree next dir S root dot up) (hlt : p < n) (hn : ¬ S n) (hp : S p)
    (hpdir : dir p) (hnew : next p k = none) (hlink : next' p k = some n)
    (hold : ∀ v l, S v → ¬ (v = p ∧ l = k) → next' v l = next v l) (hself : next' n dot = some n)
    (hup : next' n up = some p) (hnone : ∀ l, ¬ (l = dot ∨ l = up) → next' n l = none)
    (hdir : ∀ v, S v → (dir' v ↔ dir v)) (hndir : dir' n) :
    DotTree next' dir' (fun v => S v ∨ v = n) root dot up := by
  have hk := h.not_dot_of_none hp hpdir hnew
  -- an edge from an old node is an old one, or the new one
  have hcases : ∀ {v l w}, S v → next' v l = some w →
      (v = p ∧ l = k ∧ w = n) ∨ (next v l = some w ∧ S w ∧ w ≠ n) := by
    intro v l w hv hvw
    by_cases hnewEdge : v = p ∧ l = k
    · obtain ⟨rfl, rfl⟩ := hnewEdge
      rw [hlink, Option.some.injEq] at hvw
      exact .inl ⟨rfl, rfl, hvw.symm⟩
    · rw [hold v l hv hnewEdge] at hvw
      have hw := h.closed v l w hv hvw
      refine .inr ⟨hvw, hw, ?_⟩
      rintro rfl
      exact hn hw
  have hdots : ∀ v l, S v → l = dot ∨ l = up → next' v l = next v l := by
    intro v l hv hl
    apply hold v l hv
    rintro ⟨-, rfl⟩
    exact hk hl
  have hchild : ∀ {l w}, next' n l = some w → l = dot ∧ w = n ∨ l = up ∧ w = p := by
    intro l w hw
    by_cases hl : l = dot ∨ l = up
    · rcases hl with rfl | rfl
      · rw [hself, Option.some.injEq] at hw
        exact .inl ⟨rfl, hw.symm⟩
      · rw [hup, Option.some.injEq] at hw
        exact .inr ⟨rfl, hw.symm⟩
    · rw [hnone l hl] at hw
      contradiction
  have hleaf : ∀ {l w}, ¬ (l = dot ∨ l = up) → next' n l ≠ some w := by
    intro l w hl hw
    rw [hnone l hl] at hw
    contradiction
  constructor
  case closed =>
    rintro v l w (hv | rfl) hvw
    · rcases hcases hv hvw with ⟨-, -, rfl⟩ | ⟨-, hw, -⟩
      · exact .inr rfl
      · exact .inl hw
    · rcases hchild hvw with ⟨-, rfl⟩ | ⟨-, rfl⟩
      · exact .inr rfl
      · exact .inl hp
  case root_mem => exact .inl h.root_mem
  case root_dir => exact (hdir root h.root_mem).mpr h.root_dir
  case source =>
    rintro v l w (hv | rfl) hvw
    · rcases hcases hv hvw with ⟨rfl, -, -⟩ | ⟨hvw, -, -⟩
      · exact (hdir v hv).mpr hpdir
      · exact (hdir v hv).mpr (h.source v l w hv hvw)
    · exact hndir
  case target =>
    rintro v l w (hv | rfl) hvw
    · rcases hcases hv hvw with ⟨-, -, rfl⟩ | ⟨hvw, hw, -⟩
      · exact hndir
      · exact (hdir w hw).mpr (h.target v l w hv hvw)
    · rcases hchild hvw with ⟨-, rfl⟩ | ⟨-, rfl⟩
      · exact hndir
      · exact (hdir w hp).mpr hpdir
  case self =>
    rintro v (hv | rfl) hvdir
    · rw [hdots v dot hv (.inl rfl)]
      exact h.self v hv ((hdir v hv).mp hvdir)
    · exact hself
  case hasUp =>
    rintro v (hv | rfl) hvdir
    · rw [hdots v up hv (.inr rfl)]
      exact h.hasUp v hv ((hdir v hv).mp hvdir)
    · exact ⟨p, hup⟩
  case up_root => rw [hdots root up h.root_mem (.inr rfl), h.up_root]
  case up_child =>
    rintro v l w (hv | rfl) hl hvw
    · rcases hcases hv hvw with ⟨rfl, -, rfl⟩ | ⟨hvw, hw, -⟩
      · exact hup
      · rw [hdots w up hw (.inr rfl)]
        exact h.up_child v l w hv hl hvw
    · exact absurd hvw (hleaf hl)
  case lt =>
    rintro v l w (hv | rfl) hl hvw
    · rcases hcases hv hvw with ⟨rfl, -, rfl⟩ | ⟨hvw, -, -⟩
      · exact hlt
      · exact h.lt v l w hv hl hvw
    · exact absurd hvw (hleaf hl)
  case inj =>
    rintro v l l' w (hv | rfl) hl hl' hvw hvw'
    · rcases hcases hv hvw with ⟨-, rfl, rfl⟩ | ⟨hvw, -, hwn⟩
      · rcases hcases hv hvw' with ⟨-, rfl, -⟩ | ⟨-, -, hne⟩
        · rfl
        · exact absurd rfl hne
      · rcases hcases hv hvw' with ⟨-, -, rfl⟩ | ⟨hvw', -, -⟩
        · exact absurd rfl hwn
        · exact h.inj v l l' w hv hl hl' hvw hvw'
    · exact absurd hvw (hleaf hl)
  case linked =>
    rintro w (hw | rfl) hwdir hne
    · obtain ⟨v, l, hv, hl, hvw⟩ := h.linked w hw ((hdir w hw).mp hwdir) hne
      refine ⟨v, l, .inl hv, hl, ?_⟩
      rw [hold v l hv, hvw]
      rintro ⟨rfl, rfl⟩
      rw [hnew] at hvw
      contradiction
    · exact ⟨p, k, .inl hp, hk, hlink⟩

/-- A directory from which only the dot labels lead on has one edge into it from elsewhere. -/
theorem into_leaf (h : DotTree next dir S root dot up) (hp : S p) (hk : ¬ (k = dot ∨ k = up))
    (hlink : next p k = some n) (hleaf : ∀ l, ¬ (l = dot ∨ l = up) → next n l = none)
    (hv : S v) (hvn : v ≠ n) (hvw : next v l = some n) : v = p ∧ l = k := by
  have hvdir := h.source v l n hv hvw
  by_cases hl : l = dot ∨ l = up
  · rcases hl with rfl | rfl
    · rw [h.self v hv hvdir, Option.some.injEq] at hvw
      exact absurd hvw hvn
    · -- `v` would be a child of `n`
      have hv0 : v ≠ root := by
        rintro rfl
        rw [h.up_root, Option.some.injEq] at hvw
        exact hvn hvw
      obtain ⟨u, b, hu, hb, huv⟩ := h.linked v hv hvdir hv0
      rw [h.up_child u b v hu hb huv, Option.some.injEq] at hvw
      rw [hvw, hleaf b hb] at huv
      contradiction
  · have hvp := h.up_child v l n hv hl hvw
    rw [h.up_child p k n hp hk hlink, Option.some.injEq] at hvp
    subst hvp
    exact ⟨rfl, h.inj p l k n hp hl hk hvw hlink⟩

/-- Without its one edge, a directory from which only the dot labels lead on is out of the tree. -/
theorem erase_leaf (h : DotTree next dir S root dot up) (hp : S p) (hk : ¬ (k = dot ∨ k = up))
    (hlink : next p k = some n) (hleaf : ∀ l, ¬ (l = dot ∨ l = up) → next n l = none)
    (hgone : next' p k = none)
    (hold : ∀ v l, S v → ¬ (v = p ∧ l = k) → next' v l = next v l)
    (hdir : ∀ v, S v → (dir' v ↔ dir v)) :
    DotTree next' dir' (fun v => S v ∧ v ≠ n) root dot up := by
  have hroot := h.ne_root hp hk hlink
  -- an edge that is left was there before, and is not the one to `n`
  have hleft : ∀ {v l w}, S v → next' v l = some w → next v l = some w ∧ ¬ (v = p ∧ l = k) := by
    intro v l w hv hvw
    by_cases hcut : v = p ∧ l = k
    · obtain ⟨rfl, rfl⟩ := hcut
      rw [hgone] at hvw
      contradiction
    · rw [hold v l hv hcut] at hvw
      exact ⟨hvw, hcut⟩
  have hkeep : ∀ {v l w}, S v → w ≠ n → next v l = some w → next' v l = some w := by
    intro v l w hv hne hvw
    rw [hold v l hv, hvw]
    rintro ⟨rfl, rfl⟩
    rw [hlink, Option.some.injEq] at hvw
    exact hne hvw.symm
  have hinto : ∀ {v l}, S v → v ≠ n → next' v l ≠ some n := by
    intro v l hv hvn hvw
    obtain ⟨hvw, hcut⟩ := hleft hv hvw
    exact hcut (h.into_leaf hp hk hlink hleaf hv hvn hvw)
  constructor
  case closed =>
    rintro v l w ⟨hv, hvn⟩ hvw
    refine ⟨h.closed v l w hv (hleft hv hvw).1, ?_⟩
    rintro rfl
    exact hinto hv hvn hvw
  case root_mem => exact ⟨h.root_mem, hroot.symm⟩
  case root_dir => exact (hdir root h.root_mem).mpr h.root_dir
  case source =>
    rintro v l w ⟨hv, -⟩ hvw
    exact (hdir v hv).mpr (h.source v l w hv (hleft hv hvw).1)
  case target =>
    rintro v l w ⟨hv, -⟩ hvw
    have hvw := (hleft hv hvw).1
    exact (hdir w (h.closed v l w hv hvw)).mpr (h.target v l w hv hvw)
  case self =>
    rintro v ⟨hv, hvn⟩ hvdir
    exact hkeep hv hvn (h.self v hv ((hdir v hv).mp hvdir))
  case hasUp =>
    rintro v ⟨hv, hvn⟩ hvdir
    obtain ⟨u, hu⟩ := h.hasUp v hv ((hdir v hv).mp hvdir)
    refine ⟨u, ?_⟩
    rw [hold v up hv, hu]
    rintro ⟨-, rfl⟩
    exact hk (.inr rfl)
  case up_root => exact hkeep h.root_mem hroot.symm h.up_root
  case up_child =>
    rintro v l w ⟨hv, hvn⟩ hl hvw
    have hvw := (hleft hv hvw).1
    exact hkeep (h.closed v l w hv hvw) hvn (h.up_child v l w hv hl hvw)
  case lt =>
    rintro v l w ⟨hv, -⟩ hl hvw
    exact h.lt v l w hv hl (hleft hv hvw).1
  case inj =>
    rintro v l l' w ⟨hv, -⟩ hl hl' hvw hvw'
    exact h.inj v l l' w hv hl hl' (hleft hv hvw).1 (hleft hv hvw').1
  case linked =>
    rintro w ⟨hw, hwn⟩ hwdir hne
    obtain ⟨v, l, hv, hl, hvw⟩ := h.linked w hw ((hdir w hw).mp hwdir) hne
    refine ⟨v, l, ⟨hv, ?_⟩, hl, hkeep hv hwn hvw⟩
    rintro rfl
    rw [hleaf l hl] at hvw
    contradiction

end DotTree

end Walk
