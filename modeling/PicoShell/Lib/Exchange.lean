import Mathlib.Order.Lattice

/-! Every position is compared with all later ones, and the two elements are exchanged if they
are in the wrong order. -/

namespace Exchange

variable {α β : Type*} [LinearOrder β] (key : α → β)

/-- Puts the elements at two positions in order, if both are there. -/
def exchange (l : List α) (ij : ℕ × ℕ) : List α :=
  match l[ij.1]?, l[ij.2]? with
  | some x, some y => if key y < key x then (l.set ij.1 y).set ij.2 x else l
  | _, _ => l

/-- The positions below `n`, each with itself and the later ones. -/
def pairs (n : ℕ) : List (ℕ × ℕ) :=
  (List.range n).flatMap fun i => (List.range' i (n - i)).map fun j => (i, j)

/-- Position `a` has at most what position `b` has. -/
def AtMost (l : List α) (a b : ℕ) : Prop :=
  ∀ x y, l[a]? = some x → l[b]? = some y → key x ≤ key y

/-- The first `i` positions have their final elements. -/
def Settled (l : List α) (i : ℕ) : Prop := ∀ a < i, ∀ b, a ≤ b → AtMost key l a b

variable {key} {l : List α} {i j n : ℕ}

theorem exchange_cases (key : α → β) (l : List α) (i j : ℕ) :
    (exchange key l (i, j) = l ∧ AtMost key l i j) ∨
    ∃ x y, l[i]? = some x ∧ l[j]? = some y ∧ key y < key x ∧
      exchange key l (i, j) = (l.set i y).set j x := by
  unfold exchange AtMost
  cases hi : l[i]? with
  | none => exact .inl ⟨rfl, by simp⟩
  | some x =>
    cases hj : l[j]? with
    | none => exact .inl ⟨rfl, by simp⟩
    | some y =>
      simp only
      split_ifs with hlt
      · exact .inr ⟨x, y, rfl, rfl, hlt, rfl⟩
      · refine .inl ⟨rfl, fun x' y' hx hy => ?_⟩
        rw [← Option.some.inj hx, ← Option.some.inj hy]
        exact not_lt.mp hlt

/-- What is at each position after the two elements were exchanged. -/
theorem getElem?_set_set {x y : α} (hi : l[i]? = some x) (hj : l[j]? = some y) (b : ℕ) :
    ((l.set i y).set j x)[b]? = if b = j then some x else if b = i then some y else l[b]? := by
  obtain ⟨hi, -⟩ := List.getElem?_eq_some_iff.mp hi
  obtain ⟨hj, -⟩ := List.getElem?_eq_some_iff.mp hj
  rw [List.getElem?_set, List.getElem?_set, List.length_set, if_pos hj, if_pos hi]
  simp only [eq_comm]

/-- One comparison with position `i`, the first one that is not settled. -/
theorem Settled.exchange (h : Settled key l i) (hij : i ≤ j)
    (hleast : ∀ b, i ≤ b → b < j → AtMost key l i b) :
    Settled key (exchange key l (i, j)) i ∧
      ∀ b, i ≤ b → b < j + 1 → AtMost key (Exchange.exchange key l (i, j)) i b := by
  rcases exchange_cases key l i j with ⟨heq, hle⟩ | ⟨x, y, hi, hj, hlt, heq⟩
  · rw [heq]
    refine ⟨h, fun b hib hbj => ?_⟩
    rcases Nat.lt_succ_iff_lt_or_eq.mp hbj with hbj | rfl
    · exact hleast b hib hbj
    · exact hle
  have hne : i ≠ j := by
    rintro rfl
    rw [hi] at hj
    exact hlt.ne (congrArg key (Option.some.inj hj).symm)
  have hget := getElem?_set_set hi hj
  rw [heq]
  constructor
  · intro a ha b hab u v hu hv
    rw [hget, if_neg (by omega), if_neg (by omega)] at hu
    rw [hget] at hv
    split_ifs at hv with hbj hbi
    · exact h a ha i (Nat.le_of_lt ha) u v hu (hi.trans hv)
    · exact h a ha j (by omega) u v hu (hj.trans hv)
    · exact h a ha b hab u v hu hv
  · intro b hib hbj u v hu hv
    rw [hget, if_neg hne, if_pos rfl, Option.some.injEq] at hu
    rw [hget] at hv
    subst hu
    split_ifs at hv with hbj' hbi
    · rw [← Option.some.inj hv]
      exact hlt.le
    · rw [Option.some.inj hv]
    · exact hlt.le.trans (hleast b hib (by omega) x v hi hv)

/-- The comparisons with position `i` settle it. -/
theorem Settled.pass (h : Settled key l i) (m : ℕ) :
    Settled key (((List.range' i m).map fun j => (i, j)).foldl (Exchange.exchange key) l) i ∧
      ∀ b, i ≤ b → b < i + m → AtMost key
        (((List.range' i m).map fun j => (i, j)).foldl (Exchange.exchange key) l) i b := by
  induction m with
  | zero => exact ⟨h, fun b hib hb => by omega⟩
  | succ m ih =>
    rw [List.range'_1_concat, List.map_append, List.foldl_append]
    exact ih.1.exchange (Nat.le_add_right i m) ih.2

theorem perm_exchange (key : α → β) (l : List α) (ij : ℕ × ℕ) : (exchange key l ij).Perm l := by
  obtain ⟨i, j⟩ := ij
  rcases exchange_cases key l i j with ⟨heq, -⟩ | ⟨x, y, hx, hy, -, heq⟩
  · rw [heq]
  · obtain ⟨hi, rfl⟩ := List.getElem?_eq_some_iff.mp hx
    obtain ⟨hj, rfl⟩ := List.getElem?_eq_some_iff.mp hy
    rw [heq]
    exact List.set_set_perm hi hj

theorem perm_foldl_exchange (key : α → β) (l : List α) (ijs : List (ℕ × ℕ)) :
    (ijs.foldl (exchange key) l).Perm l := by
  induction ijs generalizing l with
  | nil => exact .refl l
  | cons ij ijs ih => exact (ih _).trans (perm_exchange key l ij)

theorem length_foldl_exchange (key : α → β) (l : List α) (ijs : List (ℕ × ℕ)) :
    (ijs.foldl (exchange key) l).length = l.length := (perm_foldl_exchange key l ijs).length_eq

theorem settled_pairs (key : α → β) (l : List α) (hn : l.length ≤ n) (hi : i ≤ n) :
    Settled key (((List.range i).flatMap fun i =>
      (List.range' i (n - i)).map fun j => (i, j)).foldl (exchange key) l) i := by
  induction i with
  | zero => exact fun a ha => absurd ha (Nat.not_lt_zero a)
  | succ i ih =>
    rw [List.range_succ, List.flatMap_append, List.foldl_append, List.flatMap_singleton]
    obtain ⟨hbefore, hleast⟩ := (ih (by omega)).pass (n - i)
    intro a ha b hab
    rcases Nat.lt_succ_iff_lt_or_eq.mp ha with ha | rfl
    · exact hbefore a ha b hab
    · by_cases hb : b < a + (n - a)
      · exact hleast b hab hb
      · -- there is nothing behind the end
        intro u v _ hv
        obtain ⟨hlt, -⟩ := List.getElem?_eq_some_iff.mp hv
        rw [length_foldl_exchange, length_foldl_exchange] at hlt
        omega

theorem sorted (key : α → β) (l : List α) (hn : l.length ≤ n) :
    ((pairs n).foldl (exchange key) l).Pairwise fun x y => key x ≤ key y := by
  have hsettled : Settled key ((pairs n).foldl (exchange key) l) n := settled_pairs key l hn (Nat.le_refl n)
  apply List.pairwise_iff_getElem.mpr
  intro a b ha hb hab
  rw [length_foldl_exchange] at ha
  exact hsettled a (Nat.lt_of_lt_of_le ha hn) b (Nat.le_of_lt hab) _ _ (List.getElem?_eq_getElem _)
    (List.getElem?_eq_getElem _)

theorem le_of_mem_pairs {ij : ℕ × ℕ} (h : ij ∈ pairs n) : ij.1 ≤ ij.2 := by
  obtain ⟨i, -, hij⟩ := List.mem_flatMap.mp h
  obtain ⟨j, hj, rfl⟩ := List.mem_map.mp hij
  exact (List.mem_range'_1.mp hj).1

/-- The first element stays where it is if it is one of the least. -/
theorem head_exchange {x : α} (hx : l[0]? = some x) (hleast : ∀ y ∈ l, key x ≤ key y)
    (hij : i ≤ j) : (exchange key l (i, j))[0]? = some x := by
  rcases exchange_cases key l i j with ⟨heq, -⟩ | ⟨u, v, hu, hv, hlt, heq⟩
  · rwa [heq]
  · have hi : i ≠ 0 := by
      rintro rfl
      rw [hx] at hu
      rw [← Option.some.inj hu] at hlt
      exact hlt.not_ge (hleast v (List.mem_of_getElem? hv))
    rw [heq, getElem?_set_set hu hv, if_neg (by omega), if_neg (Ne.symm hi)]
    exact hx

theorem head_foldl {x : α} {ijs : List (ℕ × ℕ)} (hx : l[0]? = some x)
    (hleast : ∀ y ∈ l, key x ≤ key y) (hijs : ∀ ij ∈ ijs, ij.1 ≤ ij.2) :
    (ijs.foldl (exchange key) l)[0]? = some x := by
  induction ijs generalizing l with
  | nil => exact hx
  | cons ij ijs ih =>
    apply ih (head_exchange hx hleast (hijs ij List.mem_cons_self))
    · intro y hy
      exact hleast y ((perm_exchange key l ij).mem_iff.mp hy)
    · intro ij' hij'
      exact hijs ij' (List.mem_cons_of_mem ij hij')

/-- The first element comes first if it is one of the least. -/
theorem head_foldl_pairs {x : α} (hleast : ∀ y ∈ l, key x ≤ key y) (n : ℕ) :
    ((pairs n).foldl (exchange key) (x :: l))[0]? = some x := by
  apply head_foldl rfl
  · intro y hy
    rcases List.mem_cons.mp hy with rfl | hy
    · exact le_refl _
    · exact hleast y hy
  · exact fun ij => le_of_mem_pairs

/-- Elements with the same key are in the same order in both lists. -/
def SameTies (key : α → β) (l l' : List α) : Prop :=
  ∀ k, l'.filter (fun x => key x = k) = l.filter fun x => key x = k

theorem exchange_self (key : α → β) (l : List α) (i : ℕ) : exchange key l (i, i) = l := by
  rcases exchange_cases key l i i with ⟨heq, -⟩ | ⟨x, y, hx, hy, hlt, -⟩
  · exact heq
  · rw [hx] at hy
    exact absurd (congrArg key (Option.some.inj hy).symm) hlt.ne

theorem foldl_pairs_one (key : α → β) (x : α) : (pairs 3).foldl (exchange key) [x] = [x] :=
  List.perm_singleton.mp (perm_foldl_exchange key [x] (pairs 3))

theorem foldl_pairs_two (key : α → β) (x y : α) :
    (pairs 3).foldl (exchange key) [x, y] = if key y < key x then [y, x] else [x, y] := by
  have h01 : exchange key [x, y] (0, 1) = if key y < key x then [y, x] else [x, y] := rfl
  have hpairs : pairs 3 = [(0, 0), (0, 1), (0, 2), (1, 1), (1, 2), (2, 2)] := rfl
  have hout : ∀ (a b : α) (i : ℕ), exchange key [a, b] (i, 2) = [a, b] := by
    intro a b i
    rcases exchange_cases key [a, b] i 2 with ⟨heq, -⟩ | ⟨u, v, -, hv, -, -⟩
    · exact heq
    · contradiction
  simp only [hpairs, List.foldl_cons, List.foldl_nil, exchange_self, h01]
  split_ifs
  · simp only [hout]
  · simp only [hout]

theorem foldl_pairs_three (key : α → β) (x y z : α) :
    (pairs 3).foldl (exchange key) [x, y, z] =
      if key y < key x then
        if key z < key y then [z, y, x] else if key z < key x then [y, z, x] else [y, x, z]
      else if key z < key x then
        if key x < key y then [z, x, y] else [z, y, x]
      else if key z < key y then [x, z, y] else [x, y, z] := by
  have hpairs : pairs 3 = [(0, 0), (0, 1), (0, 2), (1, 1), (1, 2), (2, 2)] := rfl
  have h01 : ∀ a b c, exchange key [a, b, c] (0, 1) =
      if key b < key a then [b, a, c] else [a, b, c] := fun _ _ _ => rfl
  have h02 : ∀ a b c, exchange key [a, b, c] (0, 2) =
      if key c < key a then [c, b, a] else [a, b, c] := fun _ _ _ => rfl
  have h12 : ∀ a b c, exchange key [a, b, c] (1, 2) =
      if key c < key b then [a, c, b] else [a, b, c] := fun _ _ _ => rfl
  simp only [hpairs, List.foldl_cons, List.foldl_nil, exchange_self, h01]
  split_ifs with hyx hzy hzx hzx hxy hzy
  · simp only [h02, if_pos hzy, h12, if_pos hyx]
  · simp only [h02, if_neg hzy, h12, if_pos hzx]
  · simp only [h02, if_neg hzy, h12, if_neg hzx]
  · simp only [h02, if_pos hzx, h12, if_pos hxy]
  · simp only [h02, if_pos hzx, h12, if_neg hxy]
  · simp only [h02, if_neg hzx, h12, if_pos hzy]
  · simp only [h02, if_neg hzx, h12, if_neg hzy]

theorem sameTies_of_lt {x y : α} (l : List α) (h : key y < key x) :
    SameTies key (x :: y :: l) (y :: x :: l) := by
  intro k
  by_cases hx : key x = k
  · have hy : key y ≠ k := fun hy => h.ne (hy.trans hx.symm)
    simp [hx, hy]
  · simp [List.filter_cons, hx]

theorem SameTies.cons {l l' : List α} (x : α) (h : SameTies key l l') :
    SameTies key (x :: l) (x :: l') := by
  intro k
  simp only [List.filter_cons]
  rw [h k]

theorem SameTies.trans {l₁ l₂ l₃ : List α} (h : SameTies key l₁ l₂) (h' : SameTies key l₂ l₃) :
    SameTies key l₁ l₃ := fun k => (h' k).trans (h k)

/-- Three elements keep the order of their ties, unless the first two are equal and the third one
is less. -/
theorem sameTies_three (key : α → β) (x y z : α) :
    SameTies key [x, y, z] ((pairs 3).foldl (exchange key) [x, y, z]) ↔
      (x ≠ y → key x = key y → key y ≤ key z) := by
  have hxy : key y < key x → SameTies key [x, y, z] [y, x, z] := sameTies_of_lt [z]
  have hxz : key z < key x → SameTies key [y, x, z] [y, z, x] := fun h => (sameTies_of_lt [] h).cons y
  have hyz : key z < key y → SameTies key [y, z, x] [z, y, x] := sameTies_of_lt [x]
  have hyz' : key z < key y → SameTies key [x, y, z] [x, z, y] := fun h => (sameTies_of_lt [] h).cons x
  have hxz' : key z < key x → SameTies key [x, z, y] [z, x, y] := sameTies_of_lt [y]
  rw [foldl_pairs_three]
  split_ifs with h₁ h₂ h₃ h₄ h₅ h₆
  · exact iff_of_true (((hxy h₁).trans (hxz (h₂.trans h₁))).trans (hyz h₂))
      fun _ heq => absurd heq h₁.ne'
  · exact iff_of_true ((hxy h₁).trans (hxz h₃)) fun _ heq => absurd heq h₁.ne'
  · exact iff_of_true (hxy h₁) fun _ heq => absurd heq h₁.ne'
  · exact iff_of_true ((hyz' (h₄.trans h₅)).trans (hxz' h₄)) fun _ heq => absurd heq h₅.ne
  · -- the first two are equal, and were exchanged with the third one between them
    have heq : key x = key y := le_antisymm (not_lt.mp h₁) (not_lt.mp h₅)
    constructor
    · intro hties hne _
      have hfilter := hties (key x)
      simp only [List.filter_cons, List.filter_nil, heq, (heq ▸ h₄).ne, decide_true, decide_false,
        if_true, Bool.false_eq_true, if_false] at hfilter
      exact absurd (List.head_eq_of_cons_eq hfilter).symm hne
    · intro hle
      by_cases hne : x = y
      · subst hne
        exact (hyz' h₄).trans (hxz' h₄)
      · exact absurd (hle hne heq) (heq ▸ h₄).not_ge
  · exact iff_of_true (hyz' h₆) fun _ heq => absurd (heq ▸ h₆) h₄
  · exact iff_of_true (fun _ => rfl) fun _ _ => not_lt.mp h₆

/-- At most three elements. -/
theorem sameTies_iff (key : α → β) (h : l.length ≤ 3) :
    SameTies key l ((pairs 3).foldl (exchange key) l) ↔
      ∀ x y z, l = [x, y, z] → x ≠ y → key x = key y → key y ≤ key z := by
  match l, h with
  | [], _ => exact iff_of_true (fun _ => rfl) (by simp)
  | [x], _ =>
    rw [foldl_pairs_one]
    exact iff_of_true (fun _ => rfl) (by simp)
  | [x, y], _ =>
    rw [foldl_pairs_two]
    split_ifs with hlt
    · exact iff_of_true (sameTies_of_lt [] hlt) (by simp)
    · exact iff_of_true (fun _ => rfl) (by simp)
  | [x, y, z], _ =>
    rw [sameTies_three]
    constructor
    · intro hxyz a b c hl
      obtain ⟨rfl, rfl, rfl⟩ : x = a ∧ y = b ∧ z = c := by simpa using hl
      exact hxyz
    · intro hall
      exact hall x y z rfl

end Exchange
