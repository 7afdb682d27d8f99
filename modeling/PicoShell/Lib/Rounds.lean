import Mathlib.Data.List.Rotate

/-! Clients that are served one after the other, again and again in one order, while some of
them leave. -/

variable {α : Type*} {S w a b d Q : List α} {p x : α} {k : ℕ}

/-- `w` goes through `S` again and again, from its first element on. -/
def Rounds (S w : List α) : Prop := ∃ n, w <+: (List.replicate n S).flatten

namespace Rounds

theorem start (S : List α) : Rounds S S := ⟨1, by simp⟩

theorem of_prefix (h : Rounds S (w ++ d)) : Rounds S w := by
  obtain ⟨n, hn⟩ := h
  exact ⟨n, (List.prefix_append w d).trans hn⟩

theorem of_isPrefix (h : Rounds S w) (hp : a <+: w) : Rounds S a := by
  obtain ⟨d, rfl⟩ := hp
  exact h.of_prefix

theorem rotate (h : Rounds (S ++ [p]) w) : Rounds (p :: S) (p :: w) := by
  obtain ⟨n, hn⟩ := h
  have hshift : p :: (List.replicate n (S ++ [p])).flatten =
      (List.replicate n (p :: S)).flatten ++ [p] := by
    clear hn
    induction n with
    | zero => rfl
    | succ n ih =>
      rw [List.replicate_succ, List.flatten_cons, List.replicate_succ, List.flatten_cons,
        List.append_assoc, List.singleton_append, ih]
      simp
  refine ⟨n + 1, (List.cons_prefix_cons.mpr ⟨rfl, hn⟩).trans ?_⟩
  rw [hshift, List.replicate_succ', List.flatten_append]
  exact (List.prefix_append_right_inj _).mpr ⟨S, by simp⟩

theorem replicate_isPrefix {k n : ℕ} (h : k ≤ n) :
    (List.replicate k S).flatten <+: (List.replicate n S).flatten := by
  refine ⟨(List.replicate (n - k) S).flatten, ?_⟩
  rw [← List.flatten_append, List.replicate_append_replicate, Nat.add_sub_cancel' h]

theorem iff_isPrefix : Rounds S w ↔ w <+: (List.replicate w.length S).flatten := by
  refine ⟨fun ⟨n, hn⟩ => ?_, fun h => ⟨_, h⟩⟩
  cases S with
  | nil => simpa using hn
  | cons x S =>
    -- as many rounds as elements are enough
    apply List.prefix_of_prefix_length_le (hn.trans (replicate_isPrefix (Nat.le_add_right n _)))
      (replicate_isPrefix (Nat.le_add_left _ n))
    simp only [List.length_flatten, List.map_replicate, List.sum_replicate_nat, List.length_cons]
    exact Nat.le_mul_of_pos_right _ (Nat.succ_pos _)

instance [DecidableEq α] : Decidable (Rounds S w) := decidable_of_iff _ iff_isPrefix.symm

theorem filter (h : Rounds S w) (f : α → Bool) : Rounds (S.filter f) (w.filter f) := by
  obtain ⟨n, hn⟩ := h
  refine ⟨n, ?_⟩
  have hfilter := hn.filter f
  rwa [List.filter_flatten, List.map_replicate] at hfilter

/-- Once everybody else had a turn the first one comes again. -/
theorem append (h : Rounds S (w ++ p :: Q)) (hlen : (p :: Q).length = S.length) :
    Rounds S (w ++ p :: Q ++ [p]) := by
  obtain ⟨n, hn⟩ := h
  have hnext : S ++ (w ++ p :: Q) <+: (List.replicate (n + 1) S).flatten := by
    rw [List.replicate_succ, List.flatten_cons]
    exact (List.prefix_append_right_inj S).mpr hn
  have hsame : w ++ p :: Q <+: (List.replicate (n + 1) S).flatten := by
    apply hn.trans
    rw [List.replicate_succ', List.flatten_append]
    exact List.prefix_append _ _
  -- a round later the same is served
  obtain ⟨t, ht⟩ := List.prefix_of_prefix_length_le hsame hnext (by simp)
  have hround : S ++ w ++ p :: Q = w ++ p :: Q ++ t := by
    rw [List.append_assoc, ← ht]
  obtain ⟨-, rfl⟩ := List.append_inj hround (by simp [hlen, Nat.add_comm])
  refine ⟨n + 1, List.IsPrefix.trans ?_ hnext⟩
  rw [← List.append_assoc, hround]
  exact ⟨Q, by simp⟩

theorem get (h : Rounds S w) (hk : w[k]? = some x) : S[k % S.length]? = some x := by
  obtain ⟨n, hn⟩ := h
  obtain ⟨t, ht⟩ := hn
  have hlt := (List.getElem?_eq_some_iff.mp hk).1
  have hx : (List.replicate n S).flatten[k]? = some x := by
    rw [← ht, List.getElem?_append_left hlt, hk]
  clear ht hlt hk
  induction n generalizing k with
  | zero => simp at hx
  | succ n ih =>
    rw [List.replicate_succ, List.flatten_cons] at hx
    by_cases hfirst : k < S.length
    · rw [List.getElem?_append_left hfirst] at hx
      rwa [Nat.mod_eq_of_lt hfirst]
    · rw [List.getElem?_append_right (Nat.le_of_not_lt hfirst)] at hx
      rw [Nat.mod_eq_sub_mod (Nat.le_of_not_lt hfirst)]
      exact ih hx

theorem get_from (h : Rounds S (a ++ w)) (hk : w[k]? = some x) :
    S[(k + a.length) % S.length]? = some x := by
  apply h.get
  rw [List.getElem?_append_right (Nat.le_add_left _ _), Nat.add_sub_cancel, hk]

/-- Two turns of `p` are one round apart. -/
theorem period (h : Rounds S (a ++ p :: (b ++ p :: d))) (hS : S.Nodup) (hb : p ∉ b) :
    b.length + 1 = S.length := by
  have hfirst : S[(0 + a.length) % S.length]? = some p := h.get_from rfl
  have hlast : S[(b.length + 1 + a.length) % S.length]? = some p := h.get_from (by simp)
  have hpos : 0 < S.length := Nat.pos_of_ne_zero fun hzero => by
    rw [List.length_eq_zero_iff.mp hzero] at hfirst
    simp at hfirst
  -- both turns are at the place of `p` in the round
  have hround : S.length ∣ b.length + 1 := by
    have hmod := (List.getElem?_inj (Nat.mod_lt _ hpos) hS).mp (hfirst.trans hlast.symm)
    have := Nat.dvd_of_mod_eq_zero (Nat.sub_mod_eq_zero_of_mod_eq hmod.symm)
    rwa [Nat.add_sub_add_right, Nat.sub_zero] at this
  have hle := Nat.le_of_dvd (Nat.succ_pos _) hround
  by_contra hne
  -- otherwise `p` would be served a round after its first turn
  have hlt : S.length - 1 < b.length := by omega
  have hserved : S[(S.length + a.length) % S.length]? = some b[S.length - 1] := by
    apply h.get_from
    rw [List.getElem?_cons, if_neg hpos.ne', List.getElem?_append_left hlt]
    exact List.getElem?_eq_getElem hlt
  rw [Nat.add_mod_left, ← Nat.zero_add a.length, hfirst, Option.some.injEq] at hserved
  exact hb (hserved ▸ List.getElem_mem hlt)

/-- Between two turns of `p` everybody else is served once, in the order of the round. -/
theorem isRotated (h : Rounds S (a ++ p :: (b ++ p :: d))) (hS : S.Nodup) (hb : p ∉ b) :
    (p :: b).IsRotated S := by
  have hlen : (p :: b).length = S.length := h.period hS hb
  refine List.IsRotated.symm ⟨a.length, ?_⟩
  apply List.ext_getElem?
  intro k
  by_cases hk : k < S.length
  · have hx := List.getElem?_eq_getElem (hlen ▸ hk)
    rw [List.getElem?_rotate hk, hx]
    apply h.get_from
    rw [← List.cons_append, List.getElem?_append_left (hlen ▸ hk), hx]
  · have hk' := Nat.le_of_not_lt hk
    rw [List.getElem?_eq_none (by rwa [List.length_rotate]), List.getElem?_eq_none (by rwa [hlen])]

/-- Nobody else needs to be looked at. -/
theorem isRotated_filter {f : α → Bool} (h : Rounds S ((a ++ p :: (b ++ p :: d)).filter f))
    (hS : S.Nodup) (hp : f p = true) (hb : p ∉ b) : (p :: b.filter f).IsRotated S := by
  rw [List.filter_append, List.filter_cons_of_pos hp, List.filter_append,
    List.filter_cons_of_pos hp] at h
  exact h.isRotated hS fun hmem => hb (List.mem_of_mem_filter hmem)

end Rounds
