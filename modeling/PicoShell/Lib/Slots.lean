import Mathlib.Algebra.Order.BigOperators.Group.Finset
import Mathlib.Data.Finset.Option

/-! A fixed number of slots that are free or hold a key with its value: a partial map as long as
there is room for its keys. -/

abbrev Slots (ι K V : Type*) := ι → Option (K × V)

namespace Slots

variable {ι K V : Type*} {t : Slots ι K V} {i : ι} {k k' : K} {v w : V}

def Unique (t : Slots ι K V) : Prop :=
  ∀ i j k v w, t i = some (k, v) → t j = some (k, w) → i = j

def Holds (t : Slots ι K V) (k : K) (v : V) : Prop := ∃ i, t i = some (k, v)

/-- The slot has the key, or is free while no slot has it. -/
def Open (t : Slots ι K V) (i : ι) (k : K) : Prop :=
  (∃ v, t i = some (k, v)) ∨ (t i = none ∧ ∀ v, ¬ t.Holds k v)

theorem Unique.value (h : t.Unique) (hv : t.Holds k v) (hw : t.Holds k w) : v = w := by
  obtain ⟨i, hi⟩ := hv
  obtain ⟨j, hj⟩ := hw
  have hij := h i j k v w hi hj
  rw [hij, hj] at hi
  exact (congrArg Prod.snd (Option.some.inj hi)).symm

theorem Open.ne (h : t.Unique) (hopen : t.Open i k) {j : ι} (hj : j ≠ i) : t j ≠ some (k, v) := by
  intro hjk
  rcases hopen with ⟨w, hi⟩ | ⟨-, hnew⟩
  · exact hj (h j i k v w hjk hi)
  · exact hnew v ⟨j, hjk⟩

section Put

variable [DecidableEq ι]

def put (t : Slots ι K V) (i : ι) (k : K) (v : V) : Slots ι K V :=
  Function.update t i (some (k, v))

@[simp] theorem put_self (t : Slots ι K V) (i : ι) (k : K) (v : V) : t.put i k v i = some (k, v) :=
  Function.update_self i _ t

theorem put_of_ne {j : ι} (hj : j ≠ i) : t.put i k v j = t j := Function.update_of_ne hj _ t

/-- The key gets the value, and the other keys keep theirs. -/
theorem holds_put [DecidableEq K] (h : t.Unique) (hopen : t.Open i k) :
    (t.put i k v).Holds k' w ↔ if k' = k then w = v else t.Holds k' w := by
  split_ifs with hk
  · subst hk
    constructor
    · intro ⟨j, hj⟩
      by_cases hji : j = i
      · rw [hji, put_self] at hj
        exact (congrArg Prod.snd (Option.some.inj hj)).symm
      · rw [put_of_ne hji] at hj
        exact absurd hj (hopen.ne h hji)
    · intro hw
      exact ⟨i, by rw [put_self, hw]⟩
  · apply exists_congr
    intro j
    by_cases hji : j = i
    · rw [hji, put_self]
      constructor
      · intro hj
        exact absurd (congrArg Prod.fst (Option.some.inj hj)).symm hk
      · intro hj
        rcases hopen with ⟨u, hi⟩ | ⟨hfree, -⟩
        · rw [hi] at hj
          exact absurd (congrArg Prod.fst (Option.some.inj hj)).symm hk
        · rw [hfree] at hj
          contradiction
    · rw [put_of_ne hji]

theorem put_cases {a : ι} (h : t.put i k v a = some (k', w)) :
    (a = i ∧ k' = k) ∨ (a ≠ i ∧ t a = some (k', w)) := by
  by_cases ha : a = i
  · rw [ha, put_self] at h
    exact .inl ⟨ha, (congrArg Prod.fst (Option.some.inj h)).symm⟩
  · rw [put_of_ne ha] at h
    exact .inr ⟨ha, h⟩

theorem Unique.put (h : t.Unique) (hopen : t.Open i k) : (t.put i k v).Unique := by
  intro a b x u w ha hb
  rcases put_cases ha with ⟨hai, hx⟩ | ⟨hai, ha⟩
  · rcases put_cases hb with ⟨hbi, -⟩ | ⟨hbi, hb⟩
    · rw [hai, hbi]
    · rw [hx] at hb
      exact absurd hb (hopen.ne h hbi)
  · rcases put_cases hb with ⟨-, hx⟩ | ⟨-, hb⟩
    · rw [hx] at ha
      exact absurd ha (hopen.ne h hai)
    · exact h a b x u w ha hb

end Put

variable [Fintype ι] [DecidableEq K]

def keys (t : Slots ι K V) : Finset K := Finset.univ.biUnion fun i => ((t i).map Prod.fst).toFinset

theorem mem_keys : k ∈ t.keys ↔ ∃ v, t.Holds k v := by
  simp only [keys, Finset.mem_biUnion, Finset.mem_univ, true_and, Option.mem_toFinset,
    Option.mem_def, Option.map_eq_some_iff, Prod.exists, Holds]
  constructor
  · intro ⟨i, x, v, hi, hx⟩
    exact ⟨v, i, by rw [hi, hx]⟩
  · intro ⟨v, i, hi⟩
    exact ⟨i, k, v, hi, rfl⟩

theorem card_keys_le (t : Slots ι K V) : t.keys.card ≤ Fintype.card ι := by
  have hle : ∀ i ∈ Finset.univ, ((t i).map Prod.fst).toFinset.card ≤ 1 := by
    intro i _
    cases (t i).map Prod.fst with
    | none => exact Nat.zero_le 1
    | some k => exact Nat.le_refl 1
  have := Finset.card_biUnion_le_card_mul Finset.univ _ 1 hle
  rwa [Finset.card_univ, Nat.mul_one] at this

theorem exists_free (h : t.Unique) (hlt : t.keys.card < Fintype.card ι) : ∃ i, t i = none := by
  by_contra hfull
  have hentry : ∀ i, ∃ e, t i = some e := by
    intro i
    apply Option.ne_none_iff_exists'.mp
    intro hnone
    exact hfull ⟨i, hnone⟩
  choose entry hentry using hentry
  have hle : (Finset.univ : Finset ι).card ≤ t.keys.card := by
    apply Finset.card_le_card_of_injOn fun i => (entry i).1
    · intro i _
      exact mem_keys.mpr ⟨(entry i).2, i, hentry i⟩
    · intro i _ j _ hij
      have hij : (entry i).1 = (entry j).1 := hij
      exact h i j (entry i).1 (entry i).2 (entry j).2 (hentry i) (by rw [hij, hentry j])
  rw [Finset.card_univ] at hle
  omega

end Slots
