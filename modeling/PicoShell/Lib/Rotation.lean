import PicoShell.Lib.Rounds

/-- Clients that take turns over slots: the client in front of the queue takes the slot that was
taken the longest time ago, from whoever has it, and goes to the back.  The owner of each slot, the
one that was taken last in front, and the clients that have no slot. -/
@[ext] structure Rota (α : Type*) where
  queue : List α
  slots : List (Option α)
  out : α → Prop

namespace Rota

variable {α : Type*} {r : Rota α} {p q : α} {queue : List α} {d i k : ℕ}

/-- The turn of the first client.  Whoever had the slot has none, if it has others or not. -/
def turn (r : Rota α) : Rota α :=
  match r.queue with
  | [] => r
  | p :: queue =>
    { queue := queue ++ [p]
      slots := some p :: r.slots.dropLast
      out := fun q => q ≠ p ∧ (r.out q ∨ r.slots.getLast? = some (some q)) }

/-- The slots were taken in the order of the queue, round after round. -/
def InRounds (r : Rota α) : Prop := Rounds (r.queue.reverse.map some) r.slots

/-- From position `d` of the queue on, clients are out, or will be at their turn: one of the slots
that are taken up to then is theirs. -/
def OutFrom (r : Rota α) (d : ℕ) : Prop :=
  ∀ i q, d ≤ i → r.queue[i]? = some q → r.out q ∨ some q ∈ r.slots.reverse.take i

/-- Every client will be out at its turn, for ever. -/
structure Locked (r : Rota α) : Prop where
  rounds : r.InRounds
  uneven : ¬ r.queue.length ∣ r.slots.length
  out : r.OutFrom 0

instance [DecidableEq α] : Decidable r.InRounds := inferInstanceAs (Decidable (Rounds _ _))

instance [DecidableEq α] [DecidablePred r.out] : Decidable (r.OutFrom d) :=
  decidable_of_iff (∀ i (h : i < r.queue.length), d ≤ i →
      r.out r.queue[i] ∨ some r.queue[i] ∈ r.slots.reverse.take i) <| by
    constructor
    · intro h i q hi hq
      obtain ⟨hlt, rfl⟩ := List.getElem?_eq_some_iff.mp hq
      exact h i hlt hi
    · intro h i hlt hi
      exact h i _ hi (List.getElem?_eq_getElem hlt)

instance [DecidableEq α] [DecidablePred r.out] : Decidable r.Locked :=
  decidable_of_iff (r.InRounds ∧ ¬ r.queue.length ∣ r.slots.length ∧ r.OutFrom 0)
    ⟨fun ⟨h₁, h₂, h₃⟩ => ⟨h₁, h₂, h₃⟩, fun ⟨h₁, h₂, h₃⟩ => ⟨h₁, h₂, h₃⟩⟩

theorem turn_cons (h : r.queue = p :: queue) : r.turn =
    { queue := queue ++ [p]
      slots := some p :: r.slots.dropLast
      out := fun q => q ≠ p ∧ (r.out q ∨ r.slots.getLast? = some (some q)) } := by
  rw [turn, h]

theorem length_turn_slots (h : r.queue = p :: queue) (hpos : r.slots ≠ []) :
    r.turn.slots.length = r.slots.length := by
  have := List.length_pos_iff.mpr hpos
  rw [turn_cons h, List.length_cons, List.length_dropLast]
  omega

theorem outFrom_length (r : Rota α) : r.OutFrom r.queue.length := by
  intro i q hi hq
  rw [List.getElem?_eq_none hi] at hq
  contradiction

theorem OutFrom.head (h : r.OutFrom 0) (hqueue : r.queue = p :: queue) : r.out p := by
  have hp := h 0 p (Nat.le_refl 0) (by rw [hqueue, List.getElem?_cons_zero])
  simpa using hp

theorem InRounds.turn (h : r.InRounds) (hqueue : r.queue = p :: queue) : r.turn.InRounds := by
  rw [InRounds, hqueue, List.reverse_cons, List.map_append] at h
  rw [turn_cons hqueue, InRounds, List.reverse_append, List.reverse_singleton,
    List.singleton_append, List.map_cons]
  exact h.rotate.of_isPrefix (List.cons_prefix_cons.mpr ⟨rfl, List.dropLast_prefix _⟩)

theorem InRounds.get (h : r.InRounds) (hk : k < r.slots.length) :
    (r.queue.reverse.map some)[k % r.queue.length]? = some r.slots[k] := by
  have hget := Rounds.get h (List.getElem?_eq_getElem hk)
  rwa [List.length_map, List.length_reverse] at hget

/-- If the rounds do not fill the slots evenly, one of the slots that the others take before its
next turn is that of the last client. -/
theorem InRounds.taken (h : r.InRounds) (hqueue : r.queue = queue ++ [p])
    (huneven : ¬ r.queue.length ∣ r.slots.length) : some p ∈ r.slots.reverse.take queue.length := by
  have hn : r.queue.length = queue.length + 1 := by simp [hqueue]
  have hpos : 0 < r.slots.length := Nat.pos_of_ne_zero fun hzero => huneven (by simp [hzero])
  have hsplit := Nat.div_add_mod r.slots.length r.queue.length
  have hmod := Nat.mod_lt r.slots.length (y := r.queue.length) (by omega)
  have hmore : r.slots.length % r.queue.length ≠ 0 := fun hzero =>
    huneven (Nat.dvd_of_mod_eq_zero hzero)
  -- the last slot that begins a round
  have hk : r.queue.length * (r.slots.length / r.queue.length) < r.slots.length := by omega
  have hfirst : (r.queue.reverse.map some)[0]? = some (some p) := by simp [hqueue]
  have hlast := h.get hk
  rw [Nat.mul_mod_right, hfirst, Option.some.injEq] at hlast
  rw [hlast, List.mem_take_iff_getElem]
  refine ⟨r.slots.length - 1 - r.queue.length * (r.slots.length / r.queue.length), ?_, ?_⟩
  · rw [List.length_reverse]
    omega
  · rw [List.getElem_reverse]
    congr 1
    omega

/-- If the rounds fill the slots evenly, the first client takes its own slot. -/
theorem InRounds.oldest (h : r.InRounds) (hqueue : r.queue = p :: queue) (hpos : r.slots ≠ [])
    (heven : r.queue.length ∣ r.slots.length) : r.slots.getLast? = some (some p) := by
  have hlen := List.length_pos_iff.mpr hpos
  have hget := h.get (k := r.slots.length - 1) (by omega)
  obtain ⟨n, hn⟩ := heven
  have hn' : r.slots.length - 1 = queue.length + r.queue.length * (n - 1) := by
    cases n with
    | zero => omega
    | succ n =>
      rw [hn, hqueue, List.length_cons, Nat.add_sub_cancel, Nat.mul_succ]
      omega
  have hmod : (r.slots.length - 1) % r.queue.length = queue.length := by
    rw [hn', Nat.add_mul_mod_self_left, Nat.mod_eq_of_lt]
    rw [hqueue, List.length_cons]
    omega
  have hlast : (r.queue.reverse.map some)[queue.length]? = some (some p) := by simp [hqueue]
  rw [hmod, hlast] at hget
  rw [List.getLast?_eq_getElem?, List.getElem?_eq_getElem (by omega), ← hget]

/-- A client that takes a slot of its own takes no other's. -/
theorem OutFrom.turn (h : r.OutFrom (d + 1)) (hrounds : r.InRounds) (hnodup : r.queue.Nodup)
    (hqueue : r.queue = p :: queue) (huneven : ¬ r.queue.length ∣ r.slots.length) :
    r.turn.OutFrom d := by
  have hne : r.slots ≠ [] := by
    rintro hnil
    simp [hnil] at huneven
  have hturn := turn_cons hqueue
  rw [hqueue] at hnodup
  intro i q hi hq
  have hq' : (queue ++ [p])[i]? = some q := by rwa [hturn] at hq
  by_cases hlt : i < queue.length
  · rw [List.getElem?_append_left hlt] at hq'
    have hqp : q ≠ p := by
      rintro rfl
      exact (List.nodup_cons.mp hnodup).1 (List.mem_of_getElem? hq')
    have hslots : r.slots.dropLast ++ [r.slots.getLast hne] = r.slots :=
      List.dropLast_append_getLast hne
    rcases h (i + 1) q (Nat.succ_le_succ hi) (by rwa [hqueue, List.getElem?_cons_succ]) with
      hout | htaken
    · rw [hturn]
      exact .inl ⟨hqp, .inl hout⟩
    · rw [← hslots, List.reverse_append, List.reverse_singleton, List.singleton_append,
        List.take_succ_cons] at htaken
      rw [hturn]
      rcases List.mem_cons.mp htaken with hlast | hlater
      · refine .inl ⟨hqp, .inr ?_⟩
        rw [List.getLast?_eq_some_getLast hne, hlast]
      · refine .inr ?_
        rw [List.reverse_cons]
        exact ((List.prefix_append _ _).take i).subset hlater
  · -- the client whose turn it was comes last
    have hi' : i = queue.length := by
      have := (List.getElem?_eq_some_iff.mp hq').1
      simp at this
      omega
    subst hi'
    obtain rfl : p = q := by simpa using hq'
    refine .inr ((hrounds.turn hqueue).taken (by rw [hturn]) ?_)
    rwa [length_turn_slots hqueue hne, hturn, List.length_append, List.length_singleton,
      ← List.length_cons (a := p), ← hqueue]

theorem Locked.turn (h : r.Locked) (hnodup : r.queue.Nodup) (hqueue : r.queue = p :: queue) :
    r.turn.Locked := by
  have hne : r.slots ≠ [] := by
    rintro hnil
    apply h.uneven
    simp [hnil]
  refine ⟨h.rounds.turn hqueue, ?_, ?_⟩
  · have := h.uneven
    rwa [length_turn_slots hqueue hne, turn_cons hqueue, List.length_append,
      List.length_singleton, ← List.length_cons (a := p), ← hqueue]
  · exact OutFrom.turn (fun i q _ => h.out i q (Nat.zero_le i)) h.rounds hnodup hqueue h.uneven

theorem Locked.queue_ne_nil (h : r.Locked) : r.queue ≠ [] := by
  intro hnil
  obtain ⟨n, hn⟩ := h.rounds
  apply h.uneven
  simp_all

/-- Clients that are in while a slot is theirs, and have one each, are only locked if there are more
of them than slots. -/
theorem Locked.length_lt (h : r.Locked) (hin : ∀ q ∈ r.queue, some q ∈ r.slots → ¬ r.out q)
    (hone : ∀ q ∈ r.queue, ∀ i j : ℕ, r.slots[i]? = some (some q) → r.slots[j]? = some (some q) →
      i = j) : r.slots.length < r.queue.length := by
  by_contra hle
  obtain ⟨queue, p, hqueue⟩ := (List.eq_nil_or_concat' r.queue).resolve_left h.queue_ne_nil
  have hp : p ∈ r.queue := by simp [hqueue]
  have hlen : r.queue.length = queue.length + 1 := by simp [hqueue]
  have hpos : 0 < r.slots.length := by omega
  -- the last client took the last slot
  have hfirst : r.slots[0]? = some (some p) := by
    have hget := h.rounds.get hpos
    rw [List.getElem?_eq_getElem hpos, ← hget, Nat.zero_mod]
    simp [hqueue]
  have hat : r.queue[queue.length]? = some p := by simp [hqueue]
  rcases h.out queue.length p (Nat.zero_le _) hat with hout | htaken
  · exact hin p hp (List.mem_of_getElem? hfirst) hout
  · obtain ⟨j, hj, hslot⟩ := List.mem_take_iff_getElem.mp htaken
    rw [List.length_reverse] at hj
    rw [List.getElem_reverse] at hslot
    have := hone p hp _ _ hfirst (List.getElem?_eq_some_iff.mpr ⟨_, hslot⟩)
    omega

/-- When the rounds fill the slots evenly, the clients in front of the queue get in one by one. -/
theorem inFrom_turn (h : ∀ q ∈ r.queue.drop (d + 1), ¬ r.out q) (hrounds : r.InRounds)
    (hqueue : r.queue = p :: queue) (hne : r.slots ≠ [])
    (heven : r.queue.length ∣ r.slots.length) : ∀ q ∈ r.turn.queue.drop d, ¬ r.turn.out q := by
  have holdest := hrounds.oldest hqueue hne heven
  rw [turn_cons hqueue]
  intro q hq ⟨hqp, hout⟩
  rw [holdest, Option.some.injEq, Option.some.injEq] at hout
  rcases hout with hout | rfl
  · apply h q _ hout
    rw [hqueue, List.drop_succ_cons]
    rcases List.mem_append.mp (List.drop_append ▸ hq) with hq | hq
    · exact hq
    · exact absurd (List.mem_singleton.mp (List.mem_of_mem_drop hq)) hqp
  · exact hqp rfl

end Rota
