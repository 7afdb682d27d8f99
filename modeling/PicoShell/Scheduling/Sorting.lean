import PicoShell.Scheduling.Paging

namespace PicoShell.Scheduling

variable {s : Sizes} {L W : Type} {m : Machine s L W}

namespace Machine

variable (m : Machine s L W)

/-- From head to tail the job scores do not decrease. -/
def InOrder (queue : List ℕ) : Prop :=
  queue.Pairwise fun p q => (m.pcbs p).jobScore ≤ (m.pcbs q).jobScore

theorem sortReadyQueue_pcbs : m.sortReadyQueue.pcbs = m.pcbs := by
  rw [sortReadyQueue_exchange]

/-- Sorting sorts exactly when the processes that did not fit in the array are in order, and come
before those that did. -/
theorem sortReadyQueue_inOrder_iff : m.sortReadyQueue.InOrder m.sortReadyQueue.queue ↔
    m.InOrder (m.queue.drop maxNumPrograms) ∧
      ∀ p ∈ m.queue.drop maxNumPrograms, ∀ q ∈ m.queue.take maxNumPrograms,
        (m.pcbs p).jobScore ≤ (m.pcbs q).jobScore := by
  have hsorted := Exchange.sorted (fun q => (m.pcbs q).jobScore) (m.queue.take maxNumPrograms)
    (List.length_take_le maxNumPrograms m.queue)
  have hperm := Exchange.perm_foldl_exchange (fun q => (m.pcbs q).jobScore)
    (m.queue.take maxNumPrograms) (Exchange.pairs maxNumPrograms)
  unfold InOrder
  rw [sortReadyQueue_pcbs, sortReadyQueue_exchange, List.pairwise_append]
  constructor
  · intro ⟨hrest, _, hle⟩
    exact ⟨hrest, fun p hp q hq => hle p hp q (hperm.mem_iff.mpr hq)⟩
  · intro ⟨hrest, hle⟩
    exact ⟨hrest, hsorted, fun p hp q hq => hle p hp q (hperm.mem_iff.mp hq)⟩

/-- Processes with the same job score are in the same order in both queues. -/
def KeepsTies (queue queue' : List ℕ) : Prop :=
  ∀ score, queue'.filter (fun q => (m.pcbs q).jobScore = score) =
    queue.filter fun q => (m.pcbs q).jobScore = score

/-- Sorting keeps ties in order, unless the first two of three processes are tied and the third
one has a lower score. -/
theorem sortReadyQueue_keepsTies_iff (h : m.queue.length ≤ maxNumPrograms) :
    m.KeepsTies m.queue m.sortReadyQueue.queue ↔
      ∀ p q r, m.queue = [p, q, r] → p ≠ q → (m.pcbs p).jobScore = (m.pcbs q).jobScore →
        (m.pcbs q).jobScore ≤ (m.pcbs r).jobScore := by
  have hqueue : m.sortReadyQueue.queue = (Exchange.pairs maxNumPrograms).foldl
      (Exchange.exchange fun q => (m.pcbs q).jobScore) m.queue := by
    rw [sortReadyQueue_exchange, List.drop_eq_nil_of_le h, List.take_of_length_le h,
      List.nil_append]
  rw [hqueue]
  exact Exchange.sameTies_iff (fun q => (m.pcbs q).jobScore) h

end Machine

/-- Programs of one line, but `d` has two, and there is no `x`. -/
def longLast (script : String) : Option (List ℕ) :=
  if script = "x" then none else if script = "d" then some [1, 2] else some [1]

/-- A call that found no file has left its first process in the queue: it is the longest one of the
next call that does not fit in the array, and stays first. -/
theorem sortReadyQueue_four : ∃ m₁ m₂ : Machine oneFrame ℕ Unit,
    buildReadyQueue (Env.upward oneFrame ℕ fun _ => none) longLast [some "a", some "x"]
      (booted oneFrame) = .ok (badcommandFileDoesNotExist, m₁) ∧
    buildReadyQueue (Env.upward oneFrame ℕ fun _ => none) longLast [some "b", some "c", some "d"]
      m₁ = .ok (0, m₂) ∧
    ¬ m₂.sortReadyQueue.InOrder m₂.sortReadyQueue.queue := by
  have hrun : ((buildReadyQueue (Env.upward oneFrame ℕ fun _ => none) longLast
      [some "a", some "x"] (booted oneFrame)).toOption.any fun r₁ =>
        r₁.1 = badcommandFileDoesNotExist ∧
        (buildReadyQueue (Env.upward oneFrame ℕ fun _ => none) longLast
          [some "b", some "c", some "d"] r₁.2).toOption.any fun r₂ => r₂.1 = 0 ∧
            r₂.2.sortReadyQueue.queue = [4, 1, 2, 3] ∧
            (r₂.2.sortReadyQueue.pcbs 1).jobScore < (r₂.2.sortReadyQueue.pcbs 4).jobScore) =
      true := by
    decide +kernel
  obtain ⟨⟨code₁, m₁⟩, hr₁, rfl, hrest⟩ := Exec.exists_of_any hrun
  obtain ⟨⟨code₂, m₂⟩, hr₂, rfl, hqueue, hlt⟩ := Exec.exists_of_any hrest
  refine ⟨m₁, m₂, hr₁, hr₂, ?_⟩
  intro horder
  rw [hqueue] at horder
  have hle := (List.pairwise_cons.mp horder).1 1 (by simp)
  exact absurd hlt (not_lt.mpr hle)

def shortLast (script : String) : Option (List ℕ) :=
  if script = "c" then some [1] else some [1, 2]

/-- Of the two long programs the second one comes before the first one. -/
theorem sortReadyQueue_swaps_ties : ∃ m₁ : Machine oneFrame ℕ Unit,
    buildReadyQueue (Env.upward oneFrame ℕ fun _ => none) shortLast
      [some "a", some "b", some "c"] (booted oneFrame) = .ok (0, m₁) ∧
    m₁.queue.length ≤ maxNumPrograms ∧ ¬ m₁.KeepsTies m₁.queue m₁.sortReadyQueue.queue := by
  have hrun : ((buildReadyQueue (Env.upward oneFrame ℕ fun _ => none) shortLast
      [some "a", some "b", some "c"] (booted oneFrame)).toOption.any fun r => r.1 = 0 ∧
        r.2.queue = [1, 2, 3] ∧ r.2.sortReadyQueue.queue = [3, 2, 1] ∧
        ((r.2.pcbs 1).jobScore, (r.2.pcbs 2).jobScore, (r.2.pcbs 3).jobScore) = (2, 2, 1)) =
      true := by
    decide +kernel
  obtain ⟨⟨code, m₁⟩, hr, rfl, hqueue, hsorted, hscores⟩ := Exec.exists_of_any hrun
  simp only [Prod.mk.injEq] at hqueue hsorted hscores
  obtain ⟨h1, h2, h3⟩ := hscores
  refine ⟨m₁, hr, by simp [hqueue], fun hkeeps => ?_⟩
  have hties := hkeeps 2
  simp [hqueue, hsorted, h1, h2, h3] at hties

/-- Two programs that are tied. -/
theorem sortReadyQueue_keepsTies_pair : ∃ m₁ : Machine oneFrame ℕ Unit,
    buildReadyQueue (Env.upward oneFrame ℕ fun _ => none) twoLines [some "a", some "b"]
      (booted oneFrame) = .ok (0, m₁) ∧ m₁.queue = [1, 2] ∧
    m₁.KeepsTies m₁.queue m₁.sortReadyQueue.queue := by
  have hrun : ((buildReadyQueue (Env.upward oneFrame ℕ fun _ => none) twoLines
      [some "a", some "b"] (booted oneFrame)).toOption.any fun r => r.1 = 0 ∧
        r.2.queue = [1, 2]) = true := by
    decide +kernel
  obtain ⟨⟨code, m₁⟩, hr, rfl, hqueue⟩ := Exec.exists_of_any hrun
  have hqueue : m₁.queue = [1, 2] := hqueue
  refine ⟨m₁, hr, hqueue, ?_⟩
  apply (m₁.sortReadyQueue_keepsTies_iff (by simp [hqueue])).mpr
  intro p q r hthree
  simp [hqueue] at hthree

end PicoShell.Scheduling
