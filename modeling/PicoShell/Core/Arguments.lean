import PicoShell.Core.Words

namespace PicoShell.Core

open Fields

variable {St : Type} {line : Line} {seg : List UInt8}

/-- Whatever the interpreter does, as long as it returns, the line is parsed to its end without a
store out of bounds. -/
def StoresInBounds (line : Line) : Prop :=
  ∀ (St : Type) (interpreter : List (List UInt8) → St → ℤ × St) (errorCode : ℤ) (st : St),
    ∃ r, parseInput (fun words st => .ok (interpreter words st)) errorCode line.bytes st = .ok r

theorem interpretAll_total (interpreter : List (List UInt8) → St → ℤ × St)
    (calls : List (List (List UInt8))) (errorCode : ℤ) (st : St) :
    ∃ r, interpretAll (fun words st => .ok (interpreter words st)) calls errorCode st = .ok r := by
  induction calls generalizing errorCode st with
  | nil => exact ⟨_, rfl⟩
  | cons words calls ih => exact ih _ _

theorem notMem_letters {c : UInt8} (hc : c ≠ 97) (n : ℕ) : c ∉ List.replicate n (97 : UInt8) :=
  fun h => hc (List.eq_of_mem_replicate h)

def longWord : Line where
  bytes := List.replicate 200 97
  noZero := notMem_letters (by decide) 200
  short := by
    rw [List.length_replicate]
    decide
  newlineLast h := notMem_letters (by decide) 200 ((List.dropLast_sublist _).subset h)

/-- The interpreter is called with the runs of characters other than blanks of one command after
the other. -/
def InterpretsRuns (line : Line) : Prop :=
  ∀ (St : Type) (interpreter : List (List UInt8) → St → Exec (ℤ × St)) (errorCode : ℤ) (st : St),
    parseInput interpreter errorCode line.bytes st =
      interpretAll interpreter (line.segments.map fun seg => runs space (text seg)) errorCode st

/-- At most as many commands and words as the arrays have places, and words that fit. -/
structure Line.Moderate (line : Line) : Prop where
  commands : line.segments.length ≤ maxNumCommands
  words : ∀ seg ∈ line.segments, (runs space (text seg)).length ≤ wordsSize
  letters : ∀ seg ∈ line.segments, ∀ w ∈ runs space (text seg), w.length < tmpSize

/-- Without two blanks in a row behind the first word, the fields of a command are its runs. -/
theorem fields_body_eq_iff (seg : List UInt8) :
    fields space (body seg) = runs space (text seg) ↔ ¬ [space, space] <:+: body seg := by
  rw [← runs_body, fields_eq_runs_iff]
  exact and_iff_right (head_body seg)

def record (words : List (List UInt8)) (log : List (List (List UInt8))) :
    ℤ × List (List (List UInt8)) := (0, log ++ [words])

theorem interpretAll_record (calls log : List (List (List UInt8))) (errorCode : ℤ) :
    ∃ code, interpretAll (fun words log => .ok (record words log)) calls errorCode log =
      .ok (code, log ++ calls) := by
  induction calls generalizing log errorCode with
  | nil => exact ⟨errorCode, by rw [List.append_nil]; rfl⟩
  | cons words calls ih =>
    obtain ⟨code, hrun⟩ := ih (log ++ [words]) 0
    refine ⟨code, ?_⟩
    rw [List.append_assoc] at hrun
    exact hrun

/-- The interpreter gets the words of a moderate line just when no command has two blanks in a row
behind its first word. -/
theorem interprets_runs_iff (h : line.Moderate) : InterpretsRuns line ↔
    ∀ seg ∈ line.segments, ¬ [space, space] <:+: body seg := by
  have htake : line.segments.take maxNumCommands = line.segments :=
    List.take_of_length_le h.commands
  constructor
  · intro hruns seg hseg
    have hrecord := hruns _ (fun words log => .ok (record words log)) 0 []
    obtain ⟨code, hcalls⟩ := interpretAll_record
      (line.segments.map fun seg => runs space (text seg)) [] 0
    rw [hcalls] at hrecord
    by_cases hfits : line.Fits
    · obtain ⟨code', hfields⟩ := interpretAll_record
        (line.segments.map fun seg => fields space (body seg)) [] 0
      rw [Line.parseInput_of_fits _ hfits, htake, hfields] at hrecord
      have hmaps := (Exec.ok_inj hrecord).2
      rw [List.nil_append, List.nil_append] at hmaps
      exact (fields_body_eq_iff seg).mp (List.map_inj_left.mp hmaps seg hseg)
    · rw [Line.parseInput_of_not_fits record hfits] at hrecord
      contradiction
  · intro hsingle St interpreter errorCode st
    have hwords := fun seg hseg => (fields_body_eq_iff seg).mpr (hsingle seg hseg)
    have hfits : line.Fits := by
      intro seg hseg
      rw [htake] at hseg
      refine ⟨h.letters seg hseg, ?_⟩
      rw [← length_fields_body, hwords seg hseg]
      exact h.words seg hseg
    rw [Line.parseInput_of_fits _ hfits, htake]
    congr 1
    exact List.map_congr_left hwords

/-- ` a b;c` with a newline. -/
def twoWords : Line where
  bytes := [32, 97, 32, 98, 59, 99, 10]
  noZero := by decide
  short := by decide
  newlineLast := by decide

/-- `a b;c  d` with a newline. -/
def innerBlanks : Line where
  bytes := [97, 32, 98, 59, 99, 32, 32, 100, 10]
  noZero := by decide
  short := by decide
  newlineLast := by decide

theorem interprets_runs_twoWords : InterpretsRuns twoWords ∧ ¬ InterpretsRuns innerBlanks := by
  constructor
  · rw [interprets_runs_iff ⟨by decide, by decide, by decide⟩]
    decide
  · rw [interprets_runs_iff ⟨by decide, by decide, by decide⟩]
    decide

/-- `echo  a` with a newline. -/
def twoBlanks : Line where
  bytes := [101, 99, 104, 111, 32, 32, 97, 10]
  noZero := by decide
  short := by decide
  newlineLast := by decide

/-- The second blank makes an empty word between the command and its argument. -/
theorem twoBlanks_empty_word : twoBlanks.Moderate ∧
    parseInput (fun words log => .ok (record words log)) 0 twoBlanks.bytes [] =
      .ok (0, [[[101, 99, 104, 111], [], [97]]]) ∧ ¬ InterpretsRuns twoBlanks := by
  have hrun : parseInput (fun words log => .ok (record words log)) 0 twoBlanks.bytes [] =
      .ok (0, [[[101, 99, 104, 111], [], [97]]]) := by rfl
  refine ⟨⟨by decide, by decide, by decide⟩, hrun, ?_⟩
  intro h
  have hrecord := h _ (fun words log => .ok (record words log)) 0 []
  obtain ⟨code, hcalls⟩ := interpretAll_record
    (twoBlanks.segments.map fun seg => runs space (text seg)) [] 0
  rw [hrun, hcalls] at hrecord
  exact absurd (Exec.ok_inj hrecord).2 (by decide)

end PicoShell.Core
