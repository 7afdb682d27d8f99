import PicoShell.Core.Words

namespace PicoShell.Core

open Fields

variable {St : Type} {interpreter : List (List UInt8) → St → Exec (ℤ × St)}
  {commands : List (List UInt8)} {inp : List UInt8} {errorCode code : ℤ} {st st' : St}
  {codes codes' : List ℤ}

/-- The interpreter, with the codes it has returned so far beside its state. -/
def traced (interpreter : List (List UInt8) → St → Exec (ℤ × St)) (words : List (List UInt8))
    (st : St × List ℤ) : Exec (ℤ × (St × List ℤ)) := do
  let (code, st') ← interpreter words st.1
  return (code, (st', st.2 ++ [code]))

/-- The commands add their codes to the record, and the last one is returned, or what was there. -/
theorem runCommands_codes
    (h : runCommands (traced interpreter) commands errorCode (st, codes) = .ok (code, st', codes')) :
    ∃ new, codes' = codes ++ new ∧ new.length = commands.length ∧ ∀ garbage,
      runCommands (traced interpreter) commands garbage (st, codes) =
        .ok (new.getLastD garbage, st', codes') := by
  induction commands generalizing errorCode st codes with
  | nil =>
    obtain ⟨-, hst⟩ := Exec.ok_inj h
    obtain ⟨rfl, rfl⟩ := Prod.mk.inj hst
    exact ⟨[], (List.append_nil _).symm, rfl, fun _ => rfl⟩
  | cons cmd commands ih =>
    rw [runCommands] at h
    obtain ⟨words, hwords, h⟩ := Exec.bind_ok h
    obtain ⟨⟨c, st₁, codes₁⟩, htraced, h⟩ := Exec.bind_ok h
    obtain ⟨⟨c', st₂⟩, hrun, hres⟩ := Exec.bind_ok htraced
    obtain ⟨rfl, hst⟩ := Exec.ok_inj hres
    obtain ⟨rfl, rfl⟩ := Prod.mk.inj hst
    obtain ⟨new, hcodes, hlen, hall⟩ := ih h
    refine ⟨c' :: new, ?_, by rw [List.length_cons, List.length_cons, hlen], ?_⟩
    · rw [hcodes, List.append_assoc]
      rfl
    · intro garbage
      rw [runCommands, hwords]
      simp only [bind, Except.bind, htraced]
      rw [hall c', List.getLastD_cons]

def HasCommand (inp : List UInt8) : Prop := ∃ c ∈ inp, c ≠ semicolon

theorem commands_eq_nil_iff (inp : List UInt8) :
    (runs semicolon inp).take maxNumCommands = [] ↔ ¬ HasCommand inp := by
  rw [List.take_eq_nil_iff, or_iff_right (by decide), runs_eq_nil_iff]
  constructor
  · rintro hall ⟨c, hc, hne⟩
    exact hne (hall c hc)
  · intro hno c hc
    by_contra hne
    exact hno ⟨c, hc, hne⟩

theorem readCommands_line (inp : List UInt8) :
    readCommands maxNumCommands inp [] = .ok ((runs semicolon inp).take maxNumCommands) :=
  readCommands_eq (by simp)

/-- Without a command the uninitialised variable is returned. -/
theorem parseInput_of_not_hasCommand (interpreter : List (List UInt8) → St → Exec (ℤ × St))
    (errorCode : ℤ) (st : St) (h : ¬ HasCommand inp) :
    parseInput interpreter errorCode inp st = .ok (errorCode, st) := by
  rw [parseInput, readCommands_line, (commands_eq_nil_iff inp).mpr h]
  rfl

/-- What a call of `parseInput` returns and records: a code for each command it reads. -/
theorem parseInput_codes
    (h : parseInput (traced interpreter) errorCode inp (st, codes) = .ok (code, st', codes')) :
    ∃ new, codes' = codes ++ new ∧ (new ≠ [] ↔ HasCommand inp) ∧ ∀ garbage,
      parseInput (traced interpreter) garbage inp (st, codes) =
        .ok (new.getLastD garbage, st', codes') := by
  have hparse : ∀ garbage, parseInput (traced interpreter) garbage inp (st, codes) =
      runCommands (traced interpreter) ((runs semicolon inp).take maxNumCommands) garbage
        (st, codes) := by
    intro garbage
    rw [parseInput, readCommands_line]
    rfl
  rw [hparse] at h
  obtain ⟨new, hcodes, hlen, hall⟩ := runCommands_codes h
  refine ⟨new, hcodes, ?_, fun garbage => (hparse garbage).trans (hall garbage)⟩
  have hnil : new = [] ↔ (runs semicolon inp).take maxNumCommands = [] := by
    rw [← List.length_eq_zero_iff, hlen, List.length_eq_zero_iff]
  rw [ne_eq, hnil, commands_eq_nil_iff, not_not]

/-- A recorded code hides what was in the variable before. -/
theorem getLastD_of_ne_nil {new : List ℤ} (hne : new ≠ []) (garbage garbage' : ℤ) :
    new.getLastD garbage = new.getLastD garbage' := by
  rw [List.getLastD_eq_getLast?, List.getLastD_eq_getLast?, List.getLast?_eq_some_getLast hne]
  rfl

/-- The returned code is the one of the last command interpreted during the call, or `0`, whatever
the uninitialised variable holds. -/
def CodeOfLine (interpreter : List (List UInt8) → St → Exec (ℤ × St)) (inp : List UInt8)
    (st : St) : Prop :=
  ∀ errorCode code st' codes,
    parseInput (traced interpreter) errorCode inp (st, []) = .ok (code, st', codes) →
      code = codes.getLastD 0 ∧
        ∀ garbage, parseInput (traced interpreter) garbage inp (st, []) = .ok (code, st', codes)

theorem codeOfLine_iff (interpreter : List (List UInt8) → St → Exec (ℤ × St)) (inp : List UInt8)
    (st : St) : CodeOfLine interpreter inp st ↔ HasCommand inp := by
  constructor
  · intro h
    by_contra hno
    have hone := (h 1 1 st [] (parseInput_of_not_hasCommand _ 1 _ hno)).1
    contradiction
  · intro hhas errorCode code st' codes hrun
    obtain ⟨new, hcodes, hnew, hall⟩ := parseInput_codes hrun
    have hne := hnew.mpr hhas
    have hcode := (Exec.ok_unique hrun (hall errorCode)).1
    rw [List.nil_append] at hcodes
    constructor
    · rw [hcode, hcodes, getLastD_of_ne_nil hne]
    · intro garbage
      rw [hall garbage, hcode, getLastD_of_ne_nil hne]

/-- What `main` does with a line that it has read: `none` is the exit with code `99`. -/
def mainLine (interpreter : List (List UInt8) → St → Exec (ℤ × St)) (garbage : ℤ)
    (userInput : List UInt8) (st : St) : Exec (Option St) := do
  let (errorCode, st) ← parseInput interpreter garbage userInput st
  if errorCode = -1 then return none else return some st

/-- The shell goes on or exits, whatever the uninitialised variable of the call holds. -/
def ExitOfLine (interpreter : List (List UInt8) → St → Exec (ℤ × St)) (inp : List UInt8)
    (st : St) : Prop :=
  ∀ garbage garbage', mainLine interpreter garbage inp st = mainLine interpreter garbage' inp st

theorem exitOfLine_iff (interpreter : List (List UInt8) → St → Exec (ℤ × St)) (inp : List UInt8)
    (st : St) : ExitOfLine interpreter inp st ↔ HasCommand inp := by
  constructor
  · intro h
    by_contra hno
    have hexit := h (-1) 0
    rw [mainLine, mainLine, parseInput_of_not_hasCommand _ _ _ hno,
      parseInput_of_not_hasCommand _ _ _ hno] at hexit
    cases hexit
  · intro hhas garbage garbage'
    suffices parseInput interpreter garbage inp st = parseInput interpreter garbage' inp st by
      rw [mainLine, mainLine, this]
    rw [parseInput, parseInput, readCommands_line]
    -- the first command overwrites the variable
    cases hruns : (runs semicolon inp).take maxNumCommands with
    | nil => exact absurd hhas ((commands_eq_nil_iff inp).mp hruns)
    | cons cmd commands => rfl

end PicoShell.Core
