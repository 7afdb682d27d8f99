import PicoShell.Core.Shell

namespace PicoShell.Core

open Fields

variable {α : Type} {size n ix fuel : ℕ} {inp cmd seg nl w : List UInt8}
  {tmp : List UInt8} {words commands : List (List UInt8)}

theorem store_of_lt {xs : List α} (x : α) (h : xs.length < size) :
    store size xs x = .ok (xs ++ [x]) := if_pos h

theorem store_of_le {xs : List α} (x : α) (h : size ≤ xs.length) :
    store size xs x = .error .index := if_neg (Nat.not_lt.mpr h)

/-- `strtok` yields the runs between semicolons one by one. -/
theorem strtok_cases (inp : List UInt8) : (runs semicolon inp = [] ∧ strtok inp = none) ∨
    ∃ cmd rest, runs semicolon inp = cmd :: runs semicolon rest ∧ strtok inp = some (cmd, rest) := by
  rw [← runs_dropWhile semicolon inp, strtok]
  cases hs : inp.dropWhile (· == semicolon) with
  | nil => exact .inl ⟨runs_nil, rfl⟩
  | cons c s =>
    have hne : inp.dropWhile (· == semicolon) ≠ [] := by simp [hs]
    have hhead : (c :: s).head? ≠ some semicolon := by
      have := List.head_dropWhile_not (· == semicolon) hne
      simpa [hs] using this
    exact .inr ⟨_, _, runs_of_head (List.cons_ne_nil c s) hhead, rfl⟩

theorem readCommands_eq (h : commands.length + n ≤ commandsSize) :
    readCommands n inp commands = .ok (commands ++ (runs semicolon inp).take n) := by
  induction n generalizing inp commands with
  | zero => rw [readCommands, List.take_zero, List.append_nil]
  | succ n ih =>
    rw [readCommands]
    rcases strtok_cases inp with ⟨hnil, htok⟩ | ⟨cmd, rest, hcons, htok⟩
    · rw [htok, hnil, List.take_nil, List.append_nil]
    · rw [htok, hcons, List.take_succ_cons]
      simp only [store_of_lt cmd (show commands.length < commandsSize by omega), bind, Except.bind]
      rw [ih (by rw [List.length_append, List.length_singleton]; omega), List.append_assoc]
      rfl

def text (seg : List UInt8) : List UInt8 := seg.takeWhile (· != newline)

/-- A newline, if there is one, ends the string. -/
def NewlineLast (seg : List UInt8) : Prop := newline ∉ seg.dropLast

instance (seg : List UInt8) : Decidable (NewlineLast seg) := inferInstanceAs (Decidable (_ ∉ _))

theorem newline_notMem_text (seg : List UInt8) : newline ∉ text seg := by
  intro hmem
  have := List.mem_takeWhile_imp hmem
  simp at this

theorem text_of_notMem (h : newline ∉ seg) : text seg = seg := by
  rw [text, List.takeWhile_eq_self_iff]
  intro c hc
  have hne : c ≠ newline := fun heq => h (heq ▸ hc)
  simpa using hne

theorem NewlineLast.eq_append (h : NewlineLast seg) :
    ∃ nl, seg = text seg ++ nl ∧ (nl = [] ∨ nl = [newline]) := by
  refine ⟨seg.dropWhile (· != newline), List.takeWhile_append_dropWhile.symm, ?_⟩
  have hsplit := List.takeWhile_append_dropWhile (p := (· != newline)) (l := seg)
  cases hrest : seg.dropWhile (· != newline) with
  | nil => exact .inl rfl
  | cons c rest =>
    have hc : c = newline := by
      have := List.head_dropWhile_not (· != newline) (l := seg)
        (by rw [hrest]; exact List.cons_ne_nil _ _)
      simpa [hrest] using this
    cases rest with
    | nil => exact .inr (by rw [hc])
    | cons d rest =>
      refine absurd ?_ h
      rw [← hsplit, hrest, hc, List.dropLast_append_of_ne_nil (List.cons_ne_nil _ _),
        List.dropLast_cons_of_ne_nil (List.cons_ne_nil _ _)]
      simp

theorem skipSpaces_eq (h : ix + cmd.length ≤ maxUserInput) :
    (skipSpaces cmd ix).1 = cmd.dropWhile (· == space) ∧
      (skipSpaces cmd ix).2 + (skipSpaces cmd ix).1.length = ix + cmd.length := by
  induction cmd generalizing ix with
  | nil => exact ⟨rfl, rfl⟩
  | cons c cmd ih =>
    rw [List.length_cons] at h
    rw [skipSpaces]
    by_cases hc : c = space
    · obtain ⟨hcmd, hix⟩ := ih (show ix + 1 + cmd.length ≤ maxUserInput by omega)
      rw [if_pos ⟨hc, by omega⟩, List.dropWhile_cons_of_pos (by simpa using hc), hcmd]
      refine ⟨rfl, ?_⟩
      rw [← hcmd, hix, List.length_cons]
      omega
    · rw [if_neg fun h => hc h.1, List.dropWhile_cons_of_neg (by simpa using hc)]
      exact ⟨rfl, rfl⟩

/-- The copy stops behind the word, or at the end of `tmp`. -/
theorem copyWord_append (hw : ∀ c ∈ w, wordEnding (some c) = false)
    (hend : ∀ c ∈ cmd.head?, wordEnding (some c) = true) (hix : ix + w.length ≤ maxUserInput)
    (htmp : tmp.length ≤ tmpSize) : copyWord (w ++ cmd) ix tmp =
      if tmp.length + w.length ≤ tmpSize then .ok (cmd, ix + w.length, tmp ++ w)
      else .error .index := by
  induction w generalizing ix tmp with
  | nil =>
    rw [List.nil_append, List.append_nil, List.length_nil, if_pos (by omega)]
    cases cmd with
    | nil => rfl
    | cons c cmd =>
      have hc := hend c rfl
      rw [copyWord, hc, if_neg fun h => by simp at h]
      rfl
  | cons c w ih =>
    rw [List.length_cons] at hix
    have hc := hw c List.mem_cons_self
    rw [List.cons_append, copyWord, if_pos ⟨hc, by omega⟩, List.length_cons]
    by_cases hfull : tmp.length < tmpSize
    · simp only [store_of_lt c hfull, bind, Except.bind]
      rw [ih (fun d hd => hw d (List.mem_cons_of_mem c hd)) (by omega)
        (by rw [List.length_append, List.length_singleton]; omega), List.length_append,
        List.length_singleton, List.append_assoc, List.singleton_append]
      have hlen : tmp.length + 1 + w.length = tmp.length + (w.length + 1) := by omega
      have hidx : ix + 1 + w.length = ix + (w.length + 1) := by omega
      rw [hlen, hidx]
    · simp only [store_of_le c (Nat.not_lt.mp hfull), bind, Except.bind]
      rw [if_neg (by omega)]

theorem readWords_round (hw : ∀ c ∈ w, wordEnding (some c) = false)
    (hend : ∀ c ∈ cmd.head?, wordEnding (some c) = true) (hne : w ++ cmd ≠ [])
    (hhead : (w ++ cmd).head? ≠ some newline) (hix : ix + w.length ≤ maxUserInput)
    (hlt : ix < maxUserInput) : readWords (fuel + 1) (w ++ cmd) ix words =
      if w.length < tmpSize ∧ words.length < wordsSize then
        match cmd with
        | [] => .ok (words ++ [w])
        | _ :: cmd => readWords fuel cmd (ix + w.length + 1) (words ++ [w])
      else .error .index := by
  rw [readWords, if_neg (by simp only [hhead, hne, false_or]; omega),
    copyWord_append hw hend hix (Nat.zero_le _), List.length_nil, List.nil_append, Nat.zero_add]
  by_cases hlong : w.length < tmpSize
  · rw [if_pos (by omega)]
    simp only [store_of_lt 0 hlong, bind, Except.bind]
    by_cases hfull : words.length < wordsSize
    · simp only [store_of_lt w hfull, if_pos (And.intro hlong hfull)]
      cases cmd with
      | nil => rfl
      | cons c cmd => rfl
    · simp only [store_of_le w (Nat.not_lt.mp hfull)]
      rw [if_neg fun h => hfull h.2]
  · rw [if_neg (fun h : w.length < tmpSize ∧ words.length < wordsSize => hlong h.1)]
    by_cases h200 : w.length ≤ tmpSize
    · rw [if_pos h200]
      simp only [store_of_le (0 : UInt8) (Nat.not_lt.mp hlong), bind, Except.bind]
    · rw [if_neg h200]
      rfl

theorem readWords_end (hnl : nl = [] ∨ nl = [newline]) (ix : ℕ) (words : List (List UInt8)) :
    readWords (fuel + 1) nl ix words = .ok words := by
  rw [readWords]
  rcases hnl with rfl | rfl
  · exact if_pos (.inr (.inl rfl))
  · exact if_pos (.inl rfl)

theorem wordEnding_of_mem (hs : space ∉ w) (hn : newline ∉ w) :
    ∀ c ∈ w, wordEnding (some c) = false := by
  intro c hc
  have hcs : c ≠ space := fun h => hs (h ▸ hc)
  have hcn : c ≠ newline := fun h => hn (h ▸ hc)
  simp [wordEnding, hcs, hcn]

/-- The words are the fields between single blanks, as long as they fit the arrays. -/
theorem readWords_eq (hnl : nl = [] ∨ nl = [newline]) (t : List UInt8) (ht : newline ∉ t)
    (hix : ix + t.length + nl.length ≤ maxUserInput) (hfuel : t.length + nl.length < fuel)
    (hwords : words.length ≤ wordsSize) : readWords fuel (t ++ nl) ix words =
      if (∀ w ∈ fields space t, w.length < tmpSize) ∧
          words.length + (fields space t).length ≤ wordsSize then
        .ok (words ++ fields space t)
      else .error .index := by
  induction t using split_induction space generalizing ix words fuel with
  -- The last field is followed by the newline or by the end of the string.
  | hlast w hw =>
    cases fuel with
    | zero => omega
    | succ fuel =>
    rw [fields_of_not_mem hw]
    by_cases hnil : w = []
    -- Behind a final blank the loop ends without another word.
    · rw [hnil, List.nil_append, readWords_end hnl, if_pos rfl, List.append_nil, if_pos]
      exact ⟨by simp, by simpa using hwords⟩
    · have hpos := List.length_pos_iff.mpr hnil
      have hhead : (w ++ nl).head? ≠ some newline := by
        obtain ⟨c, w, rfl⟩ := List.exists_cons_of_ne_nil hnil
        exact fun h => ht (List.mem_of_head? h)
      have hend : ∀ c ∈ nl.head?, wordEnding (some c) = true := by
        rcases hnl with rfl | rfl
        · simp
        · simp [wordEnding]
      rw [if_neg hnil, readWords_round (wordEnding_of_mem hw ht) hend (by simp [hnil]) hhead
        (by omega) (by omega)]
      have hcond : ((∀ v ∈ [w], v.length < tmpSize) ∧ words.length + [w].length ≤ wordsSize) ↔
          w.length < tmpSize ∧ words.length < wordsSize := by
        rw [List.forall_mem_singleton, List.length_singleton]
        exact Iff.rfl
      simp only [hcond]
      congr 1
      rcases hnl with rfl | rfl
      · rfl
      · obtain ⟨fuel, rfl⟩ := Nat.exists_eq_succ_of_ne_zero
          (show fuel ≠ 0 by rw [List.length_singleton] at hfuel; omega)
        exact readWords_end (.inl rfl) _ _
  | hcons w rest hw ih =>
    cases fuel with
    | zero => omega
    | succ fuel =>
    have hnw : newline ∉ w := fun h => ht (List.mem_append_left _ h)
    have hnrest : newline ∉ rest := fun h => ht (by simp [h])
    -- A round stops at the blank behind the word, and goes over it.
    have hhead : (w ++ space :: (rest ++ nl)).head? ≠ some newline := by
      cases w with
      | nil => exact fun h => absurd (Option.some.inj h) (by decide)
      | cons c w => exact fun h => hnw (List.mem_of_head? h)
    rw [List.length_append, List.length_cons] at hix hfuel
    rw [fields_append hw, List.append_assoc, List.cons_append,
      readWords_round (wordEnding_of_mem hw hnw) (by simp [wordEnding]) (by simp) hhead
        (by omega) (by omega)]
    by_cases hfit : w.length < tmpSize ∧ words.length < wordsSize
    · rw [if_pos hfit]
      simp only
      rw [ih hnrest (by omega) (by omega) (by rw [List.length_append, List.length_singleton]; omega)]
      have hcond : ((∀ v ∈ w :: fields space rest, v.length < tmpSize) ∧
            words.length + (w :: fields space rest).length ≤ wordsSize) ↔
          (∀ v ∈ fields space rest, v.length < tmpSize) ∧
            (words ++ [w]).length + (fields space rest).length ≤ wordsSize := by
        rw [List.forall_mem_cons, List.length_cons, List.length_append, List.length_singleton,
          Nat.add_right_comm, Nat.add_assoc]
        exact and_congr_left' (and_iff_right hfit.1)
      simp only [hcond, List.append_assoc, List.singleton_append]
    · rw [if_neg hfit, if_neg]
      rintro ⟨hall, hlen⟩
      rw [List.length_cons] at hlen
      exact hfit ⟨hall w List.mem_cons_self, by omega⟩

def body (seg : List UInt8) : List UInt8 := (text seg).dropWhile (· == space)

/-- The number of words that are stored: one for each blank in the body, and one more unless the
last character is a blank. -/
def wordSlots (seg : List UInt8) : ℕ :=
  (body seg).count space + if body seg = [] ∨ (body seg).getLast? = some space then 0 else 1

/-- The words of the command fit `tmp`, and together with the empty ones the array `words`. -/
def CommandFits (seg : List UInt8) : Prop :=
  (∀ w ∈ runs space (text seg), w.length < tmpSize) ∧ wordSlots seg ≤ wordsSize

instance (seg : List UInt8) : Decidable (CommandFits seg) := inferInstanceAs (Decidable (_ ∧ _))

theorem length_fields_body (seg : List UInt8) : (fields space (body seg)).length = wordSlots seg :=
  length_fields space (body seg)

theorem runs_body (seg : List UInt8) : runs space (body seg) = runs space (text seg) :=
  runs_dropWhile space (text seg)

theorem head_body (seg : List UInt8) : (body seg).head? ≠ some space := by
  intro h
  have hne : body seg ≠ [] := by
    intro hnil
    rw [hnil] at h
    contradiction
  have hhead := List.head_dropWhile_not (· == space) hne
  rw [List.head?_eq_some_head hne, Option.some.injEq] at h
  unfold body at h
  simp [h] at hhead

theorem newline_notMem_body (seg : List UInt8) : newline ∉ body seg := fun h =>
  newline_notMem_text seg ((List.dropWhile_suffix _).subset h)

theorem parseCommand_eq (h : NewlineLast seg) (hlen : seg.length ≤ maxUserInput) :
    parseCommand seg =
      if CommandFits seg then .ok (fields space (body seg)) else .error .index := by
  obtain ⟨nl, hseg, hnl⟩ := h.eq_append
  obtain ⟨hskip, hix⟩ := skipSpaces_eq (show 0 + seg.length ≤ maxUserInput by omega)
  -- the newline is no blank, so it is not skipped
  have hrest : seg.dropWhile (· == space) = body seg ++ nl := by
    conv_lhs => rw [hseg]
    have hblank : nl.dropWhile (· == space) = nl := by
      rcases hnl with rfl | rfl
      · rfl
      · rfl
    rw [List.dropWhile_append, hblank]
    unfold body
    split_ifs with hempty
    · rw [List.isEmpty_iff.mp hempty, List.nil_append]
    · rfl
  rw [hrest] at hskip
  rw [hskip, List.length_append] at hix
  have hparse : parseCommand seg =
      readWords (seg.length + 1) (body seg ++ nl) (skipSpaces seg 0).2 [] := by
    rw [parseCommand, ← hskip]
  have hfits : ((∀ w ∈ fields space (body seg), w.length < tmpSize) ∧
      ([] : List (List UInt8)).length + (fields space (body seg)).length ≤ wordsSize) ↔
        CommandFits seg := by
    rw [List.length_nil, Nat.zero_add, length_fields_body, forall_fields_iff (by decide), runs_body]
    rfl
  rw [hparse, readWords_eq hnl (body seg) (newline_notMem_body seg) (by omega) (by omega)
    (Nat.zero_le _)]
  simp only [hfits, List.nil_append]

/-- A string that `fgets` returns: shorter than its buffer, and over at a newline. -/
structure Line where
  bytes : List UInt8
  noZero : (0 : UInt8) ∉ bytes
  short : bytes.length < maxUserInput
  newlineLast : NewlineLast bytes

namespace Line

variable {line : Line}

def segments (line : Line) : List (List UInt8) := runs semicolon line.bytes

theorem newlineLast_of_mem (h : seg ∈ line.segments) : NewlineLast seg := by
  obtain ⟨front, back, hsplit⟩ := infix_of_mem_runs h
  have hne := mem_runs h
  intro hmem
  apply line.newlineLast
  rw [← hsplit]
  cases back with
  | nil =>
    rw [List.append_nil, List.dropLast_append_of_ne_nil hne]
    exact List.mem_append_right _ hmem
  | cons c back =>
    rw [List.dropLast_append_of_ne_nil (List.cons_ne_nil c back)]
    exact List.mem_append_left _ (List.mem_append_right _ ((List.dropLast_sublist seg).subset hmem))

theorem parseCommand_of_mem (h : seg ∈ line.segments) : parseCommand seg =
    if CommandFits seg then .ok (fields space (body seg)) else .error .index := by
  have hshort := line.short
  have hlen := (infix_of_mem_runs h).length_le
  exact parseCommand_eq (newlineLast_of_mem h) (by omega)

theorem parseInput_segments {St : Type} (interpreter : List (List UInt8) → St → Exec (ℤ × St))
    (errorCode : ℤ) (line : Line) (st : St) : parseInput interpreter errorCode line.bytes st =
      runCommands interpreter (line.segments.take maxNumCommands) errorCode st := by
  rw [parseInput, readCommands_eq (by simp)]
  rfl

end Line

section Interpreter

variable {St : Type} {interpreter : List (List UInt8) → St → Exec (ℤ × St)}

def interpretAll (interpreter : List (List UInt8) → St → Exec (ℤ × St)) :
    List (List (List UInt8)) → ℤ → St → Exec (ℤ × St)
  | [], errorCode, st => .ok (errorCode, st)
  | words :: calls, _, st => do
    let (errorCode, st) ← interpreter words st
    interpretAll interpreter calls errorCode st

theorem runCommands_eq {words : List UInt8 → List (List UInt8)}
    (h : ∀ cmd ∈ commands, parseCommand cmd = .ok (words cmd)) (errorCode : ℤ) (st : St) :
    runCommands interpreter commands errorCode st =
      interpretAll interpreter (commands.map words) errorCode st := by
  induction commands generalizing errorCode st with
  | nil => rfl
  | cons cmd commands ih =>
    obtain ⟨hcmd, hrest⟩ := List.forall_mem_cons.mp h
    rw [runCommands, hcmd, List.map_cons, interpretAll]
    simp only [bind, Except.bind]
    congr 1
    funext res
    exact ih hrest res.1 res.2

/-- A command that does not fit is reached when the interpreter returns from those before it. -/
theorem runCommands_overruns {interpreter : List (List UInt8) → St → ℤ × St}
    (hparse : ∀ cmd ∈ commands, parseCommand cmd =
      if CommandFits cmd then .ok (fields space (body cmd)) else .error .index)
    (h : ∃ cmd ∈ commands, ¬ CommandFits cmd) (errorCode : ℤ) (st : St) :
    runCommands (fun words st => .ok (interpreter words st)) commands errorCode st =
      .error .index := by
  induction commands generalizing errorCode st with
  | nil => simp at h
  | cons cmd commands ih =>
    obtain ⟨hcmd, hrest⟩ := List.forall_mem_cons.mp hparse
    rw [runCommands, hcmd]
    by_cases hfits : CommandFits cmd
    · have hmore : ∃ cmd ∈ commands, ¬ CommandFits cmd := by
        obtain ⟨c, hc, hno⟩ := h
        rcases List.mem_cons.mp hc with rfl | hc
        · exact absurd hfits hno
        · exact ⟨c, hc, hno⟩
      simp only [if_pos hfits, bind, Except.bind]
      exact ih hrest hmore _ _
    · simp only [if_neg hfits, bind, Except.bind]

end Interpreter

namespace Line

def Fits (line : Line) : Prop := ∀ seg ∈ line.segments.take maxNumCommands, CommandFits seg

/-- On a line that fits, the interpreter is called with the fields of each command in turn. -/
theorem parseInput_of_fits {St : Type} (interpreter : List (List UInt8) → St → Exec (ℤ × St))
    {line : Line} (h : line.Fits) (errorCode : ℤ) (st : St) :
    parseInput interpreter errorCode line.bytes st = interpretAll interpreter
      ((line.segments.take maxNumCommands).map fun seg => fields space (body seg)) errorCode st := by
  rw [parseInput_segments]
  apply runCommands_eq
  intro seg hseg
  rw [parseCommand_of_mem (List.mem_of_mem_take hseg), if_pos (h seg hseg)]

/-- On any other line it is called until a store is out of bounds. -/
theorem parseInput_of_not_fits {St : Type} (interpreter : List (List UInt8) → St → ℤ × St)
    {line : Line} (h : ¬ line.Fits) (errorCode : ℤ) (st : St) :
    parseInput (fun words st => .ok (interpreter words st)) errorCode line.bytes st =
      .error .index := by
  rw [parseInput_segments]
  apply runCommands_overruns
  · exact fun seg hseg => parseCommand_of_mem (List.mem_of_mem_take hseg)
  · by_contra hno
    exact h fun seg hseg => by_contra fun hlong => hno ⟨seg, hseg, hlong⟩

end Line

end PicoShell.Core
