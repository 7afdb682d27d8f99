import Mathlib.Data.List.Forall2
import PicoShell.Core.Arguments

namespace PicoShell.Core

open Fields

/-- There is no character that ends a word, or that a word does not keep. -/
def Clean (bytes : List UInt8) : Prop := ∀ c ∈ bytes, c ∉ [0, newline, 13, space, semicolon]

instance (bytes : List UInt8) : Decidable (Clean bytes) := List.decidableBAll _ bytes

@[ext]
structure Word where
  bytes : List UInt8
  nonempty : bytes ≠ []
  short : bytes.length < tmpSize
  clean : Clean bytes

@[ext]
structure Phrase where
  words : List Word
  nonempty : words ≠ []
  short : words.length ≤ wordsSize

namespace Word

variable (w : Word)

theorem space_notMem : space ∉ w.bytes := fun h => w.clean _ h (by decide)

theorem newline_notMem : newline ∉ w.bytes := fun h => w.clean _ h (by decide)

theorem semicolon_notMem : semicolon ∉ w.bytes := fun h => w.clean _ h (by decide)

theorem zero_notMem : (0 : UInt8) ∉ w.bytes := fun h => w.clean _ h (by decide)

end Word

namespace Phrase

def args (cmd : Phrase) : List (List UInt8) := cmd.words.map Word.bytes

def render (cmd : Phrase) : List UInt8 := [space].intercalate cmd.args

variable (cmd : Phrase)

theorem mem_render {c : UInt8} (hc : c ∈ cmd.render) : c = space ∨ ∃ w ∈ cmd.words, c ∈ w.bytes := by
  have hmem : ∀ ws : List Word, c ∈ [space].intercalate (ws.map Word.bytes) →
      c = space ∨ ∃ w ∈ ws, c ∈ w.bytes := by
    intro ws
    induction ws with
    | nil => simp
    | cons w ws ih =>
      by_cases hws : ws = []
      · rw [hws, List.map_singleton, List.intercalate_singleton]
        exact fun h => .inr ⟨w, List.mem_cons_self, h⟩
      · rw [List.map_cons, List.intercalate_cons_of_ne_nil (by simpa using hws), List.append_assoc,
          List.mem_append, List.mem_append, List.mem_singleton]
        rintro (h | h | h)
        · exact .inr ⟨w, List.mem_cons_self, h⟩
        · exact .inl h
        · exact (ih h).imp_right fun ⟨v, hv, hcv⟩ => ⟨v, List.mem_cons_of_mem w hv, hcv⟩
  exact hmem cmd.words hc

theorem notMem_render {c : UInt8} (hc : c ≠ space) (hwords : ∀ w ∈ cmd.words, c ∉ w.bytes) :
    c ∉ cmd.render := fun h => (cmd.mem_render h).elim hc fun ⟨w, hw, hcw⟩ => hwords w hw hcw

theorem newline_notMem : newline ∉ cmd.render :=
  cmd.notMem_render (by decide) fun w _ => w.newline_notMem

theorem semicolon_notMem : semicolon ∉ cmd.render :=
  cmd.notMem_render (by decide) fun w _ => w.semicolon_notMem

theorem zero_notMem : (0 : UInt8) ∉ cmd.render :=
  cmd.notMem_render (by decide) fun w _ => w.zero_notMem

theorem fields_render : fields space cmd.render = cmd.args := by
  apply fields_intercalate
  · exact List.forall_mem_map.mpr fun w _ => w.space_notMem
  · exact List.forall_mem_map.mpr fun w _ => w.nonempty

theorem runs_render : runs space cmd.render = cmd.args := by
  apply runs_intercalate
  · exact List.forall_mem_map.mpr fun w _ => w.space_notMem
  · exact List.forall_mem_map.mpr fun w _ => w.nonempty

theorem render_ne_nil : cmd.render ≠ [] := by
  intro hnil
  have hargs := cmd.runs_render
  rw [hnil, runs_nil] at hargs
  exact cmd.nonempty (List.map_eq_nil_iff.mp hargs.symm)

variable {nl : List UInt8}

theorem text_append (hnl : nl = [] ∨ nl = [newline]) : text (cmd.render ++ nl) = cmd.render := by
  rcases hnl with rfl | rfl
  · rw [List.append_nil]
    exact text_of_notMem cmd.newline_notMem
  · have hself := text_of_notMem cmd.newline_notMem
    rw [text, List.takeWhile_append, ← text, hself, if_pos rfl]
    exact List.append_nil _

/-- The newline behind a command and the blanks in front of it do not matter; here there are none. -/
theorem body_append (hnl : nl = [] ∨ nl = [newline]) : body (cmd.render ++ nl) = cmd.render := by
  have hhead := ((fields_eq_runs_iff space cmd.render).mp
    (cmd.fields_render.trans cmd.runs_render.symm)).1
  rw [body, cmd.text_append hnl]
  cases hrender : cmd.render with
  | nil => rfl
  | cons c s =>
    rw [hrender] at hhead
    exact List.dropWhile_cons_of_neg (by simpa using hhead)

theorem newlineLast_append (hnl : nl = [] ∨ nl = [newline]) : NewlineLast (cmd.render ++ nl) := by
  rcases hnl with rfl | rfl
  · rw [List.append_nil]
    exact fun h => cmd.newline_notMem ((List.dropLast_sublist _).subset h)
  · unfold NewlineLast
    rw [List.dropLast_concat]
    exact cmd.newline_notMem

theorem fits (hnl : nl = [] ∨ nl = [newline]) : CommandFits (cmd.render ++ nl) := by
  constructor
  · rw [cmd.text_append hnl, cmd.runs_render]
    exact List.forall_mem_map.mpr fun w _ => w.short
  · rw [← length_fields_body, cmd.body_append hnl, cmd.fields_render, args, List.length_map]
    exact cmd.short

theorem parse_render (hnl : nl = [] ∨ nl = [newline])
    (hlen : (cmd.render ++ nl).length ≤ maxUserInput) :
    parseCommand (cmd.render ++ nl) = .ok cmd.args := by
  rw [parseCommand_eq (cmd.newlineLast_append hnl) hlen, if_pos (cmd.fits hnl), cmd.body_append hnl,
    cmd.fields_render]

end Phrase

def renderLine (commands : List Phrase) : List UInt8 :=
  [semicolon].intercalate (commands.map Phrase.render)

variable {nl : List UInt8}

theorem runs_renderLine (commands : List Phrase) (cmd : Phrase) (hnl : nl = [] ∨ nl = [newline]) :
    runs semicolon (renderLine (commands ++ [cmd]) ++ nl) =
      commands.map Phrase.render ++ [cmd.render ++ nl] := by
  rw [renderLine, List.map_append, List.map_singleton, intercalate_concat_append]
  have hlast : semicolon ∉ cmd.render ++ nl ∧ cmd.render ++ nl ≠ [] := by
    refine ⟨?_, List.append_ne_nil_of_left_ne_nil cmd.render_ne_nil nl⟩
    rcases hnl with rfl | rfl
    · rw [List.append_nil]
      exact cmd.semicolon_notMem
    · rw [List.mem_append, not_or]
      exact ⟨cmd.semicolon_notMem, by decide⟩
  apply runs_intercalate
  all_goals
    intro seg hseg
    rcases List.mem_append.mp hseg with hseg | hseg
  · obtain ⟨c, -, rfl⟩ := List.mem_map.mp hseg
    exact c.semicolon_notMem
  · rw [List.mem_singleton.mp hseg]
    exact hlast.1
  · obtain ⟨c, -, rfl⟩ := List.mem_map.mp hseg
    exact c.render_ne_nil
  · rw [List.mem_singleton.mp hseg]
    exact hlast.2

def Typable (commands : List Phrase) : Prop :=
  commands ≠ [] ∧ commands.length ≤ maxNumCommands ∧ (renderLine commands).length < maxUserInput

instance (commands : List Phrase) : Decidable (Typable commands) :=
  inferInstanceAs (Decidable (_ ∧ _))

theorem segments_renderLine {commands : List Phrase} (h : Typable commands)
    (hnl : nl = [] ∨ nl = [newline]) :
    List.Forall₂ (fun seg (cmd : Phrase) => parseCommand seg = .ok cmd.args)
      ((runs semicolon (renderLine commands ++ nl)).take maxNumCommands) commands := by
  obtain ⟨hne, hcount, hshort⟩ := h
  have hlen : (renderLine commands ++ nl).length ≤ maxUserInput := by
    rw [List.length_append]
    rcases hnl with rfl | rfl
    · exact hshort.le
    · exact hshort
  have hle : ∀ seg ∈ runs semicolon (renderLine commands ++ nl), seg.length ≤ maxUserInput :=
    fun seg hseg => (infix_of_mem_runs hseg).length_le.trans hlen
  obtain ⟨front, cmd, rfl⟩ : ∃ front cmd, commands = front ++ [cmd] :=
    ⟨_, _, (List.dropLast_concat_getLast hne).symm⟩
  rw [runs_renderLine front cmd hnl] at hle ⊢
  rw [List.take_of_length_le (by simpa using hcount)]
  apply List.rel_append
  · rw [List.forall₂_map_left_iff, List.forall₂_same]
    intro c hc
    have hparse := c.parse_render (.inl rfl) (by
      rw [List.append_nil]
      exact hle _ (List.mem_append_left _ (List.mem_map_of_mem hc)))
    rwa [List.append_nil] at hparse
  · exact .cons (cmd.parse_render hnl (hle _ (by simp))) .nil

theorem runCommands_args {St : Type} (interpreter : List (List UInt8) → St → Exec (ℤ × St))
    {segs : List (List UInt8)} {commands : List Phrase}
    (h : List.Forall₂ (fun seg (cmd : Phrase) => parseCommand seg = .ok cmd.args) segs commands)
    (errorCode : ℤ) (st : St) : runCommands interpreter segs errorCode st =
      interpretAll interpreter (commands.map Phrase.args) errorCode st := by
  induction h generalizing errorCode st with
  | nil => rfl
  | cons hparse _ ih =>
    rw [runCommands, hparse, List.map_cons, interpretAll]
    simp only [bind, Except.bind]
    congr 1
    funext res
    exact ih res.1 res.2

/-- The interpreter is called with the words of one command after the other. -/
theorem parseInput_render {St : Type} (interpreter : List (List UInt8) → St → Exec (ℤ × St))
    {commands : List Phrase} (h : Typable commands) (hnl : nl = [] ∨ nl = [newline])
    (errorCode : ℤ) (st : St) : parseInput interpreter errorCode (renderLine commands ++ nl) st =
      interpretAll interpreter (commands.map Phrase.args) errorCode st := by
  rw [parseInput, readCommands_eq (by simp)]
  exact runCommands_args interpreter (segments_renderLine h hnl) errorCode st

theorem args_injective : Function.Injective Phrase.args := by
  intro cmd cmd' heq
  ext1
  apply List.map_injective_iff.mpr _ heq
  intro w w' hbytes
  ext1
  exact hbytes

/-- What is typed for some commands is read as these commands and no others. -/
theorem line_roundTrip {commands : List Phrase} (h : Typable commands)
    (hnl : nl = [] ∨ nl = [newline]) :
    (∀ (St : Type) (interpreter : List (List UInt8) → St → Exec (ℤ × St)) (errorCode : ℤ) (st : St),
      parseInput interpreter errorCode (renderLine commands ++ nl) st =
        interpretAll interpreter (commands.map Phrase.args) errorCode st) ∧
    ∀ commands', Typable commands' → renderLine commands' = renderLine commands →
      commands' = commands := by
  constructor
  · intro St interpreter errorCode st
    exact parseInput_render interpreter h hnl errorCode st
  · intro commands' h' heq
    have hparse := parseInput_render (fun words log => .ok (record words log)) h (.inl rfl) 0 []
    rw [← heq, parseInput_render _ h' (.inl rfl)] at hparse
    obtain ⟨code, hrun⟩ := interpretAll_record (commands.map Phrase.args) [] 0
    obtain ⟨code', hrun'⟩ := interpretAll_record (commands'.map Phrase.args) [] 0
    rw [hrun, hrun'] at hparse
    exact List.map_injective_iff.mpr args_injective (Exec.ok_inj hparse).2

def phraseTwo : Phrase where
  words := [⟨[97], by decide, by decide, by decide⟩, ⟨[98], by decide, by decide, by decide⟩]
  nonempty := by decide
  short := by decide

theorem line_roundTrip_two : parseInput (fun words log => .ok (record words log)) 0
    (renderLine [phraseTwo, phraseTwo] ++ [newline]) [] = .ok (0, [[[97], [98]], [[97], [98]]]) := by
  rw [(line_roundTrip (by decide) (.inr rfl)).1]
  rfl

end PicoShell.Core
