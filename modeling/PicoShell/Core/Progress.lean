import PicoShell.Core.Reads
import PicoShell.Core.Arguments

namespace PicoShell.Core

open Scheduling

variable {s : Sizes} {size : ℕ} {H : Type} {o : Setting s size H} {m m' : Memory s size H}
  {P P' : Process s size H} {words : List (List UInt8)} {S : ℕ → List (List UInt8)}

def pathWord : Fs.PathCommand → List UInt8
  | .mkdir => ascii "mkdir"
  | .rmdir => ascii "rmdir"
  | .cd => ascii "cd"

/-- `run` comes to a wild pointer in its array, or the path of a command is too much for the file
system. -/
inductive Faulty (o : Setting s size H) (m : Memory s size H) (words : List (List UInt8)) : Prop
  | run (script : List UInt8) (e : Fault) (hwords : words.map chomp = [ascii "run", script])
      (hload : loadPrograms o.env (o.host.lines m.world.host) [.string (textOf script),
        (o.scratch m.world).programs.1, (o.scratch m.world).programs.2] m = .error e)
  | path (cmd : Fs.PathCommand) (path : List UInt8) (e : Fault)
      (hwords : words.map chomp = [pathWord cmd, path])
      (hexec : cmd.exec m.world.getPath m.world.fs (cstring path) (o.scratch m.world).name
        (o.scratch m.world).dest (o.scratch m.world).stack = .error e)

theorem launch_error_iff {programs : List Pointer} {policy : String} {e : Fault} :
    launched (launch o.env (o.host.lines m.world.host) programs policy m) = .error e ↔
      loadPrograms o.env (o.host.lines m.world.host) programs m = .error e := by
  unfold launched launch
  rw [Exec.bind_error_iff, Exec.bind_error_iff, or_assoc]
  refine or_iff_left ?_
  rintro (⟨⟨errCode, m'⟩, -, h⟩ | ⟨x, -, h⟩)
  · simp only at h
    split_ifs at h
    · cases h
    · cases hpolicy : policyOf policy with
      | none =>
        rw [hpolicy] at h
        cases h
      | some p =>
        rw [hpolicy] at h
        cases h
  · cases x with
    | returned code m' => cases h
    | started c => cases h

theorem pathCommand_error_iff {cmd : Fs.PathCommand} {path : List UInt8} {e : Fault} :
    pathCommand o cmd path m = .error e ↔
      cmd.exec m.world.getPath m.world.fs (cstring path) (o.scratch m.world).name
        (o.scratch m.world).dest (o.scratch m.world).stack = .error e := by
  unfold pathCommand
  rw [Exec.bind_error_iff]
  refine or_iff_left ?_
  rintro ⟨res, -, h⟩
  cases h

/-- A program that has no file only ends the call. -/
theorem buildReadyQueue_total {L W : Type} (env : Env s L W) (files : String → Option (List L))
    (programs : List (Option String)) (m : Machine s L W) :
    ∃ res, buildReadyQueue env files programs m = .ok res := by
  induction programs generalizing m with
  | nil => exact ⟨_, rfl⟩
  | cons program programs ih =>
    cases program with
    | none => exact ih m
    | some script =>
      rcases buildReadyQueue_some env files script programs m with ⟨-, hbuild⟩ |
        ⟨-, pcb, m₁, -, hbuild⟩
      · exact ⟨_, hbuild⟩
      · rw [hbuild]
        exact ih m₁

/-- The call fails only if it is one of these. -/
def Failing (o : Setting s size H) (m : Memory s size H) (words : List (List UInt8))
    (x : Exec (Outcome s size H)) : Prop := ∀ e, x = .error e → Faulty o m words

namespace Failing

theorem ok (x : Outcome s size H) : Failing o m words (.ok x) := fun _ h => by cases h

theorem ite {p : Prop} [Decidable p] {x y : Exec (Outcome s size H)}
    (hx : p → Failing o m words x) (hy : ¬ p → Failing o m words y) :
    Failing o m words (if p then x else y) := by
  split_ifs with hp
  · exact hx hp
  · exact hy hp

theorem setCommand (name : List UInt8) {value : List (List UInt8)}
    (h : ∀ w ∈ value, w.length < tmpSize) (hlen : value.length ≤ 5) :
    Failing o m words (do return Core.setCommand name (← joinTokens value []) m) := by
  rw [joinTokens_short h hlen]
  exact ok _

theorem exec (programs : List (List UInt8)) (policy : List UInt8) :
    Failing o m words (execCommand o programs policy m) := by
  intro e he
  rw [execCommand, launch_error_iff, execPrograms_ofOption, loadPrograms_ofOption] at he
  obtain ⟨res, hres⟩ := buildReadyQueue_total o.env (o.host.lines m.world.host) _ m
  rw [hres] at he
  cases he

end Failing

theorem map_chomp_pair {command : List UInt8} (hcommand : (words.map chomp).getD 0 [] = command)
    (hlen : words.length = 2) : words.map chomp = [command, (words.map chomp).getD 1 []] := by
  obtain ⟨a, b, rfl⟩ := List.length_eq_two.mp hlen
  rw [← hcommand]
  rfl

theorem length_chomp_lt (hshort : ∀ w ∈ words, w.length < tmpSize) :
    ∀ w ∈ words.map chomp, w.length < tmpSize := by
  intro w hw
  obtain ⟨word, hword, rfl⟩ := List.mem_map.mp hw
  exact (List.takeWhile_prefix _).length_le.trans_lt (hshort word hword)

theorem interpreter_failing (hshort : ∀ w ∈ words, w.length < tmpSize) :
    Failing o m words (interpreter o words m) := by
  have hpath : ∀ cmd : Fs.PathCommand, (words.map chomp).getD 0 [] = pathWord cmd →
      words.length = 2 → Failing o m words (pathCommand o cmd ((words.map chomp).getD 1 []) m) :=
    fun cmd hcommand hlen e he =>
      .path cmd _ e (map_chomp_pair hcommand hlen) (pathCommand_error_iff.mp he)
  unfold interpreter
  dsimp only
  refine .ite (fun _ => .ok _) fun _ => .ite (fun _ => .ok _) fun hargs => ?_
  -- one command after the other; the commands that cannot fail are closed on the way
  refine .ite (fun _ => .ite (fun _ => .ok _) fun _ => .ok _) fun _ => ?_
  refine .ite (fun _ => .ite (fun _ => .ok _) fun _ => .ok _) fun _ => ?_
  refine .ite (fun _ => .ite (fun _ => .ok _) fun _ => ?_) fun _ => ?_
  · apply Failing.setCommand
    · exact fun w hw => length_chomp_lt hshort w (List.mem_of_mem_drop hw)
    · rw [List.length_drop, List.length_map]
      simp only [maxArgsSize] at hargs
      omega
  refine .ite (fun _ => .ite (fun _ => .ok _) fun _ => .ok _) fun _ => ?_
  refine .ite (fun hcommand => .ite (fun _ => .ok _) fun hlen => ?_) fun _ => ?_
  · intro e he
    exact .run _ e (map_chomp_pair hcommand (not_not.mp hlen)) (launch_error_iff.mp he)
  refine .ite (fun _ => .ite (fun _ => .ok _) fun _ => .ite (fun _ => .ok _) fun _ => .ok _)
    fun _ => ?_
  refine .ite (fun _ => .ite (fun _ => .ok _) fun _ => .ok _) fun _ => ?_
  refine .ite (fun hcommand => .ite (fun _ => .ok _) fun hlow => .ite (fun _ => .ok _) fun hhigh =>
    hpath .mkdir hcommand (by omega)) fun _ => ?_
  refine .ite (fun hcommand => .ite (fun _ => .ok _) fun hlow => .ite (fun _ => .ok _) fun hhigh =>
    hpath .rmdir hcommand (by omega)) fun _ => ?_
  refine .ite (fun _ => .ite (fun _ => .ok _) fun _ => .ite (fun _ => .ok _) fun _ => .ok _)
    fun _ => ?_
  refine .ite (fun hcommand => .ite (fun _ => .ok _) fun hlow => .ite (fun _ => .ok _) fun hhigh =>
    hpath .cd hcommand (by omega)) fun _ => ?_
  refine .ite (fun _ => .ite (fun _ => .ok _) fun _ => .ok _) fun _ => ?_
  exact .ite (fun _ => .ite (fun _ => .ok _) fun _ => .ite (fun _ => .ok _) fun _ => .exec _ _)
    fun _ => .ok _

theorem Faulty.error (h : Faulty o m words) : ∃ e, interpreter o words m = .error e := by
  cases h with
  | run script e hwords hload =>
    have hlen := congrArg List.length hwords
    rw [List.length_map] at hlen
    have hrun : runCommand o script m = .error e := launch_error_iff.mpr hload
    refine ⟨e, Eq.trans ?_ hrun⟩
    unfold interpreter
    rw [hwords, hlen]
    rfl
  | path cmd path e hwords hexec =>
    have hlen := congrArg List.length hwords
    rw [List.length_map] at hlen
    refine ⟨e, Eq.trans ?_ (pathCommand_error_iff.mpr hexec)⟩
    unfold interpreter
    rw [hwords, hlen]
    cases cmd with
    | mkdir => rfl
    | rmdir => rfl
    | cd => rfl

/-- No other call of the interpreter fails: the value of `set` fits its buffer, and `exec` looks at
no pointer that it has not set. -/
theorem interpreter_error_iff (hshort : ∀ w ∈ words, w.length < tmpSize) :
    (∃ e, interpreter o words m = .error e) ↔ Faulty o m words :=
  ⟨fun ⟨e, he⟩ => interpreter_failing hshort e he, Faulty.error⟩

theorem store_ok {α : Type} {n : ℕ} {xs ys : List α} {x : α} (h : store n xs x = .ok ys) :
    xs.length < n ∧ ys = xs ++ [x] := by
  unfold store at h
  split_ifs at h with hlt
  exact ⟨hlt, (Except.ok.inj h).symm⟩

theorem readWords_short {n ix : ℕ} {cmd : List UInt8} {ws : List (List UInt8)}
    (h : readWords n cmd ix ws = .ok words) (hws : ∀ w ∈ ws, w.length < tmpSize) :
    ∀ w ∈ words, w.length < tmpSize := by
  induction n generalizing cmd ix ws with
  | zero => cases h
  | succ n ih =>
    rw [readWords] at h
    split_ifs at h with hend
    · obtain rfl := Except.ok.inj h
      exact hws
    · obtain ⟨⟨rest, ix', tmp⟩, -, h⟩ := Exec.bind_ok h
      obtain ⟨terminated, htmp, h⟩ := Exec.bind_ok h
      obtain ⟨ws', hstore, h⟩ := Exec.bind_ok h
      have hws' : ∀ w ∈ ws', w.length < tmpSize := by
        rw [(store_ok hstore).2]
        intro w hw
        rcases List.mem_append.mp hw with hw | hw
        · exact hws w hw
        · rw [List.mem_singleton.mp hw]
          exact (store_ok htmp).1
      cases rest with
      | nil =>
        obtain rfl := Except.ok.inj h
        exact hws'
      | cons c rest => exact ih h hws'

theorem parseCommand_short {cmd : List UInt8} (h : parseCommand cmd = .ok words) :
    ∀ w ∈ words, w.length < tmpSize :=
  readWords_short h fun _ hw => absurd hw List.not_mem_nil

/-- A command is carried out unless its words overrun their arrays, or its call is faulty. -/
theorem command_error_iff {cmd : List UInt8} {commands input : List (List UInt8)}
    {stack : List (Level s size H)} :
    (∃ e, Process.command o m cmd commands stack input = .error e) ↔
      (∃ e, parseCommand cmd = .error e) ∨ ∃ words, parseCommand cmd = .ok words ∧
        Faulty o { m with world := m.world.tick } words := by
  constructor
  · rintro ⟨e, h⟩
    rcases Exec.bind_error_iff.mp h with hparse | ⟨words, hparse, h⟩
    · exact .inl ⟨e, hparse⟩
    · rcases Exec.bind_error_iff.mp h with hcall | ⟨x, -, h⟩
      · exact .inr ⟨words, hparse, interpreter_failing (parseCommand_short hparse) e hcall⟩
      · cases x with
        | returned code m => cases h
        | started c => cases h
        | exited m => cases h
  · rintro (⟨e, hparse⟩ | ⟨words, hparse, hfaulty⟩)
    · exact ⟨e, Exec.bind_error_iff.mpr (.inl hparse)⟩
    · obtain ⟨e, hcall⟩ := hfaulty.error
      refine ⟨e, Exec.bind_error_iff.mpr (.inr ⟨words, hparse, ?_⟩)⟩
      exact Exec.bind_error_iff.mpr (.inl hcall)

/-- A string that `fgets` returns. -/
def IsLine (bytes : List UInt8) : Prop := ∃ line : Line, line.bytes = bytes

def IsCommand (cmd : List UInt8) : Prop := ∃ line : Line, cmd ∈ line.segments

def Setting.Textual (o : Setting s size H) : Prop :=
  ∀ host name, ∀ contents ∈ o.host.lines host name, ∀ line ∈ contents, IsLine line

theorem splits_lines : Splits (fun _ => IsLine) fun _ => IsCommand := by
  rintro - inp ⟨line, rfl⟩ cmd hcmd
  exact ⟨line, List.mem_of_mem_take hcmd⟩

theorem IsCommand.parse {cmd : List UInt8} (h : IsCommand cmd) : parseCommand cmd =
    if CommandFits cmd then .ok (Fields.fields space (body cmd)) else .error .index := by
  obtain ⟨line, hmem⟩ := h
  exact line.parseCommand_of_mem hmem

theorem IsCommand.command_error_iff {cmd : List UInt8} (h : IsCommand cmd)
    {commands input : List (List UInt8)} {stack : List (Level s size H)} :
    (∃ e, Process.command o m cmd commands stack input = .error e) ↔
      ¬ CommandFits cmd ∨
        Faulty o { m with world := m.world.tick } (Fields.fields space (body cmd)) := by
  rw [Core.command_error_iff, h.parse]
  by_cases hfits : CommandFits cmd
  · simp [hfits]
  · simp [hfits]

namespace Process

theorem not_goes_line_iff {cmd : List UInt8} {commands input : List (List UInt8)} {code : ℤ}
    {stack : List (Level s size H)} :
    (¬ ∃ P', Goes o (.line m (cmd :: commands) code stack input) P') ↔
      ∃ e, command o m cmd commands stack input = .error e := by
  simp only [Goes, step]
  cases command o m cmd commands stack input with
  | error e =>
    refine iff_of_true ?_ ⟨e, rfl⟩
    rintro ⟨P', h⟩
    cases h
  | ok P' =>
    refine iff_of_false (not_not.mpr ⟨P', rfl⟩) ?_
    rintro ⟨e, h⟩
    cases h

/-- In a run with distinct programs the shell stops nowhere but in front of a command whose words
do not fit the arrays of `parseInput`, and in front of a faulty call of the interpreter. -/
theorem stuck_iff {heap : ℕ → PCB s (List UInt8)} {world : World size H} {lines : List Line}
    (hrun : Runs o (start heap world (lines.map Line.bytes)) P) (ho : o.Textual)
    (halive : P.Alive) :
    (¬ ∃ P', Goes o P P') ↔ ∃ m cmd commands code stack input,
      P = .line m (cmd :: commands) code stack input ∧
        (¬ CommandFits cmd ∨
          Faulty o { m with world := m.world.tick } (Fields.fields space (body cmd))) := by
  have hreads : P.Reads (fun _ => IsLine) fun _ => IsCommand := by
    refine hrun.reads splits_lines ho (fun inp hinp => ?_) halive
    obtain ⟨line, -, rfl⟩ := List.mem_map.mp hinp
    exact ⟨line, rfl⟩
  obtain ⟨S, -, -, hfaithful⟩ := (faithful_start heap world _).runs hrun halive
  cases P with
  | prompt m input =>
    refine iff_of_false (not_not.mpr ?_) (by simp)
    cases input with
    | nil => exact ⟨_, rfl⟩
    | cons inp input =>
      simp only [Goes, step, openLine, commandsOf, readCommands_line, bind, Except.bind]
      exact ⟨_, rfl⟩
  | line m commands code stack input =>
    cases commands with
    | nil => exact iff_of_false (not_not.mpr ⟨_, rfl⟩) (by simp)
    | cons cmd commands =>
      rw [not_goes_line_iff, (hreads.pending cmd List.mem_cons_self).command_error_iff]
      constructor
      · exact fun h => ⟨m, cmd, commands, code, stack, input, rfl, h⟩
      · rintro ⟨m', cmd', commands', code', stack', input', heq, h⟩
        obtain ⟨rfl, hcommands, -, -, -⟩ := Process.line.inj heq
        obtain ⟨rfl, -⟩ := List.cons.inj hcommands
        exact h
  | scheduler c commands stack input =>
    obtain ⟨P', hiterate⟩ := hfaithful.iterate_ok (o := o)
    refine iff_of_false (not_not.mpr ⟨P', ?_⟩) (by simp)
    rw [Goes, step, hiterate]
    rfl
  | exited m code => exact absurd rfl (halive m code)

/-- The shell does not get over the long word. -/
theorem stuck_iff_longWord : ∃ P : Process oneFrame 1 Unit,
    Runs (Setting.ofFiles oneFrame 1 fun _ => none) (startIn oneFrame 1 [longWord.bytes]) P ∧
      P.Alive ∧ ¬ ∃ P', Goes (Setting.ofFiles oneFrame 1 fun _ => none) P P' := by
  have hrun : ((distinctFor (Setting.ofFiles oneFrame 1 fun _ => none) 1
      (startIn oneFrame 1 [longWord.bytes])).any fun P =>
        P.pending = [longWord.bytes] ∧ P.policy = none) = true := by
    decide +kernel
  obtain ⟨P, hP, hpending, hpolicy⟩ := exists_of_any hrun
  have halive : P.Alive := by
    rintro m code rfl
    cases hpending
  have hruns : Runs (Setting.ofFiles oneFrame 1 fun _ => none)
      (startIn oneFrame 1 ([longWord].map Line.bytes)) P := runs_distinctFor hP
  refine ⟨P, hruns, halive, (stuck_iff hruns ?_ halive).mpr ?_⟩
  · exact fun _ _ _ hfile => by cases hfile
  · cases P with
    | prompt m input => cases hpending
    | line m commands code stack input =>
      obtain rfl : commands = [longWord.bytes] := hpending
      exact ⟨m, longWord.bytes, [], code, stack, input, rfl, .inl (by decide +kernel)⟩
    | scheduler c commands stack input => cases hpolicy
    | exited m code => cases hpending

end Process

end PicoShell.Core
